import Tellodb.Collections.Aligned
import Tellodb.Embedding.Batches
import Tellodb.Vectors.Search

/-!
# Observations of a batch

The embedding of a batch in `api/handlers/ingest.rs`. The texts of the payloads are filtered with
them (`retain`), those of the payloads that are indexed by meaning are embedded, each text once
(`generateEmbeddings`), and the embeddings come back as a list, from which a payload takes the next
one (`buildObservations`). A payload that is too similar to a memory is dropped. That every record
has the embedding of its own text is `records_aligned`. -/

namespace Tellodb

open Relational Collections

/-! ## Texts -/

/-- `payload_session` -/
def payloadSession (payload : IngestPayload) : Option String :=
  payload.sessionId.filter fun session => !session.isEmpty

/-- The places of the payloads of a session. -/
def sessionIndices (payloads : List IngestPayload) (session : String) : List ℕ :=
  (payloads.zipIdx.filter fun x => payloadSession x.1 = some session).map Prod.snd

/-- A payload's text with the header of its session. -/
def withContextHeader (contextHeader : Option String → Option String → String)
    (payloads : List IngestPayload) (idx : ℕ) (payload : IngestPayload) : String :=
  let indices := (payloadSession payload).elim [] (sessionIndices payloads)
  let textAt (i : ℕ) : Option String := (payloads[i]?).map IngestPayload.textualContent
  match indices.idxOf? idx with
  | none => payload.textualContent
  | some pos =>
    let prev := if 0 < pos then (indices[pos - 1]?).bind textAt else none
    let next := (indices[pos + 1]?).bind textAt
    contextHeader prev next ++ payload.textualContent

/-- The texts of `expand_and_enrich_payloads`. -/
def enrichedTexts (contextHeader : Option String → Option String → String) (mode : EmbedTextMode)
    (payloads : List IngestPayload) : List String :=
  payloads.zipIdx.map fun x =>
    if mode ≠ .legacy || x.1.kind = some "synthetic_query" then x.1.textualContent
    else withContextHeader contextHeader payloads x.2 x.1

/-! ## Embeddings -/

/-- What a server brings to the embedding of a batch. -/
structure ObservationRules {γ : Type} (V : Type) (H : Hnsw γ) extends EmbedSettings where
  /-- `build_context_header` -/
  contextHeader : Option String → Option String → String
  /-- `embed_texts_async` -/
  embedTexts : List String → Except String (List (List ℚ))
  /-- The embeddings come in the order of the texts. -/
  embedTexts_eq : ∀ texts embeddings, embedTexts texts = .ok embeddings →
    embeddings = texts.map embed
  /-- `infer_query_fact_key_with_profile` -/
  inferFactKey : String → Option String
  /-- `expires_at_ms` of `evaluate_lifecycle`. -/
  expiresAtMs : IngestPayload → Option UInt64
  /-- `index_vector` of `evaluate_lifecycle`. -/
  indexVector : IngestPayload → Bool
  vectors : SearchConfig γ V ℚ
  /-- `HnswSegment::search` -/
  graphSearch : H.Graph → List ℚ → ℕ → List (ℕ × V)

/-- The payload is indexed by meaning. -/
def IngestPayload.isSemantic (payload : IngestPayload) : Bool :=
  payload.indexSemantic.getD true

section

variable {γ V : Type} {H : Hnsw γ} (R : ObservationRules V H)

/-- `generate_embeddings`. An error with the text of an `expect` is a panic. -/
def generateEmbeddings (payloads : List IngestPayload) (texts : List String) :
    Except String (List (List ℚ)) :=
  let specs := (payloads.zipIdx.filter fun x => x.1.isSemantic).map fun x => texts.getD x.2 ""
  let unique := uniques specs
  let embeddings := if unique.1.isEmpty then .ok [] else R.embedTexts unique.1
  match embeddings with
  | .error _ => .error "ingest operation failed"
  | .ok embeddings => specs.mapM fun spec =>
    match (unique.2 spec).bind (embeddings[·]?) with
    | some embedding => .ok embedding
    | none => .error "embedding spec not found in index"

/-! ## Observations -/

/-- `PreparedRecord` -/
structure PreparedRecord where
  payload : IngestPayload
  obs : AgentObservation
  enableConsolidation : Bool
  deriving DecidableEq

/-- Where `build_observations` is: the embeddings that are not taken yet, the memories that were
checked for duplicates, and the vector index. -/
structure ObservationState {γ : Type} (H : Hnsw γ) where
  semanticEmbeddings : List (List ℚ)
  semanticSeen : List (String × List ℚ)
  index : VectorIndex H

/-- The payload with the fact key that its text has. -/
def withFactKey (inferFactKey : String → Option String) (payload : IngestPayload) : IngestPayload :=
  if (payload.memoryKind = .preference || payload.memoryKind = .decision ||
      payload.memoryKind = .fact) && payload.factKey.all fun key => (trim key.toList).isEmpty then
    { payload with factKey := (inferFactKey payload.textualContent).or payload.factKey }
  else payload

/-- The embedding of a payload, and the embeddings that are left. -/
def nextEmbedding (payload : IngestPayload) (embeddings : List (List ℚ)) :
    List ℚ × List (List ℚ) :=
  if payload.isSemantic then (embeddings.headD [], embeddings.tail) else ([], embeddings)

/-- The observation of a payload. -/
def observation (payload : IngestPayload) (embedding : List ℚ) : AgentObservation where
  entityId := payload.entityId
  textualContent := payload.textualContent
  embedding := embedding
  kind := payload.memoryKind
  contentHash := contentHash R.sha256 payload.textualContent payload.entityId payload.memoryKind
  expiresAtMs := R.expiresAtMs payload
  sessionId := payload.sessionId.getD ""
  turnIndex := payload.turnIndex.getD 0
  role := payload.role.getD ""
  parentMemoryId := payload.sourceMemoryId

/-- The payload is checked for duplicates. -/
def checksDuplicates (payload : IngestPayload) : Bool :=
  payload.isSemantic && R.indexVector payload && payload.enableSemanticDedup.getD true &&
    R.semanticDedup && (payload.memoryKind = .fact || payload.memoryKind = .decision)

/-- The similarity from which on a memory is a duplicate. -/
def duplicateThreshold : ℚ := 94 / 100

/-- An earlier memory of the batch is a duplicate. -/
def isSeen (seen : List (String × List ℚ)) (entityId : String) (embedding : List ℚ) : Bool :=
  seen.any fun prior =>
    prior.1 = entityId && duplicateThreshold ≤ R.cosineSimilarity prior.2 embedding

variable [LinearOrder V]

/-- `is_semantic_duplicate`, with the index after it. -/
def isSemanticDuplicate (S : TenantStore) (index : VectorIndex H) (entityId : String)
    (embedding : List ℚ) (threshold : ℚ) : Except String Bool × VectorIndex H :=
  let found := index.search R.vectors R.graphSearch S (some entityId) embedding 5
  (found.1.map fun candidates => candidates.any fun hit => threshold ≤ 1 - hit.2, found.2)

/-- The embedding that a payload takes, which is left out if its lifecycle has it so. -/
def takenEmbedding (payload : IngestPayload) (embeddings : List (List ℚ)) : List ℚ :=
  if R.indexVector payload then (nextEmbedding payload embeddings).1 else []

/-- The record of a payload. -/
def preparedRecord (payload : IngestPayload) (embedding : List ℚ) : PreparedRecord where
  payload := withFactKey R.inferFactKey payload
  obs := observation R payload embedding
  enableConsolidation := payload.enableConsolidation.getD true

/-- `build_observations`, one payload: its record, unless it is dropped. -/
def observe (S : TenantStore) (s : ObservationState H) (payload : IngestPayload) :
    Except String (Option PreparedRecord × ObservationState H) :=
  let rest := (nextEmbedding payload s.semanticEmbeddings).2
  let embedding := takenEmbedding R payload s.semanticEmbeddings
  if checksDuplicates R payload then
    let isDup := isSemanticDuplicate R S s.index payload.entityId embedding duplicateThreshold
    match isDup.1 with
    | .error e => .error e
    | .ok dup =>
      if dup || isSeen R s.semanticSeen payload.entityId embedding then
        .ok (none, ⟨rest, s.semanticSeen, isDup.2⟩)
      else .ok (some (preparedRecord R payload embedding),
        ⟨rest, s.semanticSeen ++ [(payload.entityId, embedding)], isDup.2⟩)
  else .ok (some (preparedRecord R payload embedding), ⟨rest, s.semanticSeen, s.index⟩)

/-- `build_observations` -/
def buildObservations (S : TenantStore) :
    ObservationState H → List IngestPayload →
      Except String (List PreparedRecord × ObservationState H)
  | s, [] => .ok ([], s)
  | s, payload :: rest =>
    match observe R S s payload with
    | .error e => .error e
    | .ok (record, s) =>
      match buildObservations S s rest with
      | .error e => .error e
      | .ok (records, s) => .ok (record.toList ++ records, s)

/-- The texts that are embedded. -/
def recordTexts (order : HashOrder) (S : TenantStore) (payloads : List IngestPayload) :
    List String :=
  if R.config.mode = .legacy then enrichedTexts R.contextHeader R.config.mode payloads
  else (buildEmbedTexts order S payloads R.config).texts

/-- `execute_ingest_pipeline`, from the expanded payloads to their records. -/
def prepareRecords (order : HashOrder) (S : TenantStore) (index : VectorIndex H)
    (payloads : List IngestPayload) :
    Except String (List PreparedRecord × ObservationState H) :=
  let texts := recordTexts R order S payloads
  let keep := payloads.map fun p => shouldKeepPayload (S.storedContentState p.memoryId)
    (contentHash R.sha256 p.textualContent p.entityId p.memoryKind)
  match generateEmbeddings R (retain keep payloads) (retain keep texts) with
  | .error e => .error e
  | .ok embeddings => buildObservations R S ⟨embeddings, [], index⟩ (retain keep payloads)

/-- What is committed of the records. -/
def observationsOf (records : List PreparedRecord) : List (UInt64 × String × AgentObservation) :=
  records.map fun r => (r.payload.timestamp, r.payload.memoryId, r.obs)

end

/-! ## Embeddings in line -/

/-- The specs are the texts of the payloads that are indexed by meaning. -/
theorem semanticSpecs_eq {payloads : List IngestPayload} {texts : List String}
    (h : payloads.length = texts.length) :
    ((payloads.zipIdx.filter fun x => x.1.isSemantic).map fun x => texts.getD x.2 "") =
      ((payloads.zip texts).filter fun x => x.1.isSemantic).map Prod.snd := by
  have hzip : payloads.zip texts = payloads.zipIdx.map fun x => (x.1, texts.getD x.2 "") := by
    refine List.ext_getElem (by simp [h]) fun i hi _ => ?_
    have htext : i < texts.length := by
      rw [List.length_zip] at hi
      omega
    rw [List.getElem_zip, List.getElem_map, List.getElem_zipIdx, Nat.zero_add]
    dsimp only
    rw [List.getD_eq_getElem?_getD, List.getElem?_eq_getElem htext, Option.getD_some]
  rw [hzip, List.filter_map, List.map_map]
  rfl

section

variable {γ V : Type} {H : Hnsw γ} {R : ObservationRules V H}

/-- The embeddings are those of the texts of the payloads that are indexed by meaning, in their
order. -/
theorem generateEmbeddings_eq {payloads : List IngestPayload} {texts : List String}
    (hlength : payloads.length = texts.length) {embeddings : List (List ℚ)}
    (h : generateEmbeddings R payloads texts = .ok embeddings) :
    embeddings =
      ((payloads.zip texts).filter fun x => x.1.isSemantic).map fun x => R.embed x.2 := by
  unfold generateEmbeddings at h
  rw [semanticSpecs_eq hlength] at h
  generalize hspecs :
    ((payloads.zip texts).filter fun x => x.1.isSemantic).map Prod.snd = specs at h
  dsimp only at h
  cases hunique : (if (uniques specs).1.isEmpty = true then Except.ok []
      else R.embedTexts (uniques specs).1) with
  | error e =>
    rw [hunique] at h
    exact absurd h (by simp)
  | ok answers =>
    rw [hunique] at h
    -- An answer for every text, whether or not the engine is called.
    have hanswers : answers = (uniques specs).1.map R.embed := by
      split at hunique
      · rename_i hempty
        rw [List.isEmpty_iff.mp hempty]
        exact (Except.ok.inj hunique).symm
      · exact R.embedTexts_eq _ _ hunique
    have hmap : embeddings = specs.map R.embed := by
      refine mapM_eq_map (fun spec _ embedding hspec => ?_) h
      cases hfound : ((uniques specs).2 spec).bind (answers[·]?) with
      | none =>
        rw [hfound] at hspec
        exact absurd hspec (by simp)
      | some answer =>
        rw [hfound] at hspec
        obtain ⟨i, hi, hget⟩ := Option.bind_eq_some_iff.mp hfound
        rw [hanswers, List.getElem?_map, getElem?_uniques hi, Option.map_some] at hget
        rw [← Except.ok.inj hspec, ← Option.some.inj hget]
    rw [hmap, ← hspecs, List.map_map]
    rfl

/-- Every payload has a text. -/
theorem length_recordTexts (order : HashOrder) (S : TenantStore) (payloads : List IngestPayload) :
    (recordTexts R order S payloads).length = payloads.length := by
  unfold recordTexts enrichedTexts buildEmbedTexts
  split
  · simp
  · split <;> simp

/-! ## Records in line -/

/-- An inferred key leaves the identifier as it is. -/
theorem memoryId_withFactKey (inferFactKey : String → Option String) (payload : IngestPayload) :
    (withFactKey inferFactKey payload).memoryId = payload.memoryId := by
  unfold withFactKey
  split <;> rfl

/-- A record is that of a payload with its text: its embedding is that of the text, or left out. -/
structure PreparedRecord.IsOf (R : ObservationRules V H) (r : PreparedRecord)
    (x : IngestPayload × String) : Prop where
  payload : r.payload = withFactKey R.inferFactKey x.1
  obs : r.obs = observation R x.1 r.obs.embedding
  embedding : r.obs.embedding = [] ∨ r.obs.embedding = R.embed x.2

/-- A record is of its payload, with the embedding that it is prepared with. -/
theorem isOf_preparedRecord (payload : IngestPayload) {text : String} {embedding : List ℚ}
    (h : embedding = [] ∨ embedding = R.embed text) :
    (preparedRecord R payload embedding).IsOf R (payload, text) where
  payload := by
    dsimp only [preparedRecord]
  obs := by
    dsimp only [preparedRecord, observation]
  embedding := h

/-- The records are those of some payloads with their texts, in their order. -/
def AreOf (R : ObservationRules V H) (records : List PreparedRecord)
    (rows : List (IngestPayload × String)) : Prop :=
  ∃ kept : List (IngestPayload × String), kept.Sublist rows ∧
    List.Forall₂ (PreparedRecord.IsOf R) records kept

/-- The first payload takes the embedding of its text, and leaves those of the rest. -/
theorem nextEmbedding_cons (payload : IngestPayload) (text : String)
    (rows : List (IngestPayload × String)) :
    let embeddings := ((((payload, text) :: rows).filter fun x => x.1.isSemantic).map
      fun x => R.embed x.2)
    (nextEmbedding payload embeddings).2 =
        ((rows.filter fun x => x.1.isSemantic).map fun x => R.embed x.2) ∧
      (takenEmbedding R payload embeddings = [] ∨
        takenEmbedding R payload embeddings = R.embed text) := by
  intro embeddings
  -- What is taken is the next embedding or none at all.
  have htaken : takenEmbedding R payload embeddings = [] ∨
      takenEmbedding R payload embeddings = (nextEmbedding payload embeddings).1 := by
    unfold takenEmbedding
    split
    · exact .inr rfl
    · exact .inl rfl
  -- Only the semantic payloads have a place in the list.
  cases hsemantic : payload.isSemantic with
  | true =>
    have hfirst : embeddings = R.embed text ::
        ((rows.filter fun x => x.1.isSemantic).map fun x => R.embed x.2) := by
      simp [embeddings, hsemantic]
    have hnext : nextEmbedding payload embeddings =
        (R.embed text, (rows.filter fun x => x.1.isSemantic).map fun x => R.embed x.2) := by
      unfold nextEmbedding
      rw [if_pos hsemantic, hfirst]
      rfl
    rw [hnext] at htaken ⊢
    exact ⟨rfl, htaken⟩
  | false =>
    have hnext : nextEmbedding payload embeddings = ([], embeddings) := by
      unfold nextEmbedding
      rw [hsemantic]
      exact if_neg Bool.false_ne_true
    have hfirst : embeddings =
        ((rows.filter fun x => x.1.isSemantic).map fun x => R.embed x.2) := by
      simp [embeddings, hsemantic]
    rw [hnext] at htaken ⊢
    exact ⟨hfirst, .inl (htaken.elim id id)⟩

variable [LinearOrder V]

/-- What becomes of a payload: its record, or nothing if it is checked and found to be a duplicate.
Its embedding is taken either way. -/
theorem observe_cases {S : TenantStore} {s s' : ObservationState H} {payload : IngestPayload}
    {record : Option PreparedRecord} (h : observe R S s payload = .ok (record, s')) :
    let embedding := takenEmbedding R payload s.semanticEmbeddings
    s'.semanticEmbeddings = (nextEmbedding payload s.semanticEmbeddings).2 ∧
      ((checksDuplicates R payload = false ∧
          record = some (preparedRecord R payload embedding) ∧
          s'.semanticSeen = s.semanticSeen ∧ s'.index = s.index) ∨
        (checksDuplicates R payload = true ∧ ∃ dup,
          (isSemanticDuplicate R S s.index payload.entityId embedding duplicateThreshold).1 =
            .ok dup ∧
          s'.index =
            (isSemanticDuplicate R S s.index payload.entityId embedding duplicateThreshold).2 ∧
          (((dup || isSeen R s.semanticSeen payload.entityId embedding) = true ∧ record = none ∧
              s'.semanticSeen = s.semanticSeen) ∨
            ((dup || isSeen R s.semanticSeen payload.entityId embedding) = false ∧
              record = some (preparedRecord R payload embedding) ∧
              s'.semanticSeen = s.semanticSeen ++ [(payload.entityId, embedding)])))) := by
  intro embedding
  unfold observe at h
  dsimp only at h
  -- The checks are made only of a semantic payload with an embedding.
  split at h
  · rename_i hchecks
    split at h
    · exact absurd h (by simp)
    · rename_i dup hdup
      split at h
      · rename_i hduplicate
        obtain ⟨rfl, rfl⟩ := Prod.mk.inj (Except.ok.inj h)
        exact ⟨rfl, .inr ⟨hchecks, dup, hdup, rfl, .inl ⟨hduplicate, rfl, rfl⟩⟩⟩
      · rename_i hnew
        obtain ⟨rfl, rfl⟩ := Prod.mk.inj (Except.ok.inj h)
        exact ⟨rfl, .inr ⟨hchecks, dup, hdup, rfl, .inr ⟨Bool.eq_false_iff.mpr hnew, rfl, rfl⟩⟩⟩
  · rename_i hchecks
    obtain ⟨rfl, rfl⟩ := Prod.mk.inj (Except.ok.inj h)
    exact ⟨rfl, .inl ⟨Bool.eq_false_iff.mpr hchecks, rfl, rfl, rfl⟩⟩

/-- The payloads are observed one after the other. -/
theorem buildObservations_cons {S : TenantStore} {s s' : ObservationState H}
    {payload : IngestPayload} {rest : List IngestPayload} {records : List PreparedRecord}
    (h : buildObservations R S s (payload :: rest) = .ok (records, s')) :
    ∃ record s₁ more, observe R S s payload = .ok (record, s₁) ∧
      buildObservations R S s₁ rest = .ok (more, s') ∧ records = record.toList ++ more := by
  rw [buildObservations] at h
  cases hobserve : observe R S s payload with
  | error e =>
    rw [hobserve] at h
    exact absurd h (by simp)
  | ok result =>
    rw [hobserve] at h
    dsimp only at h
    cases hmore : buildObservations R S result.2 rest with
    | error e =>
      rw [hmore] at h
      exact absurd h (by simp)
    | ok more =>
      rw [hmore] at h
      obtain ⟨rfl, rfl⟩ := Prod.mk.inj (Except.ok.inj h)
      exact ⟨result.1, result.2, more.1, rfl, hmore, rfl⟩

/-- Each payload takes the embedding of its text, so the records are in line. -/
theorem buildObservations_aligned {S : TenantStore} {s s' : ObservationState H}
    {payloads : List IngestPayload} {texts : List String} (hlength : payloads.length = texts.length)
    (hs : s.semanticEmbeddings =
      ((payloads.zip texts).filter fun x => x.1.isSemantic).map fun x => R.embed x.2)
    {records : List PreparedRecord} (h : buildObservations R S s payloads = .ok (records, s')) :
    AreOf R records (payloads.zip texts) := by
  -- The induction is on the payloads, whose embeddings are taken off the list in turn.
  induction payloads generalizing s s' texts records with
  | nil =>
    obtain ⟨rfl, -⟩ := Prod.mk.inj (Except.ok.inj h)
    exact ⟨[], List.nil_sublist _, .nil⟩
  | cons payload rest ih =>
    cases texts with
    | nil => exact absurd hlength (by simp)
    | cons text texts =>
      rw [List.zip_cons_cons] at hs ⊢
      obtain ⟨hrest, htaken⟩ := nextEmbedding_cons (R := R) payload text (rest.zip texts)
      rw [← hs] at hrest htaken
      obtain ⟨record, s₁, more, hobserve, hmore, rfl⟩ := buildObservations_cons h
      obtain ⟨hembeddings, hrecord⟩ := observe_cases hobserve
      obtain ⟨kept, hsub, hkept⟩ :=
        ih (Nat.succ.inj hlength) (hembeddings.trans hrest) hmore
      have hprepared : (preparedRecord R payload
          (takenEmbedding R payload s.semanticEmbeddings)).IsOf R (payload, text) :=
        isOf_preparedRecord payload htaken
      -- A record is admitted or dropped, and the list has moved on either way.
      rcases hrecord with ⟨-, rfl, -⟩ | ⟨-, -, -, -, ⟨-, rfl, -⟩ | ⟨-, rfl, -⟩⟩
      · exact ⟨(payload, text) :: kept, hsub.cons_cons _, .cons hprepared hkept⟩
      · exact ⟨kept, hsub.cons _, hkept⟩
      · exact ⟨(payload, text) :: kept, hsub.cons_cons _, .cons hprepared hkept⟩

/-- The vectors after memories are written: those from before, and those of the memories. -/
theorem vector_of_insertObservationsTx {recordedAt : UInt64} {S : TenantStore}
    {items : List (UInt64 × String × AgentObservation)} {v : VectorRow}
    (hv : v ∈ (insertObservationsTx recordedAt S items).1.vectorLookup.rows) :
    v ∈ S.vectorLookup.rows ∨ ∃ item ∈ items, v.memoryId = item.2.1 ∧
      v.entityId = item.2.2.entityId ∧ v.embedding = item.2.2.embedding ∧ v.embedding ≠ [] := by
  rw [insertObservationsTx_eq] at hv
  induction items using List.reverseRecOn generalizing v with
  | nil => exact .inl hv
  | append_singleton items item ih =>
    rw [List.foldl_append] at hv
    -- The last item writes the vector of its row or removes it.
    have hput : v ∈ (List.foldl (writeObservation recordedAt) (S.memories, S.vectorLookup, [])
          items).2.1.rows ∨ (v.memoryId = item.2.1 ∧ v.entityId = item.2.2.entityId ∧
        v.embedding = item.2.2.embedding ∧ v.embedding ≠ []) := by
      change v ∈ (putVector _ _ item).rows at hv
      unfold putVector at hv
      dsimp only at hv
      split at hv
      · exact .inl (Table.mem_deleteWhere.mp hv).1
      · rename_i hsome
        rcases Table.mem_insertOrReplace.mp hv with ⟨hold, -⟩ | rfl
        · exact .inl hold
        · exact .inr ⟨rfl, rfl, rfl, fun hempty => hsome (List.isEmpty_iff.mpr hempty)⟩
    rcases hput with hold | hnew
    · refine (ih hold).imp_right ?_
      rintro ⟨other, hother, heq⟩
      exact ⟨other, List.mem_append_left _ hother, heq⟩
    · exact .inr ⟨item, List.mem_append_right _ List.mem_cons_self, hnew⟩

/-- The payloads of a batch that are kept, as flags. -/
def keepFlags (R : ObservationRules V H) (S : TenantStore) (payloads : List IngestPayload) :
    List Bool :=
  payloads.map fun p => shouldKeepPayload (S.storedContentState p.memoryId)
    (contentHash R.sha256 p.textualContent p.entityId p.memoryKind)

/-- The records are those of some of the payloads that are kept, with their texts. -/
theorem areOf_prepareRecords {order : HashOrder} {S : TenantStore}
    {index : VectorIndex H} {payloads : List IngestPayload} {records : List PreparedRecord}
    {s : ObservationState H} (h : prepareRecords R order S index payloads = .ok (records, s)) :
    AreOf R records
      (retain (keepFlags R S payloads) (payloads.zip (recordTexts R order S payloads))) := by
  have hlength := length_recordTexts (R := R) order S payloads
  unfold prepareRecords at h
  dsimp only at h
  split at h
  · exact absurd h (by simp)
  · rename_i embeddings hembeddings
    have hretained := length_retain (keepFlags R S payloads) hlength.symm
    have haligned := buildObservations_aligned hretained
      (generateEmbeddings_eq hretained hembeddings) h
    rwa [zip_retain hlength.symm] at haligned

end

/-- For every batch: the records are those of some of its payloads, in their order, and the
embedding of each is empty or that of the text at its payload's place. So are the vectors that are
stored with the records. -/
theorem records_aligned {γ V : Type} [LinearOrder V] {H : Hnsw γ} (R : ObservationRules V H)
    (order : HashOrder) (S : TenantStore) (index : VectorIndex H) (payloads : List IngestPayload)
    {records : List PreparedRecord} {s : ObservationState H}
    (h : prepareRecords R order S index payloads = .ok (records, s)) :
    AreOf R records (payloads.zip (recordTexts R order S payloads)) ∧
      ∀ recordedAt, ∀ v ∈ (insertObservationsTx recordedAt S
          (observationsOf records)).1.vectorLookup.rows,
        v ∈ S.vectorLookup.rows ∨
          ∃ (i : ℕ) (payload : IngestPayload) (text : String), payloads[i]? = some payload ∧
            (recordTexts R order S payloads)[i]? = some text ∧ v.memoryId = payload.memoryId ∧
              v.entityId = payload.entityId ∧ v.embedding = R.embed text := by
  have haligned : AreOf R records (payloads.zip (recordTexts R order S payloads)) := by
    obtain ⟨kept, hsub, hkept⟩ := areOf_prepareRecords h
    exact ⟨kept, hsub.trans (retain_sublist _ _), hkept⟩
  refine ⟨haligned, fun recordedAt v hv => (vector_of_insertObservationsTx hv).imp_right ?_⟩
  rintro ⟨item, hitem, hmemory, hentity, hembedding, hsome⟩
  obtain ⟨r, hr, rfl⟩ := List.mem_map.mp hitem
  obtain ⟨kept, hsub, hkept⟩ := haligned
  obtain ⟨x, hx, hof⟩ := exists_of_forall₂ hkept hr
  -- A record stands where its payload does, so its text is that of the same place.
  obtain ⟨i, hi⟩ := List.getElem?_of_mem (hsub.subset hx)
  obtain ⟨hpayload, htext⟩ := List.getElem?_zip_eq_some.mp hi
  refine ⟨i, x.1, x.2, hpayload, htext, ?_, ?_, ?_⟩
  · rw [hmemory]
    dsimp only
    rw [hof.payload, memoryId_withFactKey]
  · rw [hentity]
    dsimp only
    rw [hof.obs]
    rfl
  · exact hembedding.trans
      (hof.embedding.resolve_left fun hempty => hsome (hembedding.trans hempty))

/-! ## A batch with a text twice -/

/-- Rules by which a text is embedded as its length. -/
def plainRules : ObservationRules ℚ (Hnsw.exact (List ℚ)) where
  embed text := [text.length, 1]
  sha256 := id
  cosineSimilarity := fun v w => if v = w then 1 else 0
  config := ⟨.turn, 0⟩
  semanticDedup := true
  contextHeader := fun _ _ => ""
  embedTexts texts := .ok (texts.map fun text => [text.length, 1])
  embedTexts_eq := fun _ _ h => (Except.ok.inj h).symm
  inferFactKey := fun _ => none
  expiresAtMs := fun _ => none
  indexVector := fun _ => true
  vectors :=
    { encode := id, flatThreshold := 10000, dimensions := 2, isExact := true, rescoreFactor := 4
      similarity := fun query v => (List.zipWith (· * ·) query v).sum
      fullSimilarity := fun query v => (List.zipWith (· * ·) query v).sum
      distance := fun similarity => 1 - similarity }
  graphSearch := fun _ _ _ => []

/-- A payload of an entity. -/
def said (memoryId kind text : String) (indexSemantic : Option Bool) : IngestPayload :=
  { IngestPayload.default with
    entityId := "e", memoryId, kind := some kind, textualContent := text, indexSemantic }

/-- A batch with texts that repeat, one of which is not to be stored. -/
private def texts : List IngestPayload :=
  [said "e::s::0" "fact" "tea" none, said "e::s::1" "conversational" "hello" (some false),
    said "e::s::2" "fact" "tea" none, said "e::s::3" "conversational" "tea" none]

/-- Two of the texts are the same, one is not embedded and one is dropped. -/
theorem records_aligned_twice :
    ∃ records s, prepareRecords plainRules .insertion TenantStore.empty (.new _) texts =
        .ok (records, s) ∧ AreOf plainRules records (texts.zip
          (recordTexts plainRules .insertion TenantStore.empty texts)) := by
  have hok : (prepareRecords plainRules .insertion TenantStore.empty (.new _) texts).isOk =
      true := by
    decide +kernel
  cases h : prepareRecords plainRules .insertion TenantStore.empty (.new _) texts with
  | error e =>
    rw [h] at hok
    exact absurd hok Bool.false_ne_true
  | ok result => exact ⟨result.1, result.2, rfl, (records_aligned plainRules _ _ _ _ h).1⟩

end Tellodb
