import Tellodb.Facts.Commit
import Tellodb.Facts.Reported
import Tellodb.Metrics.Extracted
import Tellodb.Storage.Consolidation

/-!
# Facts under the identifiers that were sent

A fact is registered under the identifier of the record that states it, which may be a chunk or a
companion of what the client sent. `fact_history` and `fact_versions_for_memories` report the parent
of the record instead, and look it up once. That is the memory that was sent if the record is a
chunk of it or a companion of it as a whole. The parent of a companion of a chunk is the chunk, so
the identifier of the chunk is reported (`related_chunks_reported`).

`AllIds` says of every memory that the fact tables name what a registration keeps, and
`reportsSent_of_run` that all identifiers reported were sent, as long as no companion of a chunk
states a fact. -/

namespace Tellodb

open Relational Collections FactTables FactVersion

/-! ## The memories that the tables name -/

namespace FactTables

/-- The memories that the fact tables name: those that state a version or replaced one, and those
that there is evidence from. -/
def memoryIds (T : FactTables) : List String :=
  (T.versions.rows.flatMap fun v => v.memoryId :: v.supersededBy.toList) ++
    T.evidence.rows.map FactEvidence.memoryId

/-- What holds of all memories that the tables name. -/
structure AllIds (P : String → Prop) (T : FactTables) : Prop where
  versions : ∀ v ∈ T.versions.rows, P v.memoryId ∧ ∀ x ∈ v.supersededBy, P x
  evidence : ∀ e ∈ T.evidence.rows, P e.memoryId

/-- What holds of all memories that the tables name, memory by memory. -/
theorem allIds_iff {P : String → Prop} {T : FactTables} :
    T.AllIds P ↔ ∀ x ∈ T.memoryIds, P x := by
  unfold memoryIds
  constructor
  · intro h x hx
    rcases List.mem_append.mp hx with hx | hx
    · obtain ⟨v, hv, hx⟩ := List.mem_flatMap.mp hx
      rcases List.mem_cons.mp hx with rfl | hx
      · exact (h.versions v hv).1
      · exact (h.versions v hv).2 x (Option.mem_toList.mp hx)
    · obtain ⟨e, he, rfl⟩ := List.mem_map.mp hx
      exact h.evidence e he
  · intro h
    have hversion : ∀ v ∈ T.versions.rows, ∀ x ∈ v.memoryId :: v.supersededBy.toList, P x :=
      fun v hv x hx => h x (List.mem_append_left _ (List.mem_flatMap.mpr ⟨v, hv, hx⟩))
    refine ⟨fun v hv => ⟨hversion v hv _ List.mem_cons_self, fun x hx => ?_⟩, fun e he => ?_⟩
    · exact hversion v hv x (List.mem_cons_of_mem _ (Option.mem_toList.mpr hx))
    · exact h _ (List.mem_append_right _ (List.mem_map_of_mem he))

section Registration

variable {P : String → Prop} {T : FactTables} {entityId : String} {recordedAt : UInt64}
  {f : FactRegistration}

/-- An update of the versions that names such memories only. -/
theorem AllIds.of_map {T' : FactTables} (h : T.AllIds P) {g : FactVersion → FactVersion}
    (hrows : T'.versions.rows = T.versions.rows.map g) (hevidence : T'.evidence = T.evidence)
    (hg : ∀ v ∈ T.versions.rows, (g v).memoryId = v.memoryId ∧
      ∀ x ∈ (g v).supersededBy, x ∈ v.supersededBy ∨ P x) : T'.AllIds P := by
  constructor
  · intro w hw
    rw [hrows] at hw
    obtain ⟨v, hv, rfl⟩ := List.mem_map.mp hw
    obtain ⟨hmemory, hsuperseded⟩ := hg v hv
    rw [hmemory]
    exact ⟨(h.versions v hv).1, fun x hx =>
      (hsuperseded x hx).elim ((h.versions v hv).2 x) id⟩
  · rw [hevidence]
    exact h.evidence

/-- The inserts of a registration name its memory. -/
theorem AllIds.inserted (h : T.AllIds P) (hf : P f.memoryId) :
    (T.inserted entityId recordedAt f).AllIds P := by
  constructor
  · intro v hv
    rcases T.inserted_cases entityId recordedAt f with ⟨-, -, -, hsame⟩ | ⟨-, hrows⟩
    · exact h.versions v (hsame ▸ hv)
    · rw [hrows] at hv
      rcases List.mem_append.mp hv with hv | hv
      · exact h.versions v hv
      · rw [List.mem_singleton.mp hv]
        exact ⟨hf, fun x hx => absurd hx (Option.not_mem_none x)⟩
  · intro e he
    rcases mem_insertEvidence _ _ _ _ _ _ he with hold | hnew
    · exact h.evidence e hold
    · rw [hnew]
      exact hf

/-- Linking names the memory of the statement or that of its successor. -/
theorem supersededBy_linkRow {predecessor successor : Option FactPosition} {v : FactVersion}
    {x : String} (hx : x ∈ (linkRow f predecessor successor v).supersededBy) :
    x ∈ v.supersededBy ∨ x = f.memoryId ∨ ∃ s ∈ successor, s.memoryId = x := by
  -- The three assignments, and what each of them writes into the column.
  have hpreceded : ∀ p v, ((setPreceded f).on p v).supersededBy = v.supersededBy := by
    intro p v
    unfold Assignment.on
    split <;> rfl
  have hplace : ∀ x ∈ ((setPlace f predecessor successor).on (isVersion f.factKey f.memoryId)
      v).supersededBy, x ∈ v.supersededBy ∨ ∃ s ∈ successor, s.memoryId = x := by
    intro x hx
    unfold Assignment.on at hx
    split at hx
    · obtain ⟨s, hs, hsame⟩ := Option.map_eq_some_iff.mp hx
      exact .inr ⟨s, hs, hsame⟩
    · exact .inl hx
  have hclosed : ∀ p v, ∀ x ∈ ((setClosed f).on p v).supersededBy,
      x ∈ v.supersededBy ∨ x = f.memoryId := by
    intro p v x hx
    unfold Assignment.on at hx
    split at hx
    · exact .inr (Option.some.inj hx).symm
    · exact .inl hx
  unfold linkRow at hx
  dsimp only at hx
  -- The cases are those of the two neighbours.
  have hlinked : x ∈ ((setPlace f predecessor successor).on (isVersion f.factKey f.memoryId)
      v).supersededBy ∨ x = f.memoryId := by
    cases predecessor <;> cases successor <;> simp only [hpreceded] at hx
    · exact .inl hx
    · exact .inl hx
    · exact hclosed _ _ x hx
    · exact hclosed _ _ x hx
  rcases hlinked with hplaced | hself
  · exact (hplace x hplaced).imp_right .inr
  · exact .inr (.inl hself)

/-- A registration names its memory and those that the tables name already. -/
theorem AllIds.registeredFact (h : T.AllIds P) (hf : P f.memoryId) :
    (T.registeredFact entityId recordedAt f).AllIds P := by
  cases hr : T.restates entityId f with
  | true =>
    -- A fact that restates adds itself as evidence.
    refine ⟨fun v hv => h.versions v (registeredFact_versions_of_restates hr recordedAt ▸ hv), ?_⟩
    unfold FactTables.registeredFact
    rw [if_pos hr]
    cases T.covering f.factKey entityId f.timestamp with
    | none => exact h.evidence
    | some version =>
      intro e he
      rcases mem_insertEvidence _ _ _ _ _ _ he with hold | hnew
      · exact h.evidence e hold
      · rw [hnew]
        exact hf
  | false =>
    obtain ⟨n, hn, htables⟩ := registeredFact_of_not_restates hr recordedAt
    have hinserted : (T.inserted entityId recordedAt f).AllIds P := h.inserted hf
    rw [htables]
    -- The rows keep their memories, and what supersedes them is the fact or a version behind it.
    refine hinserted.of_map (linkVersion_rows _ _ _ _) (linkVersion_evidence _ _ _ _)
      fun v hv => ⟨memoryId_of_statement (linkRow_statement f _ _ v), fun x hx => ?_⟩
    rcases supersededBy_linkRow hx with hold | rfl | ⟨s, hs, rfl⟩
    · exact .inl hold
    · exact .inr hf
    · obtain ⟨w, hw, rfl⟩ := exists_of_successor hs
      exact .inr (hinserted.versions w (mem_timeline.mp hw).1).1

/-- The repair of a chain names nothing new. -/
theorem AllIds.settled (h : T.AllIds P) (factKey entityId : String) :
    (T.settled factKey entityId).AllIds P := by
  unfold FactTables.settled promoteNewestToCurrent
  cases T.currentFactVersion factKey entityId with
  | some _ => exact h
  | none =>
    cases lastBy chainKey (T.chain factKey entityId) with
    | none => exact h
    | some newest =>
      refine h.of_map (updateVersions_rows _ _ _) rfl fun v hv => ?_
      unfold Assignment.on
      split
      · exact ⟨rfl, fun x hx => absurd hx (Option.not_mem_none x)⟩
      · exact ⟨rfl, fun x hx => .inl hx⟩

/-- A batch names its memories and those that the tables name already. -/
theorem AllIds.registerBatch {b : FactBatch} (h : T.AllIds P)
    (hb : ∀ f ∈ b.registrations, P f.memoryId) : (T.registerBatch b).AllIds P := by
  refine registerBatch_invariant ?_ fun _ factKey entityId hT => hT.settled factKey entityId
  obtain ⟨entityId, fs, recordedAt⟩ := b
  unfold registeredAll
  dsimp only at hb ⊢
  induction fs generalizing T with
  | nil => exact h
  | cons f fs ih =>
    exact ih (h.registeredFact (hb f List.mem_cons_self))
      fun g hg => hb g (List.mem_cons_of_mem _ hg)

end Registration

end FactTables

/-! ## What is reported -/

/-- All memories that the readers of facts report are among some identifiers. -/
structure TenantStore.ReportsSent (S : TenantStore) (sent : List String) : Prop where
  history : ∀ entityId factKey, ∀ entry ∈ S.facts.factHistory S.parentOf entityId factKey,
    entry.memoryId ∈ sent ∧ ∀ x ∈ entry.evidence, x ∈ sent
  versions : ∀ memoryIds memoryId version,
    S.factVersionsForMemories memoryIds memoryId = some version →
      (∀ x ∈ version.supersededBy, x ∈ sent) ∧ ∀ x ∈ version.evidence, x ∈ sent

/-- A memory is reported under one of some identifiers. -/
def TenantStore.Sourced (S : TenantStore) (sent : List String) (x : String) : Prop :=
  (S.parentOf x).getD x ∈ sent

/-- The version that is kept for a memory is a version. -/
theorem mem_of_keptVersion {S : TenantStore} {memoryIds : List String} {memoryId : String}
    {v : FactVersion} (h : S.keptVersion memoryIds memoryId = some v) :
    v ∈ S.facts.versions.rows := by
  rw [TenantStore.keptVersion_eq] at h
  obtain ⟨chunk, -, hlast⟩ := Option.bind_eq_some_iff.mp h
  have hkept := (mem_orderBy _ _ _).mp (List.mem_of_getLast? hlast)
  rcases (TenantStore.mem_keptIn.mp hkept).2 with hown | ⟨hinherited, -⟩
  · exact (List.mem_filter.mp hown).1
  · exact (List.mem_filter.mp hinherited).1

/-- The readers report such identifiers if all memories that the tables name are under them. -/
theorem reportsSent_of_sourced {S : TenantStore} {sent : List String}
    (h : S.facts.AllIds (S.Sourced sent)) : S.ReportsSent sent := by
  constructor
  -- The history of a fact lists its evidence.
  · intro entityId factKey entry hentry
    obtain ⟨v, hv, rfl⟩ := List.mem_map.mp hentry
    have hv := (List.mem_filter.mp ((mem_orderBy _ _ _).mp hv)).1
    refine ⟨(h.versions v hv).1, fun x hx => ?_⟩
    obtain ⟨e, he, rfl⟩ := List.mem_map.mp hx
    exact h.evidence e (List.mem_filter.mp ((mem_orderBy _ _ _).mp he)).1
  · intro memoryIds memoryId version hversion
    obtain ⟨v, hv, rfl⟩ := Option.map_eq_some_iff.mp hversion
    have hv := mem_of_keptVersion hv
    refine ⟨fun x hx => ?_, fun x hx => ?_⟩
    -- A superseding memory is reported by its parent, if it has one.
    · change x ∈ (v.supersededBy.bind S.parentOf).or v.supersededBy at hx
      cases hsuperseded : v.supersededBy with
      | none =>
        rw [hsuperseded] at hx
        exact absurd hx (Option.not_mem_none x)
      | some y =>
        have hy := (h.versions v hv).2 y hsuperseded
        unfold TenantStore.Sourced at hy
        rw [hsuperseded, Option.bind_some] at hx
        cases hparent : S.parentOf y with
        | none =>
          rw [hparent] at hx hy
          obtain rfl := Option.some.inj hx
          exact hy
        | some z =>
          rw [hparent] at hx hy
          obtain rfl := Option.some.inj hx
          exact hy
    · obtain ⟨e, he, rfl⟩ := List.mem_map.mp hx
      exact h.evidence e (List.mem_filter.mp ((mem_orderBy _ _ _).mp he)).1

/-! ## What is sent and what is made of it -/

/-- The identifiers in some payloads: those of the memories, and of the sources that are given for
them. -/
def sentIds (payloads : List IngestPayload) : List String :=
  payloads.flatMap fun p => p.memoryId :: p.sourceMemoryId.toList

/-- The fact that `build_artifacts` makes of a record. -/
def PreparedRecord.fact (r : PreparedRecord) : Option IngestFactRegistration :=
  if r.obs.kind = .fact ∨ r.obs.kind = .preference ∨ r.obs.kind = .decision then
    r.payload.factKey.map fun factKey =>
      { entityId := r.payload.entityId
        factKey := factKey
        timestamp := r.payload.timestamp
        memoryId := r.payload.memoryId
        subject := r.payload.factSubject.getD r.payload.entityId
        predicate := r.payload.factPredicate.getD factKey
        object := r.payload.factObject.getD (normalizeFactText r.payload.textualContent) }
  else none

namespace IngestServer

variable {γ V : Type} {H : Hnsw γ} (server : IngestServer V H)

/-- The companions of the chunks of some payloads. -/
def chunkCompanions (payloads : List IngestPayload) : List IngestPayload :=
  payloads.flatMap fun p =>
    let units := p.prepared.units server.enabled
    if units.length ≤ 1 then []
    else units.flatMap fun part =>
      (p.prepared.withCompanions server.mining server.enabled part).tail

variable [LinearOrder V]

/-- The records of a request. -/
def records (S : TenantStore) (q : IngestRequest H) : List PreparedRecord :=
  ((prepareRecords server.toObservationRules q.order S q.index
    (server.expanded q.payloads)).toOption.map Prod.fst).getD []

/-- The facts of a request are those of its records, if the server keeps facts. -/
def RegistersFacts (facts : Bool) (s : Ingested) (q : IngestRequest H) : Prop :=
  q.artifacts.factBatch =
    if facts then (server.records s.1 q).filterMap PreparedRecord.fact else []

/-- No companion of a chunk that is stored states a fact, or takes the identifier of a memory that
does. -/
def ChunksStateAlone (s : Ingested) (q : IngestRequest H) : Prop :=
  ∀ companion ∈ server.chunkCompanions q.payloads,
    companion.memoryId ∈ (server.records s.1 q).map (fun r => r.payload.memoryId) →
      companion.memoryId ∉ q.artifacts.factBatch.map IngestFactRegistration.memoryId ∧
        companion.memoryId ∉ s.1.facts.memoryIds

instance (facts : Bool) (s : Ingested) (q : IngestRequest H) :
    Decidable (server.RegistersFacts facts s q) :=
  inferInstanceAs (Decidable (_ = _))

instance (s : Ingested) (q : IngestRequest H) : Decidable (server.ChunksStateAlone s q) :=
  inferInstanceAs (Decidable (∀ companion ∈ server.chunkCompanions q.payloads,
    companion.memoryId ∈ (server.records s.1 q).map (fun r => r.payload.memoryId) →
      companion.memoryId ∉ q.artifacts.factBatch.map IngestFactRegistration.memoryId ∧
        companion.memoryId ∉ s.1.facts.memoryIds))

end IngestServer

/-! ## Sources of payloads -/

/-- The source of a companion is the part that it is of. -/
theorem source_of_companion {R : MiningRules} {part companion : IngestPayload}
    (h : companion ∈ part.buildCompanionPayloads R) :
    companion.sourceMemoryId = some part.memoryId := by
  unfold IngestPayload.buildCompanionPayloads at h
  split at h
  · exact absurd h List.not_mem_nil
  · simp only [List.mem_append, List.mem_mapIdx, List.mem_map, or_assoc] at h
    rcases h with hsession | ⟨idx, hidx, rfl⟩ | ⟨idx, hidx, rfl⟩ | ⟨text, -, rfl⟩ | ⟨idx, hidx, rfl⟩
    · split at hsession
      · unfold IngestPayload.sessionCompanions at hsession
        dsimp only at hsession
        rcases List.mem_append.mp hsession with hgist | hkeywords
        · obtain ⟨text, -, rfl⟩ := List.mem_map.mp hgist
          rfl
        · obtain ⟨text, -, rfl⟩ := List.mem_map.mp hkeywords
          rfl
      · exact absurd hsession List.not_mem_nil
    · rfl
    · rfl
    · rfl
    · rfl

/-- A payload that is not cut is its only part, and the source of a chunk is the payload. -/
theorem source_of_unit {enabled : Feature → Bool} {p part : IngestPayload}
    (h : part ∈ p.units enabled) :
    ((p.units enabled).length ≤ 1 ∧ part = p) ∨
      (¬ (p.units enabled).length ≤ 1 ∧ part.sourceMemoryId = some p.memoryId) := by
  unfold IngestPayload.units at h ⊢
  split at h
  · rename_i hchunks
    rw [if_pos hchunks]
    unfold IngestPayload.expandPayloadForContentType at h ⊢
    split at h
    · rename_i hfew
      rw [if_pos hfew]
      exact .inl ⟨Nat.le_refl 1, List.mem_singleton.mp h⟩
    · rename_i hmany
      rw [if_neg hmany, List.length_mapIdx]
      obtain ⟨idx, hidx, rfl⟩ := List.mem_mapIdx.mp h
      exact .inr ⟨hmany, rfl⟩
  · rename_i hchunks
    rw [if_neg hchunks]
    exact .inl ⟨Nat.le_refl 1, List.mem_singleton.mp h⟩

section

variable {γ V : Type} {H : Hnsw γ} {server : IngestServer V H}

/-- The source of a record was sent, unless it is a companion of a chunk. -/
theorem source_of_expanded {payloads : List IngestPayload} {q : IngestPayload}
    (h : q ∈ server.expanded payloads) :
    q.sourceMemoryId.getD q.memoryId ∈ sentIds payloads ∨ q ∈ server.chunkCompanions payloads := by
  obtain ⟨p, hp, hq⟩ := List.mem_flatMap.mp h
  obtain ⟨part, hpart, hq⟩ := List.mem_flatMap.mp hq
  have hsent : ∀ x ∈ p.memoryId :: p.sourceMemoryId.toList, x ∈ sentIds payloads :=
    fun x hx => List.mem_flatMap.mpr ⟨p, hp, hx⟩
  -- A record other than the part itself is a companion of it.
  have hcases : q = part ∨ (q ∈ (p.prepared.withCompanions server.mining server.enabled part).tail ∧
      q.sourceMemoryId = some part.memoryId) := by
    unfold IngestPayload.withCompanions at hq ⊢
    rcases List.mem_cons.mp hq with hpart | hmem
    · exact .inl hpart
    · refine .inr ⟨hmem, ?_⟩
      by_cases hmined : p.prepared.enableMining.getD true = true
      · rw [if_pos hmined] at hmem
        obtain ⟨companion, hcompanion, rfl⟩ := List.mem_map.mp hmem
        change companion.sourceMemoryId = some part.memoryId
        exact source_of_companion (List.mem_filter.mp hcompanion).1
      · rw [if_neg hmined] at hmem
        exact absurd hmem List.not_mem_nil
  rcases source_of_unit hpart with ⟨-, rfl⟩ | ⟨hmany, hsource⟩
  · rcases hcases with rfl | ⟨-, hsource⟩
    · rw [sourceMemoryId_prepared, memoryId_prepared]
      refine .inl (hsent _ ?_)
      cases p.sourceMemoryId with
      | none => exact List.mem_cons_self
      | some source => exact List.mem_cons_of_mem _ List.mem_cons_self
    · rw [hsource, memoryId_prepared]
      exact .inl (hsent _ List.mem_cons_self)
  · rcases hcases with rfl | ⟨hcompanion, -⟩
    · rw [hsource, memoryId_prepared]
      exact .inl (hsent _ List.mem_cons_self)
    · refine .inr (List.mem_flatMap.mpr ⟨p, hp, ?_⟩)
      dsimp only
      rw [if_neg hmany]
      exact List.mem_flatMap.mpr ⟨part, hpart, hcompanion⟩

variable [LinearOrder V] {s : Ingested} {q : IngestRequest H} {records : List PreparedRecord}
  {o : ObservationState H}

/-- The records of a request that is prepared without error. -/
theorem records_eq (h : prepareRecords server.toObservationRules q.order s.1 q.index
    (server.expanded q.payloads) = .ok (records, o)) : server.records s.1 q = records := by
  unfold IngestServer.records
  rw [h]
  rfl

/-- The memory of a fact of a request is the one of a record. -/
theorem record_of_fact {facts : Bool} (hq : server.RegistersFacts facts s q) {x : String}
    (hx : x ∈ q.artifacts.factBatch.map IngestFactRegistration.memoryId) :
    x ∈ (server.records s.1 q).map fun r => r.payload.memoryId := by
  obtain ⟨fact, hfact, rfl⟩ := List.mem_map.mp hx
  rw [hq] at hfact
  split at hfact
  · obtain ⟨r, hr, hmade⟩ := List.mem_filterMap.mp hfact
    refine List.mem_map.mpr ⟨r, hr, ?_⟩
    unfold PreparedRecord.fact at hmade
    split at hmade
    · obtain ⟨factKey, -, rfl⟩ := Option.map_eq_some_iff.mp hmade
      rfl
    · exact absurd hmade (by simp)
  · exact absurd hfact List.not_mem_nil

/-- The parent of a memory, from the column of the memory. -/
theorem parentOf_eq_join (S : TenantStore) (x : String) :
    S.parentOf x = ((S.memories.find? x).map MemoryRow.parentMemoryId).join := by
  unfold TenantStore.parentOf
  cases S.memories.find? x <;> rfl

/-- A memory that the tables name is under an identifier that was sent, after a request whose
chunks' companions state nothing. -/
theorem sourced_after {facts : Bool} {sent : List String} {S' : TenantStore}
    {b : IngestBatches} {outcome : CommitOutcome}
    (hprepare : prepareRecords server.toObservationRules q.order s.1 q.index
      (server.expanded q.payloads) = .ok (records, o))
    (hobservations : b.observations = observationsOf records)
    (hcommit : s.1.commitIngest server.cosineSimilarity q.order q.clock b = .ok (S', outcome))
    (hq : server.RegistersFacts facts s q) (halone : server.ChunksStateAlone s q)
    (hsent : sentIds q.payloads ⊆ sent) {x : String}
    (hx : (x ∈ s.1.facts.memoryIds ∧ s.1.Sourced sent x) ∨
      x ∈ q.artifacts.factBatch.map IngestFactRegistration.memoryId) : S'.Sourced sent x := by
  -- The parent column is that of the last item under the identifier.
  have hparent : S'.parentOf x = (lastItem b.observations x).elim (s.1.parentOf x)
      fun item => item.2.2.parentMemoryId := by
    have hcolumn : (S'.memories.find? x).map MemoryRow.parentMemoryId =
        (lastItem b.observations x).elim ((s.1.memories.find? x).map MemoryRow.parentMemoryId)
          fun item => some item.2.2.parentMemoryId :=
      column_commitIngest (fun _ => rfl) (fun _ _ => rfl) hcommit x
    rw [parentOf_eq_join, parentOf_eq_join, hcolumn]
    cases lastItem b.observations x <;> rfl
  unfold TenantStore.Sourced
  rw [hparent, hobservations]
  cases hlast : lastItem (observationsOf records) x with
  | none =>
    -- No record is under the identifier, so no fact of the request is.
    rcases hx with ⟨-, hsourced⟩ | hfact
    · exact hsourced
    · have hrecord := record_of_fact hq hfact
      rw [records_eq hprepare] at hrecord
      obtain ⟨r, hr, rfl⟩ := List.mem_map.mp hrecord
      exact absurd rfl (lastItem_eq_none.mp hlast _ (List.mem_map_of_mem hr))
  | some item =>
    -- A record is a payload that was sent or a companion of one.
    obtain ⟨p, hp, hid, hobs⟩ := exists_of_lastItem hprepare hlast
    obtain ⟨hitem, hname⟩ := mem_of_lastItem hlast
    have hrecord : p.memoryId ∈ (server.records s.1 q).map fun r => r.payload.memoryId := by
      rw [records_eq hprepare, hid, ← hname]
      obtain ⟨r, hr, rfl⟩ := List.mem_map.mp hitem
      exact List.mem_map_of_mem hr
    rcases source_of_expanded ((retain_sublist _ _).subset hp) with hsource | hcompanion
    · change (item.2.2.parentMemoryId).getD x ∈ sent
      rw [hobs, ← hid]
      exact hsent hsource
    · obtain ⟨hnofact, hunnamed⟩ := halone p hcompanion hrecord
      rw [hid] at hnofact hunnamed
      rcases hx with ⟨hnamed, -⟩ | hfact
      · exact absurd hnamed hunnamed
      · exact absurd hfact hnofact

end

/-! ## Runs -/

/-- More payloads send more identifiers. -/
theorem sentIds_append (first second : List IngestPayload) :
    sentIds (first ++ second) = sentIds first ++ sentIds second :=
  List.flatMap_append

/-- A fact keeps its memory under the canonical form of its key. -/
theorem memoryId_canonicalFact (assigned : List ((String × String) × String))
    (fact : IngestFactRegistration) : (canonicalFact assigned fact).memoryId = fact.memoryId := by
  unfold canonicalFact
  split <;> rfl

/-- The facts that a commit registers are those of its batch, as to their memories. -/
theorem memoryId_of_commitBatches {cosineSimilarity : List ℚ → List ℚ → ℚ} {S : TenantStore}
    {order : HashOrder} {clock : IngestClock} {b : IngestBatches} {batch : FactBatch}
    (hbatch : batch ∈ S.commitBatches cosineSimilarity order clock b) {f : FactRegistration}
    (hf : f ∈ batch.registrations) :
    f.memoryId ∈ b.factBatch.map IngestFactRegistration.memoryId := by
  obtain ⟨group, hgroup, rfl⟩ := List.mem_map.mp hbatch
  obtain ⟨entityId, -, rfl⟩ := List.mem_map.mp hgroup
  obtain ⟨fact, hfact, rfl⟩ := List.mem_map.mp hf
  obtain ⟨original, horiginal, rfl⟩ := List.mem_map.mp (List.mem_filter.mp hfact).1
  exact List.mem_map.mpr ⟨original, horiginal, (memoryId_canonicalFact _ _).symm⟩

/-- Batches name their memories and those that the tables name already. -/
theorem FactTables.AllIds.registerBatches {P : String → Prop} {T : FactTables} (h : T.AllIds P)
    {batches : List FactBatch}
    (hbatches : ∀ b ∈ batches, ∀ f ∈ b.registrations, P f.memoryId) :
    (batches.foldl FactTables.registerBatch T).AllIds P := by
  induction batches generalizing T with
  | nil => exact h
  | cons b batches ih =>
    exact ih (h.registerBatch (hbatches b List.mem_cons_self))
      fun c hc => hbatches c (List.mem_cons_of_mem _ hc)

/-- What holds after some requests. -/
def SentOnly (s : Ingested) : Prop :=
  s.1.facts.AllIds (s.1.Sourced (sentIds s.2))

section

variable {γ V : Type} [LinearOrder V] {H : Hnsw γ} {server : IngestServer V H}

/-- A request whose chunks' companions state nothing keeps it. -/
theorem SentOnly.step {facts : Bool} {s : Ingested} {q : IngestRequest H} (h : SentOnly s)
    (hq : server.RegistersFacts facts s q) (halone : server.ChunksStateAlone s q) :
    SentOnly (server.step s q) := by
  unfold IngestServer.step IngestServer.ingest
  -- A request without payloads does nothing.
  by_cases hempty : q.payloads.isEmpty
  · rw [if_pos hempty]
    dsimp only
    rw [List.isEmpty_iff.mp hempty, List.append_nil]
    exact h
  rw [if_neg hempty]
  cases hprepare : prepareRecords server.toObservationRules q.order s.1 q.index
      (server.expanded q.payloads) with
  | error e => exact h
  | ok prepared =>
    dsimp only
    cases hcommit : s.1.commitIngest server.cosineSimilarity q.order q.clock
        (server.batchOf q prepared.1) with
    | error e => exact h
    | ok committed =>
      dsimp only
      obtain ⟨docs, memories, hindexed, hmarks⟩ :=
        indexCommitted_inv q.order q.faults committed.1 committed.2
      have hsent : sentIds q.payloads ⊆ sentIds (s.2 ++ q.payloads) := by
        rw [sentIds_append]
        exact List.subset_append_right _ _
      have hnamed : ∀ x ∈ s.1.facts.memoryIds, s.1.Sourced (sentIds (s.2 ++ q.payloads)) x := by
        intro x hx
        have hbefore := allIds_iff.mp h x hx
        unfold TenantStore.Sourced at hbefore ⊢
        rw [sentIds_append]
        exact List.mem_append_left _ hbefore
      -- The tables name the same memories, and those of the facts of the request.
      have hall : committed.1.facts.AllIds
          (committed.1.Sourced (sentIds (s.2 ++ q.payloads))) := by
        rw [commitIngest_batches hcommit]
        refine FactTables.AllIds.registerBatches (allIds_iff.mpr fun x hx => ?_)
          fun batch hbatch f hf => ?_
        · exact sourced_after hprepare rfl hcommit hq halone hsent (.inl ⟨hx, hnamed x hx⟩)
        · exact sourced_after hprepare rfl hcommit hq halone hsent
            (.inr (memoryId_of_commitBatches hbatch hf))
      -- The background work does not change the parents.
      have hparent : ∀ x, (committed.1.indexCommitted q.order q.faults committed.2).parentOf x =
          committed.1.parentOf x := by
        intro x
        rw [hindexed, parentOf_eq_join, parentOf_eq_join]
        exact congrArg Option.join (column_of_unmarked (fun _ => rfl) hmarks x)
      unfold SentOnly TenantStore.Sourced
      simp only [hparent]
      rw [hindexed]
      exact hall

end

/-- In every run of requests whose facts are those of their records, and in which no companion of a
chunk that is stored states a fact or takes the identifier of a memory that the tables name, the
memories that the readers of facts report are ones that were sent. -/
theorem reportsSent_of_run {γ V : Type} [LinearOrder V] {H : Hnsw γ} (server : IngestServer V H)
    (facts : Bool) (requests : List (IngestRequest H))
    (hregisters : EachStep server.step (server.RegistersFacts facts) (TenantStore.empty, [])
      requests)
    (halone : EachStep server.step server.ChunksStateAlone (TenantStore.empty, []) requests) :
    (requests.foldl server.step (TenantStore.empty, [])).1.ReportsSent
      (sentIds (requests.foldl server.step (TenantStore.empty, [])).2) := by
  have hboth : EachStep server.step (fun s q => server.RegistersFacts facts s q ∧
      server.ChunksStateAlone s q) (TenantStore.empty, []) requests :=
    fun before q after hrun => ⟨hregisters before q after hrun, halone before q after hrun⟩
  have hnew : SentOnly (TenantStore.empty, []) :=
    ⟨fun _ hv => absurd hv List.not_mem_nil, fun _ he => absurd he List.not_mem_nil⟩
  exact reportsSent_of_sourced (hboth.invariant (fun _ _ h hq => h.step hq.1 hq.2) hnew)

/-! ## Two requests -/

/-- A server that mines nothing. -/
private def factServer : IngestServer ℚ (Hnsw.exact (List ℚ)) where
  toObservationRules := plainRules
  mining :=
    { companionTexts := fun _ => (none, [])
      keywordText := fun _ => none
      inferFactKey := fun _ => none
      eventText := fun _ => none
      extract := fun _ _ _ _ => [] }
  enabled := fun _ => true
  metrics := false
  extract := fun _ => []

/-- A request with one payload, whose records state some facts. -/
private def stating (payload : IngestPayload) (facts : List IngestFactRegistration) :
    IngestRequest (Hnsw.exact (List ℚ)) where
  payloads := [payload]
  order := .insertion
  clock := ⟨1, 1, 1⟩
  artifacts := { factBatch := facts }
  faults := ⟨false, false⟩
  index := .new _

/-- A mail, which is stored as two chunks. -/
private def sentMail : IngestPayload :=
  { said "e::s::0" "fact" "From: bob\nSubject: tea" (some false) with
    contentType := some "email" }

/-- What a relation states. -/
private def likesTea (memoryId : String) : IngestFactRegistration where
  entityId := "e"
  factKey := "relation_likes"
  timestamp := 0
  memoryId := memoryId
  subject := "Ann"
  predicate := "likes"
  object := "tea"

/-- What a chunk of the mail states. -/
private def sentByBob (memoryId : String) : IngestFactRegistration where
  entityId := "e"
  factKey := "sender"
  timestamp := 0
  memoryId := memoryId
  subject := "e"
  predicate := "sender"
  object := "bob"

/-- A memory with a relation, and a mail that states a fact. -/
private def sentRequests : List (IngestRequest (Hnsw.exact (List ℚ))) :=
  [stating
      { said "e::s::1" "conversational" "tea" none with relations := [("Ann", "likes", "tea")] }
      [likesTea "e::s::1::rel0"],
    stating
      { sentMail with
        factKey := some "sender"
        factObject := some "bob" }
      [sentByBob "e::s::0::c0", sentByBob "e::s::0::c1"]]

/-- The theorem for a relation of a memory and for the chunks of a mail: both are reported under
what was sent. -/
theorem reportsSent_of_run_mail :
    (sentRequests.foldl factServer.step (TenantStore.empty, [])).1.ReportsSent
        ["e::s::1", "e::s::0"] ∧
      ((sentRequests.foldl factServer.step (TenantStore.empty, [])).1.facts.factHistory
        (sentRequests.foldl factServer.step (TenantStore.empty, [])).1.parentOf "e" "sender").map
          (fun entry => (entry.memoryId, entry.evidence)) =
        [("e::s::0", ["e::s::0", "e::s::0"])] := by
  have hregisters : EachStep factServer.step (factServer.RegistersFacts true)
      (TenantStore.empty, []) sentRequests :=
    EachStep.cons_iff.mpr ⟨by decide +kernel, EachStep.cons_iff.mpr ⟨by decide +kernel, .nil⟩⟩
  have halone : EachStep factServer.step factServer.ChunksStateAlone (TenantStore.empty, [])
      sentRequests :=
    EachStep.cons_iff.mpr ⟨by decide +kernel, EachStep.cons_iff.mpr ⟨by decide +kernel, .nil⟩⟩
  have hsent : sentIds (sentRequests.foldl factServer.step (TenantStore.empty, [])).2 =
      ["e::s::1", "e::s::0"] := by
    decide +kernel
  refine ⟨?_, by decide +kernel⟩
  rw [← hsent]
  exact reportsSent_of_run factServer true sentRequests hregisters halone

/-- The relation of a mail is stated by a companion of each of its chunks, and reported under the
identifiers of the chunks. -/
theorem related_chunks_reported :
    ¬ ∀ (server : IngestServer ℚ (Hnsw.exact (List ℚ)))
      (requests : List (IngestRequest (Hnsw.exact (List ℚ)))),
      EachStep server.step (server.RegistersFacts true) (TenantStore.empty, []) requests →
        (requests.foldl server.step (TenantStore.empty, [])).1.ReportsSent
          (sentIds (requests.foldl server.step (TenantStore.empty, [])).2) := by
  intro hclaim
  have hmail := (hclaim factServer
    [stating { sentMail with relations := [("Ann", "likes", "tea")] }
      [likesTea "e::s::0::c0::rel0", likesTea "e::s::0::c1::rel0"]]
    (EachStep.cons_iff.mpr ⟨by decide +kernel, .nil⟩)).history "e" "relation_likes"
  revert hmail
  decide +kernel

end Tellodb
