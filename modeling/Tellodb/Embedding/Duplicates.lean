import Tellodb.Embedding.Observations

/-!
# Duplicates

When `build_observations` drops a fact or a decision. Its embedding is compared with the stored
vectors of its entity and with those of the batch before it. Both may be the memory's own: an edited
memory is similar to what it was, and so it is dropped in favour of its own earlier version, unless
another memory is as similar (`drops_only_rivals_iff`). -/

namespace Tellodb

open Relational

/-! ## Memories as similar -/

section

variable {γ V : Type} {H : Hnsw γ} (R : ObservationRules V H)

/-- The embeddings that are left after some payloads. -/
def leftEmbeddings (payloads : List IngestPayload) (embeddings : List (List ℚ)) : List (List ℚ) :=
  payloads.foldl (fun embeddings payload => (nextEmbedding payload embeddings).2) embeddings

/-- The payloads of a batch, each with the embedding that it takes. -/
def withEmbeddings : List IngestPayload → List (List ℚ) → List (IngestPayload × List ℚ)
  | [], _ => []
  | payload :: rest, embeddings => (payload, takenEmbedding R payload embeddings) ::
    withEmbeddings rest (nextEmbedding payload embeddings).2

/-- A memory of the batch is of the entity and as similar as the threshold. -/
def SimilarTo (x y : IngestPayload × List ℚ) : Prop :=
  y.1.entityId = x.1.entityId ∧ duplicateThreshold ≤ R.cosineSimilarity y.2 x.2

/-- A different memory of the entity, stored or earlier in the batch, is as similar as the
threshold. -/
def Rival (S : TenantStore) (before : List (IngestPayload × List ℚ)) (x : IngestPayload × List ℚ) :
    Prop :=
  (∃ v ∈ S.vectorLookup.rows, v.entityId = x.1.entityId ∧ v.memoryId ≠ x.1.memoryId ∧
      duplicateThreshold ≤
        1 - R.vectors.distance (R.vectors.storedSimilarity x.2 v.embedding)) ∨
    ∃ y ∈ before, y.1.memoryId ≠ x.1.memoryId ∧ SimilarTo R x y

variable [LinearOrder V] (S : TenantStore) (index : VectorIndex H)

/-- What the search for the duplicates of a payload finds. -/
def candidates (x : IngestPayload × List ℚ) : Except String (List (ℕ × ℚ)) :=
  (index.search R.vectors R.graphSearch S (some x.1.entityId) x.2 5).1

/-- A memory that is found by the search is as similar as the threshold. -/
def isStoredDuplicate (x : IngestPayload × List ℚ) : Bool :=
  ((candidates R S index x).toOption.getD []).any fun hit => duplicateThreshold ≤ 1 - hit.2

/-- The payloads of a batch that are checked and have no duplicate, stored or before them. -/
def admitted (rows : List (IngestPayload × List ℚ)) : List (IngestPayload × List ℚ) :=
  rows.foldl (fun seen x =>
    if checksDuplicates R x.1 && !(isStoredDuplicate R S index x ||
        isSeen R (seen.map fun y => (y.1.entityId, y.2)) x.1.entityId x.2) then seen ++ [x]
    else seen) []

/-- An earlier version of a memory is as similar as the threshold: its own stored vector is among
those that the search finds, or it came earlier in the batch and was admitted. -/
def OwnVersion (before : List (IngestPayload × List ℚ)) (x : IngestPayload × List ℚ) : Prop :=
  (∃ hit ∈ (candidates R S index x).toOption.getD [], duplicateThreshold ≤ 1 - hit.2 ∧
      ∃ v ∈ S.vectorLookup.rows, v.vectorId = hit.1 ∧ v.memoryId = x.1.memoryId) ∨
    ∃ y ∈ admitted R S index before, y.1.memoryId = x.1.memoryId ∧ SimilarTo R x y

/-- A payload is dropped after some others. -/
def Drops (s : ObservationState H) (before : List IngestPayload) (payload : IngestPayload) : Prop :=
  ∃ records s₁ s₂, buildObservations R S s before = .ok (records, s₁) ∧
    observe R S s₁ payload = .ok (none, s₂)

instance (before : List (IngestPayload × List ℚ)) (x : IngestPayload × List ℚ) :
    Decidable (Rival R S before x) :=
  inferInstanceAs (Decidable ((∃ v ∈ S.vectorLookup.rows, _ ∧ _ ∧ _) ∨ ∃ y ∈ before, _ ∧ _ ∧ _))

/-! ## Runs -/

/-- Where `build_observations` is after some payloads. -/
structure ReachedAfter (before : List (IngestPayload × List ℚ)) (s : ObservationState H) :
    Prop where
  seen : s.semanticSeen = (admitted R S index before).map fun y => (y.1.entityId, y.2)
  search : ∀ x, candidates R S s.index x = candidates R S index x

end

section

variable {γ V : Type} {H : Hnsw γ} {R : ObservationRules V H}

/-- The embeddings are handed out in order. -/
theorem withEmbeddings_append (before after : List IngestPayload) (embeddings : List (List ℚ)) :
    withEmbeddings R (before ++ after) embeddings = withEmbeddings R before embeddings ++
      withEmbeddings R after (leftEmbeddings before embeddings) := by
  induction before generalizing embeddings with
  | nil => rfl
  | cons payload rest ih =>
    rw [List.cons_append, withEmbeddings, ih]
    rfl

/-- Every payload gets one, in its place. -/
theorem map_fst_withEmbeddings (payloads : List IngestPayload) (embeddings : List (List ℚ)) :
    (withEmbeddings R payloads embeddings).map Prod.fst = payloads := by
  induction payloads generalizing embeddings with
  | nil => rfl
  | cons payload rest ih => rw [withEmbeddings, List.map_cons, ih]

/-- A payload of the batch takes the embedding that is next after those before it. -/
theorem withEmbeddings_split {payloads : List IngestPayload} {embeddings : List (List ℚ)}
    {before after : List (IngestPayload × List ℚ)} {x : IngestPayload × List ℚ}
    (h : withEmbeddings R payloads embeddings = before ++ x :: after) :
    payloads = before.map Prod.fst ++ x.1 :: after.map Prod.fst ∧
      before = withEmbeddings R (before.map Prod.fst) embeddings ∧
      x.2 = takenEmbedding R x.1 (leftEmbeddings (before.map Prod.fst) embeddings) := by
  have hpayloads : payloads = before.map Prod.fst ++ x.1 :: after.map Prod.fst := by
    rw [← map_fst_withEmbeddings (R := R) payloads embeddings, h, List.map_append, List.map_cons]
  refine ⟨hpayloads, ?_⟩
  rw [hpayloads, withEmbeddings_append, withEmbeddings] at h
  have hlength : (withEmbeddings R (before.map Prod.fst) embeddings).length = before.length := by
    rw [← List.length_map (f := Prod.fst), map_fst_withEmbeddings, List.length_map]
  obtain ⟨hbefore, hrest⟩ := List.append_inj h hlength
  exact ⟨hbefore.symm, (congrArg Prod.snd (List.cons.inj hrest).1).symm⟩

variable [LinearOrder V] {S : TenantStore} {index : VectorIndex H} {s s' : ObservationState H}

/-- One more payload is admitted unless it is checked and a duplicate of a stored memory or of one
that was admitted before. -/
theorem admitted_concat (before : List (IngestPayload × List ℚ)) (x : IngestPayload × List ℚ) :
    admitted R S index (before ++ [x]) =
      if checksDuplicates R x.1 && !(isStoredDuplicate R S index x ||
        isSeen R ((admitted R S index before).map fun y => (y.1.entityId, y.2)) x.1.entityId x.2)
      then admitted R S index before ++ [x] else admitted R S index before := by
  unfold admitted
  rw [List.foldl_append]
  rfl

/-- The payloads that are admitted are of the batch. -/
theorem admitted_subset (before : List (IngestPayload × List ℚ)) :
    admitted R S index before ⊆ before := by
  induction before using List.reverseRecOn with
  | nil => exact fun _ h => h
  | append_singleton before x ih =>
    rw [admitted_concat]
    split
    · exact List.append_subset.mpr
        ⟨fun y hy => List.mem_append_left _ (ih hy), List.subset_append_right _ _⟩
    · exact fun y hy => List.mem_append_left _ (ih hy)

/-- The search for duplicates finds what it finds in the index as it was. -/
theorem isSemanticDuplicate_ok {before : List (IngestPayload × List ℚ)}
    (hs : ReachedAfter R S index before s) {x : IngestPayload × List ℚ} {dup : Bool}
    (h : (isSemanticDuplicate R S s.index x.1.entityId x.2 duplicateThreshold).1 = .ok dup) :
    dup = isStoredDuplicate R S index x := by
  have hsearch := hs.search x
  unfold isSemanticDuplicate at h
  unfold candidates at hsearch
  dsimp only at h
  rw [hsearch] at h
  unfold isStoredDuplicate candidates
  cases hfound : (index.search R.vectors R.graphSearch S (some x.1.entityId) x.2 5).1 with
  | error e =>
    rw [hfound] at h
    exact absurd h (by simp [Except.map])
  | ok hits =>
    rw [hfound] at h
    exact (Except.ok.inj h).symm

/-- The index after the search for duplicates gives the same results. -/
theorem candidates_after (index : VectorIndex H) (entityId : String) (embedding : List ℚ)
    (x : IngestPayload × List ℚ) :
    candidates R S (isSemanticDuplicate R S index entityId embedding duplicateThreshold).2 x =
      candidates R S index x := by
  unfold isSemanticDuplicate candidates
  dsimp only
  rcases search_index R.vectors R.graphSearch index S entityId embedding 5 with hsame | hloaded
  · rw [hsame]
  · rw [hloaded, search_load]

/-- Before the first payload. -/
theorem reachedAfter_nil (embeddings : List (List ℚ)) :
    ReachedAfter R S index [] ⟨embeddings, [], index⟩ :=
  ⟨rfl, fun _ => rfl⟩

/-- A payload is observed where those before it leave. -/
theorem ReachedAfter.observe {before : List (IngestPayload × List ℚ)}
    (hs : ReachedAfter R S index before s) {payload : IngestPayload}
    {record : Option PreparedRecord} (h : observe R S s payload = .ok (record, s')) :
    ReachedAfter R S index
      (before ++ [(payload, takenEmbedding R payload s.semanticEmbeddings)]) s' := by
  obtain ⟨-, hcases⟩ := observe_cases h
  rcases hcases with ⟨hchecks, -, hseen, hindex⟩ | ⟨hchecks, dup, hdup, hindex, hdecided⟩
  · refine ⟨?_, fun x => by rw [hindex]; exact hs.search x⟩
    rw [hseen, hs.seen, admitted_concat, hchecks]
    rfl
  · have hstored := isSemanticDuplicate_ok
      (x := (payload, takenEmbedding R payload s.semanticEmbeddings)) hs hdup
    refine ⟨?_, fun x => by rw [hindex, candidates_after]; exact hs.search x⟩
    rw [admitted_concat, hchecks, Bool.true_and, ← hstored, ← hs.seen]
    rcases hdecided with ⟨hduplicate, -, hseen⟩ | ⟨hnew, -, hseen⟩
    · rw [hduplicate, hseen, hs.seen]
      rfl
    · rw [hnew, hseen, hs.seen, Bool.not_false, if_pos rfl, List.map_append]
      rfl

/-- Payloads are observed one after the other. -/
theorem ReachedAfter.run {before : List (IngestPayload × List ℚ)}
    (hs : ReachedAfter R S index before s) {payloads : List IngestPayload}
    {records : List PreparedRecord} (h : buildObservations R S s payloads = .ok (records, s')) :
    ReachedAfter R S index (before ++ withEmbeddings R payloads s.semanticEmbeddings) s' ∧
      s'.semanticEmbeddings = leftEmbeddings payloads s.semanticEmbeddings := by
  induction payloads generalizing before s records with
  | nil =>
    obtain ⟨-, rfl⟩ := Prod.mk.inj (Except.ok.inj h)
    rw [withEmbeddings, List.append_nil]
    exact ⟨hs, rfl⟩
  | cons payload rest ih =>
    obtain ⟨record, s₁, more, hobserve, hrest, -⟩ := buildObservations_cons h
    obtain ⟨hreached, hleft⟩ := ih (hs.observe hobserve) hrest
    have hembeddings := (observe_cases hobserve).1
    rw [hembeddings, List.append_assoc] at hreached
    rw [hembeddings] at hleft
    exact ⟨hreached, hleft⟩

/-- A batch that is observed to its end is observed up to each of its payloads. -/
theorem buildObservations_split {before after : List IngestPayload} {payload : IngestPayload}
    {records : List PreparedRecord}
    (h : buildObservations R S s (before ++ payload :: after) = .ok (records, s')) :
    ∃ records₁ s₁ record s₂, buildObservations R S s before = .ok (records₁, s₁) ∧
      observe R S s₁ payload = .ok (record, s₂) := by
  induction before generalizing s records with
  | nil =>
    obtain ⟨record, s₁, -, hobserve, -⟩ := buildObservations_cons h
    exact ⟨[], s, record, s₁, rfl, hobserve⟩
  | cons first rest ih =>
    obtain ⟨record, s₁, more, hfirst, hmore, -⟩ := buildObservations_cons h
    obtain ⟨records₁, s₂, record₂, s₃, hbefore, hobserve⟩ := ih hmore
    refine ⟨record.toList ++ records₁, s₂, record₂, s₃, ?_, hobserve⟩
    rw [buildObservations, hfirst]
    dsimp only
    rw [hbefore]

/-- A payload that is checked is dropped if its search or the batch before it has a memory that is
as similar. -/
theorem drops_iff {before : List (IngestPayload × List ℚ)} {x : IngestPayload × List ℚ}
    {after : List (IngestPayload × List ℚ)} {payloads : List IngestPayload}
    {embeddings : List (List ℚ)} {records : List PreparedRecord}
    (h : buildObservations R S ⟨embeddings, [], index⟩ payloads = .ok (records, s'))
    (hsplit : withEmbeddings R payloads embeddings = before ++ x :: after) :
    Drops R S ⟨embeddings, [], index⟩ (before.map Prod.fst) x.1 ↔
      checksDuplicates R x.1 = true ∧ (isStoredDuplicate R S index x = true ∨
        isSeen R ((admitted R S index before).map fun y => (y.1.entityId, y.2)) x.1.entityId x.2 =
          true) := by
  obtain ⟨hpayloads, hbefore, hx⟩ := withEmbeddings_split hsplit
  rw [hpayloads] at h
  obtain ⟨records₁, s₁, record, s₂, hrun, hobserve⟩ := buildObservations_split h
  -- The loop reaches the record with what it has admitted so far.
  have hnone : ReachedAfter R S index [] ⟨embeddings, [], index⟩ := reachedAfter_nil embeddings
  obtain ⟨hreached, hleft⟩ := hnone.run hrun
  rw [List.nil_append, ← hbefore] at hreached
  rw [← hleft] at hx
  have hdrops : Drops R S ⟨embeddings, [], index⟩ (before.map Prod.fst) x.1 ↔ record = none := by
    constructor
    · rintro ⟨records', s₁', s₂', hrun', hobserve'⟩
      rw [hrun] at hrun'
      obtain ⟨-, rfl⟩ := Prod.mk.inj (Except.ok.inj hrun')
      rw [hobserve] at hobserve'
      exact (Prod.mk.inj (Except.ok.inj hobserve')).1
    · rintro rfl
      exact ⟨records₁, s₁, s₂, hrun, hobserve⟩
  obtain ⟨-, hcases⟩ := observe_cases hobserve
  rw [hdrops]
  -- The record is dropped if the checks are made and find a duplicate.
  rcases hcases with ⟨hchecks, rfl, -⟩ | ⟨hchecks, dup, hdup, -, hdecided⟩
  · rw [hchecks]
    simp
  · rw [← hx] at hdup hdecided
    have hstored := isSemanticDuplicate_ok hreached hdup
    rw [hstored, hreached.seen] at hdecided
    rcases hdecided with ⟨hduplicate, rfl, -⟩ | ⟨hnew, rfl, -⟩
    · exact iff_of_true rfl ⟨hchecks, Bool.or_eq_true_iff.mp hduplicate⟩
    · refine iff_of_false (by simp) fun hfound => ?_
      rw [Bool.or_eq_true_iff.mpr hfound.2] at hnew
      exact absurd hnew (by simp)

/-- An earlier version, or a different memory that is as similar: what the search and the batch have
is one of the two. -/
theorem own_or_rival (hfinds : FindsHeld R.vectors R.graphSearch)
    (hmirrors : index.Mirrors R.vectors.toVectorConfig S)
    {before : List (IngestPayload × List ℚ)} {x : IngestPayload × List ℚ}
    (h : isStoredDuplicate R S index x = true ∨
      isSeen R ((admitted R S index before).map fun y => (y.1.entityId, y.2)) x.1.entityId x.2 =
        true) : OwnVersion R S index before x ∨ Rival R S before x := by
  -- The duplicate is stored or of the batch, and has the same identifier or another one.
  rcases h with hstored | hseen
  · obtain ⟨hit, hhit, hsimilar⟩ := List.any_eq_true.mp hstored
    cases hfound : candidates R S index x with
    | error e =>
      rw [hfound] at hhit
      exact absurd hhit List.not_mem_nil
    | ok hits =>
      rw [hfound] at hhit
      obtain ⟨v, hv, hid, hentity, hdistance⟩ := stored_of_hit hmirrors hfinds hfound hhit
      by_cases hmemory : v.memoryId = x.1.memoryId
      · refine .inl (.inl ⟨hit, ?_, of_decide_eq_true hsimilar, v, hv, hid, hmemory⟩)
        rw [hfound]
        exact hhit
      · refine .inr (.inl ⟨v, hv, hentity, hmemory, ?_⟩)
        rw [← hdistance]
        exact of_decide_eq_true hsimilar
  · obtain ⟨prior, hprior, hsimilar⟩ := List.any_eq_true.mp hseen
    obtain ⟨y, hy, rfl⟩ := List.mem_map.mp hprior
    obtain ⟨hentity, hcosine⟩ := Bool.and_eq_true_iff.mp hsimilar
    have hsame : SimilarTo R x y := ⟨of_decide_eq_true hentity, of_decide_eq_true hcosine⟩
    by_cases hmemory : y.1.memoryId = x.1.memoryId
    · exact .inl (.inr ⟨y, hy, hmemory, hsame⟩)
    · exact .inr (.inr ⟨y, admitted_subset before hy, hmemory, hsame⟩)

/-- A payload with an earlier version that is as similar is taken for a duplicate. -/
theorem duplicate_of_own {before : List (IngestPayload × List ℚ)} {x : IngestPayload × List ℚ}
    (h : OwnVersion R S index before x) : isStoredDuplicate R S index x = true ∨
      isSeen R ((admitted R S index before).map fun y => (y.1.entityId, y.2)) x.1.entityId x.2 =
        true := by
  rcases h with ⟨hit, hhit, hsimilar, -⟩ | ⟨y, hy, -, hentity, hcosine⟩
  · exact .inl (List.any_eq_true.mpr ⟨hit, hhit, decide_eq_true hsimilar⟩)
  · exact .inr (List.any_eq_true.mpr ⟨_, List.mem_map_of_mem hy,
      Bool.and_eq_true_iff.mpr ⟨decide_eq_true hentity, decide_eq_true hcosine⟩⟩)

end

/-- For every batch that is observed to its end: a payload is dropped only when a different memory
of its entity, stored or earlier in the batch, is as similar as the threshold, exactly if that is so
of each payload that is checked and has an earlier version as similar. -/
theorem drops_only_rivals_iff {γ V : Type} [LinearOrder V] {H : Hnsw γ} (R : ObservationRules V H)
    (S : TenantStore) (index : VectorIndex H) (hfinds : FindsHeld R.vectors R.graphSearch)
    (hmirrors : index.Mirrors R.vectors.toVectorConfig S) {payloads : List IngestPayload}
    {embeddings : List (List ℚ)} {records : List PreparedRecord} {s : ObservationState H}
    (h : buildObservations R S ⟨embeddings, [], index⟩ payloads = .ok (records, s)) :
    (∀ before x after, withEmbeddings R payloads embeddings = before ++ x :: after →
        Drops R S ⟨embeddings, [], index⟩ (before.map Prod.fst) x.1 → Rival R S before x) ↔
      ∀ before x after, withEmbeddings R payloads embeddings = before ++ x :: after →
        checksDuplicates R x.1 = true → OwnVersion R S index before x → Rival R S before x := by
  constructor
  · intro hclaim before x after hsplit hchecks hown
    exact hclaim before x after hsplit
      ((drops_iff h hsplit).mpr ⟨hchecks, duplicate_of_own hown⟩)
  · intro hcond before x after hsplit hdrops
    obtain ⟨hchecks, hfound⟩ := (drops_iff h hsplit).mp hdrops
    rcases own_or_rival hfinds hmirrors hfound with hown | hrival
    · exact hcond before x after hsplit hchecks hown
    · exact hrival

/-! ## An edited memory -/

/-- A fact that is stored with its vector. -/
private def storedFact : TenantStore :=
  (insertObservationsTx 0 TenantStore.empty
    [(0, "e::s::0", observation plainRules (said "e::s::0" "fact" "tea" none) [1, 0])]).1

/-- The only row of a list. -/
private theorem eq_of_singleton {α : Type} {a x : α} {before after : List α}
    (h : [a] = before ++ x :: after) : before = [] ∧ x = a := by
  cases before with
  | nil => exact ⟨rfl, (List.cons.inj h).1.symm⟩
  | cons b before => exact absurd (congrArg List.length h) (by simp)

/-- The rules of the example find every vector that is held. -/
private theorem plainRules_findsHeld : FindsHeld plainRules.vectors plainRules.graphSearch :=
  fun _ _ _ _ h => absurd h List.not_mem_nil

/-- A batch of one payload that goes through has its records. -/
private theorem observed_one (payload : IngestPayload)
    (hok : (buildObservations plainRules storedFact ⟨[[1, 0]], [], .new _⟩ [payload]).isOk = true) :
    ∃ records s, buildObservations plainRules storedFact ⟨[[1, 0]], [], .new _⟩ [payload] =
      .ok (records, s) := by
  cases h : buildObservations plainRules storedFact ⟨[[1, 0]], [], .new _⟩ [payload] with
  | error e =>
    rw [h] at hok
    exact absurd hok Bool.false_ne_true
  | ok result => exact ⟨result.1, result.2, rfl⟩

/-- Another memory with the same embedding is dropped. -/
theorem drops_only_rivals_another :
    ∃ records s, buildObservations plainRules storedFact ⟨[[1, 0]], [], .new _⟩
        [said "e::s::1" "fact" "tea" none] = .ok (records, s) ∧
      ∀ before x after, withEmbeddings plainRules [said "e::s::1" "fact" "tea" none] [[1, 0]] =
          before ++ x :: after →
        Drops plainRules storedFact ⟨[[1, 0]], [], .new _⟩ (before.map Prod.fst) x.1 →
          Rival plainRules storedFact before x := by
  obtain ⟨records, s, h⟩ := observed_one (said "e::s::1" "fact" "tea" none) (by decide +kernel)
  refine ⟨records, s, h, (drops_only_rivals_iff plainRules storedFact (.new _)
    plainRules_findsHeld (VectorIndex.mirrors_new _ _ _) h).mpr ?_⟩
  intro before x after hsplit _ _
  obtain ⟨rfl, rfl⟩ :=
    eq_of_singleton (a := (said "e::s::1" "fact" "tea" none, [1, 0])) hsplit
  decide +kernel

/-- A memory that is edited is dropped. -/
theorem edited_dropped :
    ¬ ∀ (R : ObservationRules ℚ (Hnsw.exact (List ℚ))) (S : TenantStore)
      (index : VectorIndex (Hnsw.exact (List ℚ))) (payloads : List IngestPayload)
      (embeddings : List (List ℚ)) (records : List PreparedRecord)
      (s : ObservationState (Hnsw.exact (List ℚ))), FindsHeld R.vectors R.graphSearch →
        index.Mirrors R.vectors.toVectorConfig S →
          buildObservations R S ⟨embeddings, [], index⟩ payloads = .ok (records, s) →
            ∀ before x after, withEmbeddings R payloads embeddings = before ++ x :: after →
              Drops R S ⟨embeddings, [], index⟩ (before.map Prod.fst) x.1 →
                Rival R S before x := by
  intro hclaim
  obtain ⟨records, s, h⟩ := observed_one (said "e::s::0" "fact" "green tea" none)
    (by decide +kernel)
  have hrival := hclaim plainRules storedFact (.new _) _ _ records s plainRules_findsHeld
    (VectorIndex.mirrors_new _ _ _) h [] (said "e::s::0" "fact" "green tea" none, [1, 0]) [] rfl
    ((drops_iff h rfl).mpr ⟨by decide +kernel, .inl (by decide +kernel)⟩)
  exact absurd hrival (by decide +kernel)

end Tellodb
