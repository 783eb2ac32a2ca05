import Tellodb.Collections.Gathered
import Tellodb.Collections.Chunks
import Tellodb.Relational.Loop
import Tellodb.Storage.Reads
import Tellodb.Storage.Steps
import Tellodb.Vectors.Search

/-!
# The search that is widened

The loop of `retrieval_ann` in `query/retrieve.rs` for a query with an entity. It searches for more
and more vectors until it has enough, and gathers the memories of those that it has not seen. Every
search has what the one before it had (`searchHits_subset`), so that the memories are those of one
search for as many as the last round asked for (`widened_exact`). -/

namespace Tellodb

open Relational Collections

/-! ## The loop -/

/-- `RetrievalConfig`, what the loop reads of it. -/
structure RetrievalConfig where
  scopedSemanticStart : ℕ
  scopedSemanticStep : ℕ
  scopedMinHits : Option ℕ
  scopedStopMaxAttempts : ℕ
  scopedStopMinSimilarity : ℚ
  scopedStopMaxHitGain : ℕ
  scopedStopMinSimilarityGain : ℚ

/-- Computations with numbers of `f32`, other than `NaN`. -/
structure DistanceRules (D : Type) where
  /-- `cosine_similarity_from_distance` -/
  similarity : D → ℚ
  /-- `(current - previous).abs()` -/
  gain : ℚ → ℚ → ℚ

/-- `RankedItem` -/
structure RankedItem where
  memoryId : String
  timestamp : UInt64
  deriving DecidableEq

/-- What the thread of one embedding has of the query. -/
structure ScopedQuery where
  retrieval : RetrievalConfig
  entityId : String
  embedding : List ℚ
  semanticTop : ℕ
  queryLimit : ℕ
  pointInTimeMs : Option UInt64
  knownAsOfMs : Option UInt64
  /-- It is a `usize`. -/
  semanticTop_le : semanticTop ≤ usizeMax

/-- `NEURAL_TOP` -/
def neuralTop : ℕ := 25

/-- `MIN_HIT_SIMILARITY`: the number of `f32` next to `0.30`. -/
def minHitSimilarity : ℚ := 10066330 / 2^25

/-- `scoped_semantic_start` -/
def scopedSemanticStart (config : RetrievalConfig) (maxTop : ℕ) : ℕ :=
  min config.scopedSemanticStart maxTop

/-- `scoped_semantic_min_hits` -/
def scopedSemanticMinHits (config : RetrievalConfig) (limit maxTop : ℕ) : ℕ :=
  min (config.scopedMinHits.getD (max (min (limit * 2) usizeMax) 24)) maxTop

/-- `ScopedAnnState` -/
structure ScopedAnnState where
  attempt : ℕ
  currentTop : ℕ
  maxTop : ℕ
  hitCount : ℕ
  minHits : ℕ
  topSimilarity : Option ℚ
  prevHitCount : Option ℕ
  prevTopSimilarity : Option ℚ

/-- What the loop carries from round to round. -/
structure ScopedLoop {γ : Type} (H : Hnsw γ) where
  currentTop : ℕ
  attempts : ℕ
  prevHitCount : Option ℕ
  prevTopSimilarity : Option ℚ
  seenVectorIds : List ℕ
  /-- `cumulative_hnsw_hits`, each with its vector. -/
  hits : List (ℕ × RankedItem)
  rerankSeedIds : List String
  localCache : ℕ → Option (Option (UInt64 × String))
  /-- The index of the tenant, which loads the segment of the entity when it is first searched. -/
  index : VectorIndex H

/-- What the loop ends with. -/
structure ScopedResult (D : Type) where
  /-- `hnsw_hits`, each with its vector. -/
  hits : List (ℕ × RankedItem)
  rerankSeedIds : List String
  searchAttempts : ℕ
  searchTop : ℕ
  hnswRaw : List (ℕ × D)

/-- What the hits of a round are put together in. -/
structure ScopedVisit where
  seenVectorIds : List ℕ
  hits : List (ℕ × RankedItem)
  rerankSeedIds : List String
  newHits : ℕ
  topSimilarity : Option ℚ

section

variable {D : Type} (R : DistanceRules D)

/-- `should_stop_scoped_ann` -/
def shouldStopScopedAnn (config : RetrievalConfig) (state : ScopedAnnState) : Bool :=
  if state.maxTop ≤ state.currentTop ∨ config.scopedStopMaxAttempts ≤ state.attempt then true
  else if state.hitCount < state.minHits then false
  else if !state.topSimilarity.any fun sim => config.scopedStopMinSimilarity ≤ sim then false
  else
    match state.prevHitCount with
    | none => false
    | some prevHits =>
      decide (state.hitCount - prevHits ≤ config.scopedStopMaxHitGain) ||
        match state.topSimilarity, state.prevTopSimilarity with
        | some current, some previous =>
          decide (R.gain current previous ≤ config.scopedStopMinSimilarityGain)
        | _, _ => false

/-- One hit of a round. -/
def ScopedVisit.visit (localCache : ℕ → Option (Option (UInt64 × String))) (v : ScopedVisit)
    (hit : ℕ × D) : ScopedVisit :=
  if hit.1 ∈ v.seenVectorIds then v
  else
    match (localCache hit.1).join with
    | none => { v with seenVectorIds := hit.1 :: v.seenVectorIds }
    | some found =>
      if R.similarity hit.2 < minHitSimilarity then
        { v with seenVectorIds := hit.1 :: v.seenVectorIds }
      else
        { seenVectorIds := hit.1 :: v.seenVectorIds
          hits := v.hits ++ [(hit.1, ⟨found.2, found.1⟩)]
          rerankSeedIds :=
            if v.hits.length < neuralTop then v.rerankSeedIds ++ [found.2] else v.rerankSeedIds
          newHits := v.newHits + 1
          topSimilarity := v.topSimilarity.or (some (R.similarity hit.2)) }

variable {γ V : Type} [LinearOrder V] {H : Hnsw γ} (config : SearchConfig γ V D)
  (graphSearch : H.Graph → List ℚ → ℕ → List (ℕ × V)) (S : TenantStore) (q : ScopedQuery)
  -- Whether the lookup of a round fails.
  (lookupFails : ℕ → Bool)

/-- The vectors of the entity that a search finds. A search that fails finds none. -/
def searchHits (index : VectorIndex H) (k : ℕ) : List (ℕ × D) :=
  (index.search config graphSearch S (some q.entityId) q.embedding k).1.toOption.getD []

/-- The cache after the lookup of a round: vectors that are not in it are looked up. -/
def cachedLookups (fails : Bool) (localCache : ℕ → Option (Option (UInt64 × String)))
    (raw : List (ℕ × D)) : ℕ → Option (Option (UInt64 × String)) :=
  let unresolved := (raw.map Prod.fst).filter fun vid => (localCache vid).isNone
  if fails then localCache
  else (unresolved.zip (S.lookupByVectorIdsBatchAt q.pointInTimeMs q.knownAsOfMs unresolved)).foldl
    (fun cache entry => Function.update cache entry.1 (some entry.2)) localCache

/-- A round of the loop. -/
def scopedRound (s : ScopedLoop H) : ScopedLoop H ⊕ ScopedResult D :=
  let attempts := s.attempts + 1
  let raw := searchHits config graphSearch S q s.index s.currentTop
  let index := (s.index.search config graphSearch S (some q.entityId) q.embedding s.currentTop).2
  let localCache := cachedLookups S q (lookupFails attempts) s.localCache raw
  let v := raw.foldl (ScopedVisit.visit R localCache)
    ⟨s.seenVectorIds, s.hits, s.rerankSeedIds, 0, none⟩
  let minHits := scopedSemanticMinHits q.retrieval q.queryLimit q.semanticTop
  let result : ScopedResult D := ⟨v.hits, v.rerankSeedIds, attempts, s.currentTop, raw⟩
  let nextTop := min (min (s.currentTop + q.retrieval.scopedSemanticStep) usizeMax) q.semanticTop
  if shouldStopScopedAnn R q.retrieval ⟨attempts, s.currentTop, q.semanticTop, v.hits.length,
      minHits, v.topSimilarity, s.prevHitCount, s.prevTopSimilarity⟩ ||
      (2 ≤ attempts && minHits ≤ v.hits.length && v.newHits = 0) then .inr result
  else if nextTop = s.currentTop then .inr result
  else .inl ⟨nextTop, attempts, some v.hits.length, v.topSimilarity, v.seenVectorIds, v.hits,
    v.rerankSeedIds, localCache, index⟩

/-- The loop of `retrieval_ann` for an entity, for a number of rounds at most. -/
def scopedAnn (rounds : ℕ) (index : VectorIndex H) : Option (ScopedResult D) :=
  loop (scopedRound R config graphSearch S q lookupFails) rounds
    ⟨scopedSemanticStart q.retrieval q.semanticTop, 0, none, none, [], [], [], fun _ => none, index⟩

/-! ## The statement -/

/-- The memory of a vector, if it is within the bounds in time. -/
def TenantStore.memoryOfVectorAt (vid : ℕ) : Option (UInt64 × String) :=
  ((S.vectorLookup.find? vid).filter (S.vectorInTime q.pointInTimeMs q.knownAsOfMs)).map fun v =>
    (v.timestampMs.toUInt64, v.memoryId)

/-- The memory of a vector that a search found, if it is within the bounds in time and similar
enough. -/
def acceptedItem (hit : ℕ × D) : Option RankedItem :=
  (S.memoryOfVectorAt q hit.1).bind fun found =>
    if R.similarity hit.2 < minHitSimilarity then none else some ⟨found.2, found.1⟩

/-- The memories of one search, each with its vector. -/
def singleSearch (index : VectorIndex H) (k : ℕ) : List (ℕ × RankedItem) :=
  (searchHits config graphSearch S q index k).filterMap fun hit =>
    (acceptedItem R S q hit).map fun item => (hit.1, item)

/-- How many vectors a round asks for. -/
def widenedTop : ℕ → ℕ
  | 0 => scopedSemanticStart q.retrieval q.semanticTop
  | n + 1 => min (min (widenedTop n + q.retrieval.scopedSemanticStep) usizeMax) q.semanticTop

/-- What the round before a round finds. -/
def priorHits (index : VectorIndex H) : ℕ → List (ℕ × D)
  | 0 => []
  | n + 1 => searchHits config graphSearch S q index (widenedTop q n)

/-- What a round finds and accepts that the one before it does not find. -/
def freshHits (index : VectorIndex H) (n : ℕ) : List (ℕ × D) :=
  (searchHits config graphSearch S q index (widenedTop q n)).filter fun hit =>
    hit.1 ∉ (priorHits config graphSearch S q index n).map Prod.fst &&
      (acceptedItem R S q hit).isSome

/-- The similarity of the first of these. -/
def freshSimilarity (index : VectorIndex H) (n : ℕ) : Option ℚ :=
  (freshHits R config graphSearch S q index n).head?.map fun hit => R.similarity hit.2

/-- What the stop rule is asked with after a round, in terms of single searches. -/
def singleState (index : VectorIndex H) (n : ℕ) : ScopedAnnState where
  attempt := n + 1
  currentTop := widenedTop q n
  maxTop := q.semanticTop
  hitCount := (singleSearch R config graphSearch S q index (widenedTop q n)).length
  minHits := scopedSemanticMinHits q.retrieval q.queryLimit q.semanticTop
  topSimilarity := freshSimilarity R config graphSearch S q index n
  prevHitCount := match n with
    | 0 => none
    | n + 1 => some (singleSearch R config graphSearch S q index (widenedTop q n)).length
  prevTopSimilarity := match n with
    | 0 => none
    | n + 1 => freshSimilarity R config graphSearch S q index n

/-- A round ends the loop: the stop rule says so, or it is not the first, there are enough memories
and it finds no more, or the next one would ask for as many vectors. -/
def EndsAt (index : VectorIndex H) (n : ℕ) : Prop :=
  shouldStopScopedAnn R q.retrieval (singleState R config graphSearch S q index n) = true ∨
    (1 ≤ n ∧ scopedSemanticMinHits q.retrieval q.queryLimit q.semanticTop ≤
        (singleSearch R config graphSearch S q index (widenedTop q n)).length ∧
      freshHits R config graphSearch S q index n = []) ∨
    widenedTop q (n + 1) = widenedTop q n

end

/-! ## Lookups -/

section

variable {S : TenantStore} {q : ScopedQuery}

/-- A batch of vectors is looked up one by one. -/
theorem lookupByVectorIdsBatchAt_eq (vectorIds : List ℕ) :
    S.lookupByVectorIdsBatchAt q.pointInTimeMs q.knownAsOfMs vectorIds =
      vectorIds.map (S.memoryOfVectorAt q) := by
  unfold TenantStore.lookupByVectorIdsBatchAt
  refine List.map_congr_left fun vid hvid => congrArg (Option.map _) ?_
  -- Chunk by chunk the rows of all identifiers are read.
  have hrows : ∀ v : VectorRow, v ∈ (vectorIds.toChunks inChunk).flatMap (fun chunk =>
      S.vectorLookup.rows.filter fun v =>
        decide (v.vectorId ∈ chunk) && S.vectorInTime q.pointInTimeMs q.knownAsOfMs v) ↔
      v ∈ S.vectorLookup.rows ∧ v.vectorId ∈ vectorIds ∧
        S.vectorInTime q.pointInTimeMs q.knownAsOfMs v = true := by
    intro v
    rw [List.mem_flatMap]
    simp only [List.mem_filter, Bool.and_eq_true, decide_eq_true_eq]
    constructor
    · rintro ⟨chunk, hchunk, hv, hmem, hin⟩
      refine ⟨hv, ?_, hin⟩
      rw [← flatten_toChunks inChunk vectorIds]
      exact List.mem_flatten.mpr ⟨chunk, hchunk, hmem⟩
    · rintro ⟨hv, hmem, hin⟩
      rw [← flatten_toChunks inChunk vectorIds] at hmem
      obtain ⟨chunk, hchunk, hmem⟩ := List.mem_flatten.mp hmem
      exact ⟨chunk, hchunk, hv, hmem, hin⟩
  refine Option.ext fun v => ?_
  rw [Option.filter_eq_some_iff, Table.find?_eq_some]
  constructor
  · intro hfound
    have hid : v.vectorId = vid := by
      have hfirst := List.find?_some hfound
      exact of_decide_eq_true hfirst
    obtain ⟨hv, -, hin⟩ := (hrows v).mp (List.mem_of_find?_eq_some hfound)
    exact ⟨⟨hv, hid⟩, hin⟩
  -- The row is read, so the lookup finds one.
  · rintro ⟨⟨hv, hid⟩, hin⟩
    have hmem := (hrows v).mpr ⟨hv, by rw [hid]; exact hvid, hin⟩
    cases hfound : List.find? (fun v : VectorRow => decide (v.vectorId = vid)) _ with
    | none => exact absurd (decide_eq_true hid) (List.find?_eq_none.mp hfound v hmem)
    | some w =>
      -- A vector has one row.
      have hw := (hrows w).mp (List.mem_of_find?_eq_some hfound)
      have hfirst := List.find?_some hfound
      have hwid : w.vectorId = vid := of_decide_eq_true hfirst
      rw [S.vectorLookup.keyed.eq_of_mem hw.1 hv (hwid.trans hid.symm)]

/-- The lookup of a round fills the cache with the memories of the vectors that were found. -/
theorem cachedLookups_eq {D : Type} {localCache : ℕ → Option (Option (UInt64 × String))}
    (hcached : ∀ vid found, localCache vid = some found → found = S.memoryOfVectorAt q vid)
    (raw : List (ℕ × D)) (vid : ℕ) :
    cachedLookups S q false localCache raw vid =
      if vid ∈ raw.map Prod.fst then some (S.memoryOfVectorAt q vid) else localCache vid := by
  -- Each identifier is entered with what the lookup says of it.
  have hfold : ∀ (ids : List ℕ) (cache : ℕ → Option (Option (UInt64 × String))),
      (ids.zip (ids.map (S.memoryOfVectorAt q))).foldl
        (fun (cache : ℕ → Option (Option (UInt64 × String))) entry =>
          Function.update cache entry.1 (some entry.2)) cache vid =
      if vid ∈ ids then some (S.memoryOfVectorAt q vid) else cache vid := by
    intro ids
    induction ids with
    | nil => exact fun cache => rfl
    | cons id ids ih =>
      intro cache
      rw [List.map_cons, List.zip_cons_cons, List.foldl_cons, ih]
      by_cases hmem : vid ∈ ids
      · rw [if_pos hmem, if_pos (List.mem_cons_of_mem _ hmem)]
      · rw [if_neg hmem]
        by_cases hid : vid = id
        · rw [hid, Function.update_self, if_pos List.mem_cons_self]
        · rw [Function.update_of_ne hid, if_neg (by rw [List.mem_cons, not_or]; exact ⟨hid, hmem⟩)]
  unfold cachedLookups
  rw [if_neg Bool.false_ne_true, lookupByVectorIdsBatchAt_eq, hfold]
  -- What was cached before says the same.
  by_cases hraw : vid ∈ raw.map Prod.fst
  · rw [if_pos hraw]
    cases hvid : localCache vid with
    | none => rw [if_pos (List.mem_filter.mpr ⟨hraw, by rw [hvid]; rfl⟩)]
    | some found =>
      rw [hcached vid found hvid, ite_self]
  · rw [if_neg hraw, if_neg fun h => hraw (List.mem_of_mem_filter h)]

end

/-! ## Hits -/

section

variable {D : Type} {R : DistanceRules D}

/-- A hit is absorbed. -/
theorem visit_eq_absorb (localCache : ℕ → Option (Option (UInt64 × String))) (v : ScopedVisit)
    (hit : ℕ × D) :
    ((v.visit R localCache hit).seenVectorIds, (v.visit R localCache hit).hits) =
      absorb (fun hit : ℕ × D => (localCache hit.1).join.bind fun found =>
        if R.similarity hit.2 < minHitSimilarity then none else some ⟨found.2, found.1⟩)
        (v.seenVectorIds, v.hits) hit := by
  unfold ScopedVisit.visit absorb
  by_cases hseen : hit.1 ∈ v.seenVectorIds
  · rw [if_pos hseen, if_pos hseen]
  · rw [if_neg hseen, if_neg hseen]
    cases hjoin : (localCache hit.1).join with
    | none => simp [hjoin]
    | some found =>
      by_cases hlow : R.similarity hit.2 < minHitSimilarity
      · simp [hjoin, hlow]
      · simp [hjoin, hlow]

/-- The hits of a round are absorbed, each accepted with the memory that the cache has. -/
theorem foldl_visit (raw : List (ℕ × D))
    (localCache : ℕ → Option (Option (UInt64 × String))) (v : ScopedVisit)
    {accept : ℕ × D → Option RankedItem}
    (haccept : ∀ hit ∈ raw, accept hit = (localCache hit.1).join.bind fun found =>
      if R.similarity hit.2 < minHitSimilarity then none else some ⟨found.2, found.1⟩) :
    ((raw.foldl (ScopedVisit.visit R localCache) v).seenVectorIds,
        (raw.foldl (ScopedVisit.visit R localCache) v).hits) =
      raw.foldl (absorb accept) (v.seenVectorIds, v.hits) := by
  induction raw generalizing v with
  | nil => rfl
  | cons hit raw ih =>
    have habsorb : absorb accept (v.seenVectorIds, v.hits) hit =
        ((v.visit R localCache hit).seenVectorIds, (v.visit R localCache hit).hits) := by
      rw [visit_eq_absorb]
      unfold absorb
      rw [haccept hit List.mem_cons_self]
    rw [List.foldl_cons, List.foldl_cons, habsorb]
    exact ih _ fun hit hmem => haccept hit (List.mem_cons_of_mem _ hmem)

/-- The seeds of the reranking are the first memories that were gathered. -/
def ScopedVisit.Seeded (v : ScopedVisit) : Prop :=
  v.rerankSeedIds = (v.hits.take neuralTop).map fun hit => hit.2.memoryId

/-- A hit keeps this. -/
theorem ScopedVisit.Seeded.visit {v : ScopedVisit} (h : v.Seeded)
    (localCache : ℕ → Option (Option (UInt64 × String))) (hit : ℕ × D) :
    (v.visit R localCache hit).Seeded := by
  unfold ScopedVisit.Seeded at h
  unfold ScopedVisit.visit
  split
  · exact h
  · split
    · exact h
    · rename_i found _
      split
      · exact h
      · show (if v.hits.length < neuralTop then v.rerankSeedIds ++ [found.2]
          else v.rerankSeedIds) = _
        split
        · rename_i hroom
          rw [List.take_of_length_le (by rw [List.length_append, List.length_singleton]; omega),
            List.map_append, h, List.take_of_length_le (by omega)]
          rfl
        · rename_i hfull
          rw [List.take_append_of_le_length (by omega), h]

/-- The hits of a round keep this. -/
theorem ScopedVisit.Seeded.foldl {v : ScopedVisit} (h : v.Seeded)
    (localCache : ℕ → Option (Option (UInt64 × String))) (raw : List (ℕ × D)) :
    (raw.foldl (ScopedVisit.visit R localCache) v).Seeded := by
  induction raw generalizing v with
  | nil => exact h
  | cons hit raw ih => exact ih (h.visit localCache hit)

/-- What a hit adds to the counts of a round. -/
theorem visit_counts {localCache : ℕ → Option (Option (UInt64 × String))} {hit : ℕ × D}
    {accept : ℕ × D → Option RankedItem}
    (haccept : accept hit = (localCache hit.1).join.bind fun found =>
      if R.similarity hit.2 < minHitSimilarity then none else some ⟨found.2, found.1⟩)
    (v : ScopedVisit) :
    (v.visit R localCache hit).newHits =
        v.newHits + ([hit].filter fun hit =>
          hit.1 ∉ v.seenVectorIds && (accept hit).isSome).length ∧
      (v.visit R localCache hit).topSimilarity = v.topSimilarity.or
        (([hit].filter fun hit => hit.1 ∉ v.seenVectorIds && (accept hit).isSome).head?.map
          fun hit => R.similarity hit.2) ∧
      ∀ k, k ≠ hit.1 → (k ∈ (v.visit R localCache hit).seenVectorIds ↔ k ∈ v.seenVectorIds) := by
  unfold ScopedVisit.visit
  -- A hit that was seen is passed over.
  by_cases hseen : hit.1 ∈ v.seenVectorIds
  · simp [hseen]
  · cases hjoin : (localCache hit.1).join with
    | none =>
      rw [hjoin, Option.bind_none] at haccept
      refine ⟨?_, ?_, fun k hk => ?_⟩
      · simp [hseen, haccept]
      · simp [hseen, haccept]
      · simp [hseen, hk]
    | some found =>
      rw [hjoin, Option.bind_some] at haccept
      -- A hit that is not similar enough counts as seen, and is not taken.
      by_cases hlow : R.similarity hit.2 < minHitSimilarity
      · rw [if_pos hlow] at haccept
        refine ⟨?_, ?_, fun k hk => ?_⟩
        · simp [hseen, haccept, hlow]
        · simp [hseen, haccept, hlow]
        · simp [hseen, hlow, hk]
      · rw [if_neg hlow] at haccept
        refine ⟨?_, ?_, fun k hk => ?_⟩
        · simp [hseen, haccept, hlow]
        · simp [hseen, haccept, hlow]
        · simp [hseen, hlow, hk]

/-- The counts of a round are those of the hits that are accepted and were not seen before it. -/
theorem foldl_visit_counts {raw : List (ℕ × D)} (hkeys : (raw.map Prod.fst).Nodup)
    {localCache : ℕ → Option (Option (UInt64 × String))} {accept : ℕ × D → Option RankedItem}
    (haccept : ∀ hit ∈ raw, accept hit = (localCache hit.1).join.bind fun found =>
      if R.similarity hit.2 < minHitSimilarity then none else some ⟨found.2, found.1⟩)
    (v : ScopedVisit) :
    (raw.foldl (ScopedVisit.visit R localCache) v).newHits = v.newHits + (raw.filter fun hit =>
        hit.1 ∉ v.seenVectorIds && (accept hit).isSome).length ∧
      (raw.foldl (ScopedVisit.visit R localCache) v).topSimilarity = v.topSimilarity.or
        ((raw.filter fun hit => hit.1 ∉ v.seenVectorIds && (accept hit).isSome).head?.map
          fun hit => R.similarity hit.2) := by
  induction raw generalizing v with
  | nil => simp
  | cons hit raw ih =>
    rw [List.map_cons, List.nodup_cons] at hkeys
    obtain ⟨hcount, hsimilarity, hseen⟩ := visit_counts (haccept hit List.mem_cons_self) v
    obtain ⟨ihcount, ihsimilarity⟩ := ih hkeys.2 (fun other hother =>
      haccept other (List.mem_cons_of_mem _ hother)) (v.visit R localCache hit)
    -- The hits that come later are of other vectors.
    have hlater : (raw.filter fun other => other.1 ∉ (v.visit R localCache hit).seenVectorIds &&
        (accept other).isSome) = raw.filter fun other => other.1 ∉ v.seenVectorIds &&
          (accept other).isSome := by
      refine List.filter_congr fun other hother => ?_
      have hne : other.1 ≠ hit.1 := fun hsame =>
        hkeys.1 (hsame ▸ List.mem_map_of_mem hother)
      simp only [hseen other.1 hne]
    rw [hlater, hcount] at ihcount
    rw [hlater, hsimilarity, Option.or_assoc] at ihsimilarity
    rw [List.foldl_cons, ← List.singleton_append, List.filter_append]
    refine ⟨?_, ?_⟩
    · rw [ihcount, List.length_append, Nat.add_assoc]
    · rw [ihsimilarity, List.head?_append, Option.map_or]

end

/-! ## Searches -/

section

variable {γ V D : Type} [LinearOrder V] {H : Hnsw γ} {config : SearchConfig γ V D}
  {graphSearch : H.Graph → List ℚ → ℕ → List (ℕ × V)} {S : TenantStore} {q : ScopedQuery}
  {index : VectorIndex H}

/-- The hits of a search of a flat segment are those of its scan. -/
theorem searchHits_perm {s : FlatSegment γ} (hexact : config.isExact = true)
    (hflat : (index.load config.toVectorConfig q.entityId (S.entityVectors q.entityId)).segments
      q.entityId = some (.flat s)) (hquery : q.embedding.length = config.dimensions) (k : ℕ) :
    (searchHits config graphSearch S q index k).Perm
      ((s.scan (config.similarity q.embedding) k).map fun hit =>
        (hit.1, config.distance hit.2)) := by
  unfold searchHits
  rw [search_of_flat graphSearch hexact hquery hflat]
  refine List.Perm.map _ ?_
  rw [List.take_of_length_le]
  · exact orderBy_perm _ _
  · rw [(orderBy_perm _ _).length_eq]
    unfold FlatSegment.scan
    rw [List.length_map]
    exact List.length_take_le _ _

/-- A query of another dimension has no hits. -/
theorem searchHits_of_dimension (hquery : q.embedding.length ≠ config.dimensions) (k : ℕ) :
    searchHits config graphSearch S q index k = [] := by
  unfold searchHits VectorIndex.search
  rw [if_pos hquery]
  rfl

/-- A search for more vectors has the hits of one for fewer. -/
theorem searchHits_subset {s : FlatSegment γ} (hexact : config.isExact = true)
    (hflat : (index.load config.toVectorConfig q.entityId (S.entityVectors q.entityId)).segments
      q.entityId = some (.flat s)) {k k' : ℕ} (h : k ≤ k') :
    searchHits config graphSearch S q index k ⊆ searchHits config graphSearch S q index k' := by
  by_cases hquery : q.embedding.length = config.dimensions
  · intro hit hhit
    have hscan := (searchHits_perm hexact hflat hquery k).subset hhit
    refine (searchHits_perm hexact hflat hquery k').symm.subset ?_
    obtain ⟨row, hrow, rfl⟩ := List.mem_map.mp hscan
    exact List.mem_map_of_mem (s.scan_subset _ h hrow)
  · rw [searchHits_of_dimension hquery]
    exact List.nil_subset _

/-- A search has no vector twice. -/
theorem nodup_searchHits {s : FlatSegment γ} (hexact : config.isExact = true)
    (hflat : (index.load config.toVectorConfig q.entityId (S.entityVectors q.entityId)).segments
      q.entityId = some (.flat s)) (k : ℕ) :
    ((searchHits config graphSearch S q index k).map Prod.fst).Nodup := by
  by_cases hquery : q.embedding.length = config.dimensions
  · rw [((searchHits_perm hexact hflat hquery k).map Prod.fst).nodup_iff, List.map_map]
    exact s.nodup_scan _ k
  · rw [searchHits_of_dimension hquery]
    exact List.nodup_nil

end

/-! ## Rounds -/

section

variable {γ V D : Type} [LinearOrder V] {H : Hnsw γ} {R : DistanceRules D}
  {config : SearchConfig γ V D} {graphSearch : H.Graph → List ℚ → ℕ → List (ℕ × V)}
  {S : TenantStore} {q : ScopedQuery} {lookupFails : ℕ → Bool} {index : VectorIndex H}

/-- Before a round: searches are as they were before the loop, the cache is true, what was gathered
is what one search of the round before finds, and no round before has ended the loop. -/
structure ScopedLoop.Sound (R : DistanceRules D) (config : SearchConfig γ V D)
    (graphSearch : H.Graph → List ℚ → ℕ → List (ℕ × V)) (S : TenantStore) (q : ScopedQuery)
    (index : VectorIndex H) (n : ℕ) (s : ScopedLoop H) : Prop where
  attempts : s.attempts = n
  top : s.currentTop = widenedTop q n
  prevHitCount : s.prevHitCount = (singleState R config graphSearch S q index n).prevHitCount
  prevTopSimilarity : s.prevTopSimilarity =
    (singleState R config graphSearch S q index n).prevTopSimilarity
  search_eq : ∀ k, (s.index.search config graphSearch S (some q.entityId) q.embedding k).1 =
    (index.search config graphSearch S (some q.entityId) q.embedding k).1
  cached : ∀ vid found, s.localCache vid = some found → found = S.memoryOfVectorAt q vid
  gathered : Gathered (acceptedItem R S q) (s.seenVectorIds, s.hits)
    (priorHits config graphSearch S q index n)
  seeded : s.rerankSeedIds = (s.hits.take neuralTop).map fun hit => hit.2.memoryId
  goesOn : ∀ m < n, ¬ EndsAt R config graphSearch S q index m

/-- No round asks for more than the query may, and none for less than the first. -/
theorem widenedTop_bounds (q : ScopedQuery) (n : ℕ) :
    scopedSemanticStart q.retrieval q.semanticTop ≤ widenedTop q n ∧
      widenedTop q n ≤ q.semanticTop := by
  have hstart : scopedSemanticStart q.retrieval q.semanticTop ≤ q.semanticTop :=
    Nat.min_le_right _ _
  have hle := q.semanticTop_le
  induction n with
  | zero => exact ⟨le_refl _, hstart⟩
  | succ n ih =>
    rw [widenedTop]
    omega

/-- A round that does not end the loop is followed by one that asks for more. -/
theorem widenedTop_lt {n : ℕ} (h : ¬ EndsAt R config graphSearch S q index n) :
    widenedTop q n < widenedTop q (n + 1) := by
  have hne : widenedTop q (n + 1) ≠ widenedTop q n := fun hsame => h (.inr (.inr hsame))
  have hbounds := widenedTop_bounds q n
  have hle := q.semanticTop_le
  rw [widenedTop] at hne ⊢
  omega

/-- The first round has gathered nothing. -/
theorem sound_start : ScopedLoop.Sound R config graphSearch S q index 0
    ⟨scopedSemanticStart q.retrieval q.semanticTop, 0, none, none, [], [], [], fun _ => none,
      index⟩ where
  attempts := rfl
  top := rfl
  prevHitCount := rfl
  prevTopSimilarity := rfl
  search_eq _ := rfl
  cached _ _ h := absurd h.symm (Option.some_ne_none _)
  gathered := gathered_nil
  seeded := rfl
  goesOn m hm := absurd hm (Nat.not_lt_zero m)

/-- What was gathered from the hits of a search is what one search for as many vectors has. -/
theorem mem_singleSearch_of_gathered {s : List ℕ × List (ℕ × RankedItem)} {k : ℕ}
    (h : Gathered (acceptedItem R S q) s (searchHits config graphSearch S q index k))
    (hit : ℕ × RankedItem) :
    hit ∈ s.2 ↔ hit ∈ singleSearch R config graphSearch S q index k := by
  unfold singleSearch
  rw [List.mem_filterMap]
  refine (h.mem hit).trans (exists_congr fun found => and_congr_right fun _ => ?_)
  rw [Option.map_eq_some_iff]
  constructor
  · rintro ⟨haccept, hid⟩
    exact ⟨hit.2, haccept, Prod.ext hid rfl⟩
  · rintro ⟨item, haccept, rfl⟩
    exact ⟨haccept, rfl⟩

/-- As many were gathered as one search has. -/
theorem length_singleSearch_of_gathered {s : List ℕ × List (ℕ × RankedItem)} {k : ℕ}
    (h : Gathered (acceptedItem R S q) s (searchHits config graphSearch S q index k))
    (hkeys : ((searchHits config graphSearch S q index k).map Prod.fst).Nodup) :
    s.2.length = (singleSearch R config graphSearch S q index k).length := by
  refine List.Perm.length_eq ((List.perm_ext_iff_of_nodup h.nodup.of_map ?_).mpr
    (mem_singleSearch_of_gathered h))
  have hkept : ((singleSearch R config graphSearch S q index k).map Prod.fst).Sublist
      ((searchHits config graphSearch S q index k).map Prod.fst) := by
    unfold singleSearch
    generalize searchHits config graphSearch S q index k = raw
    induction raw with
    | nil => exact List.Sublist.slnil
    | cons hit raw ih =>
      rw [List.filterMap_cons]
      cases acceptedItem R S q hit with
      | none => exact ih.cons _
      | some item => exact ih.cons_cons _
  exact (hkeys.sublist hkept).of_map

/-- What the hits of a round are put together in, in terms of single searches, and the cache of the
round is true. -/
structure ScopedVisit.Visited (R : DistanceRules D) (config : SearchConfig γ V D)
    (graphSearch : H.Graph → List ℚ → ℕ → List (ℕ × V)) (S : TenantStore) (q : ScopedQuery)
    (index : VectorIndex H) (n : ℕ) (cache : ℕ → Option (Option (UInt64 × String)))
    (v : ScopedVisit) : Prop where
  gathered : Gathered (acceptedItem R S q) (v.seenVectorIds, v.hits)
    (searchHits config graphSearch S q index (widenedTop q n))
  seeded : v.Seeded
  hitCount : v.hits.length =
    (singleSearch R config graphSearch S q index (widenedTop q n)).length
  newHits : v.newHits = (freshHits R config graphSearch S q index n).length
  topSimilarity : v.topSimilarity = freshSimilarity R config graphSearch S q index n
  cached : ∀ vid found, cache vid = some found → found = S.memoryOfVectorAt q vid

/-- The hits of a round. -/
theorem ScopedLoop.Sound.visited {flat : FlatSegment γ} (hexact : config.isExact = true)
    (hflat : (index.load config.toVectorConfig q.entityId (S.entityVectors q.entityId)).segments
      q.entityId = some (.flat flat)) {n : ℕ} {s : ScopedLoop H}
    (hs : s.Sound R config graphSearch S q index n) {raw : List (ℕ × D)}
    (hraw : raw = searchHits config graphSearch S q index (widenedTop q n)) :
    ScopedVisit.Visited R config graphSearch S q index n
      (cachedLookups S q false s.localCache raw)
      (raw.foldl (ScopedVisit.visit R (cachedLookups S q false s.localCache raw))
        ⟨s.seenVectorIds, s.hits, s.rerankSeedIds, 0, none⟩) := by
  obtain ⟨cache, hcache⟩ : ∃ cache, cache = cachedLookups S q false s.localCache raw := ⟨_, rfl⟩
  have hkeys : (raw.map Prod.fst).Nodup := by
    rw [hraw]
    exact nodup_searchHits hexact hflat _
  -- The cache answers for all hits of the round.
  have hcached : ∀ vid, cache vid = if vid ∈ raw.map Prod.fst then
      some (S.memoryOfVectorAt q vid) else s.localCache vid := by
    intro vid
    rw [hcache]
    exact cachedLookups_eq hs.cached raw vid
  have haccept : ∀ hit ∈ raw, acceptedItem R S q hit = (cache hit.1).join.bind fun found =>
      if R.similarity hit.2 < minHitSimilarity then none else some ⟨found.2, found.1⟩ := by
    intro hit hhit
    rw [hcached, if_pos (List.mem_map_of_mem hhit)]
    rfl
  -- The search before was narrower, so its hits are among these.
  have hprior : priorHits config graphSearch S q index n ⊆ raw := by
    rw [hraw]
    cases n with
    | zero => exact List.nil_subset _
    | succ m =>
      exact searchHits_subset hexact hflat
        (widenedTop_lt (hs.goesOn m (Nat.lt_succ_self m))).le
  -- What is new in the round, in terms of the two searches.
  have hfresh : (raw.filter fun hit => hit.1 ∉ s.seenVectorIds &&
      (acceptedItem R S q hit).isSome) = freshHits R config graphSearch S q index n := by
    unfold freshHits
    rw [← hraw]
    refine List.filter_congr fun hit _ => ?_
    have hseen := hs.gathered.seen hit.1
    simp only [List.mem_map]
    simp only [hseen]
  obtain ⟨hcount, hsimilarity⟩ := foldl_visit_counts hkeys haccept
    ⟨s.seenVectorIds, s.hits, s.rerankSeedIds, 0, none⟩
  rw [hfresh, Nat.zero_add] at hcount
  rw [hfresh, Option.none_or] at hsimilarity
  have hgathers := hs.gathered.foldl hprior hkeys
  rw [← foldl_visit raw cache ⟨s.seenVectorIds, s.hits, s.rerankSeedIds, 0, none⟩ haccept]
    at hgathers
  rw [← hcache]
  subst hraw
  refine ⟨hgathers, ?_, length_singleSearch_of_gathered hgathers hkeys, hcount, hsimilarity,
    fun vid found hfound => ?_⟩
  · exact ScopedVisit.Seeded.foldl (v := ⟨s.seenVectorIds, s.hits, s.rerankSeedIds, 0, none⟩)
      hs.seeded cache _
  · rw [hcached] at hfound
    split at hfound
    · exact (Option.some.inj hfound).symm
    · exact hs.cached vid found hfound

section Visited

variable {n : ℕ} {s : ScopedLoop H} {cache : ℕ → Option (Option (UInt64 × String))}
  {v : ScopedVisit}

/-- What ends the loop after such a round. -/
theorem ScopedVisit.Visited.endsAt_iff
    (h : v.Visited R config graphSearch S q index n cache)
    (hs : s.Sound R config graphSearch S q index n) : EndsAt R config graphSearch S q index n ↔
      ((shouldStopScopedAnn R q.retrieval ⟨n + 1, s.currentTop, q.semanticTop, v.hits.length,
          scopedSemanticMinHits q.retrieval q.queryLimit q.semanticTop, v.topSimilarity,
          s.prevHitCount, s.prevTopSimilarity⟩ ||
        (2 ≤ n + 1 && scopedSemanticMinHits q.retrieval q.queryLimit q.semanticTop ≤
          v.hits.length && v.newHits = 0)) = true ∨
        min (min (s.currentTop + q.retrieval.scopedSemanticStep) usizeMax) q.semanticTop =
          s.currentTop) := by
  have hstate : singleState R config graphSearch S q index n = ⟨n + 1, s.currentTop,
      q.semanticTop, v.hits.length, scopedSemanticMinHits q.retrieval q.queryLimit q.semanticTop,
      v.topSimilarity, s.prevHitCount, s.prevTopSimilarity⟩ := by
    rw [hs.top, h.hitCount, h.topSimilarity, hs.prevHitCount, hs.prevTopSimilarity]
    rfl
  have hround : 2 ≤ n + 1 ↔ 1 ≤ n := by omega
  unfold EndsAt
  rw [hstate, ← h.hitCount, ← List.length_eq_zero_iff, ← h.newHits, hs.top, widenedTop]
  simp only [Bool.or_eq_true, Bool.and_eq_true, decide_eq_true_eq]
  rw [hround]
  tauto

/-- What the next round finds, if the loop goes on. -/
theorem ScopedVisit.Visited.sound (h : v.Visited R config graphSearch S q index n cache)
    (hs : s.Sound R config graphSearch S q index n)
    (hon : ¬ EndsAt R config graphSearch S q index n) :
    ScopedLoop.Sound R config graphSearch S q index (n + 1)
      ⟨min (min (s.currentTop + q.retrieval.scopedSemanticStep) usizeMax) q.semanticTop, n + 1,
        some v.hits.length, v.topSimilarity, v.seenVectorIds, v.hits, v.rerankSeedIds, cache,
        (s.index.search config graphSearch S (some q.entityId) q.embedding s.currentTop).2⟩ where
  attempts := rfl
  top := by rw [widenedTop, ← hs.top]
  prevHitCount := congrArg some h.hitCount
  prevTopSimilarity := h.topSimilarity
  search_eq k := by
    -- The search may have loaded the segment, which changes no other search.
    dsimp only
    rcases search_index config graphSearch s.index S q.entityId q.embedding s.currentTop with
      hindex | hindex
    · rw [hindex]
      exact hs.search_eq k
    · rw [hindex, search_load]
      exact hs.search_eq k
  cached := h.cached
  gathered := h.gathered
  seeded := h.seeded
  goesOn m hm := by
    rcases Nat.lt_succ_iff_lt_or_eq.mp hm with hm | rfl
    · exact hs.goesOn m hm
    · exact hon

end Visited

/-- A round gathers what one search for as many vectors finds, and ends the loop or goes on with the
next one. -/
theorem scopedRound_cases {flat : FlatSegment γ} (hexact : config.isExact = true)
    (hflat : (index.load config.toVectorConfig q.entityId (S.entityVectors q.entityId)).segments
      q.entityId = some (.flat flat)) (hlookup : ∀ n, lookupFails n = false) {n : ℕ}
    {s : ScopedLoop H} (hs : s.Sound R config graphSearch S q index n) :
    (EndsAt R config graphSearch S q index n ∧ ∃ r seen,
        scopedRound R config graphSearch S q lookupFails s = .inr r ∧
        Gathered (acceptedItem R S q) (seen, r.hits)
          (searchHits config graphSearch S q index (widenedTop q n)) ∧
        r.rerankSeedIds = (r.hits.take neuralTop).map (fun hit => hit.2.memoryId) ∧
        r.searchAttempts = n + 1 ∧ r.searchTop = widenedTop q n ∧
        r.hnswRaw = searchHits config graphSearch S q index (widenedTop q n)) ∨
      ∃ s', scopedRound R config graphSearch S q lookupFails s = .inl s' ∧
        s'.Sound R config graphSearch S q index (n + 1) := by
  -- The searches of the round are those of the index before the loop.
  have hraw : searchHits config graphSearch S q s.index s.currentTop =
      searchHits config graphSearch S q index (widenedTop q n) := by
    unfold searchHits
    rw [hs.search_eq, hs.top]
  have hvisited := hs.visited hexact hflat hraw
  have hends := hvisited.endsAt_iff hs
  unfold scopedRound
  dsimp only
  rw [hlookup, hs.attempts]
  split_ifs with hstop hsame
  · exact .inl ⟨hends.mpr (.inl hstop), _, _, rfl, hvisited.gathered, hvisited.seeded, rfl, hs.top,
      hraw⟩
  · exact .inl ⟨hends.mpr (.inr hsame), _, _, rfl, hvisited.gathered, hvisited.seeded, rfl, hs.top,
      hraw⟩
  · have hon : ¬ EndsAt R config graphSearch S q index n := fun h =>
      (hends.mp h).elim hstop hsame
    exact .inr ⟨_, rfl, hvisited.sound hs hon⟩

/-- For every configuration, entity, query and content of a flat index of exact vectors, with
lookups that succeed: the loop ends, no vector is gathered twice, and what is gathered is what one
search for as many as the last round asked for has within the bounds in time and similar enough.
The last round is the first one that ends the loop, where the rounds ask for more and more, from the
configured start to the limit of the query. -/
theorem widened_exact {flat : FlatSegment γ} (hexact : config.isExact = true)
    (hflat : (index.load config.toVectorConfig q.entityId (S.entityVectors q.entityId)).segments
      q.entityId = some (.flat flat)) (hlookup : ∀ n, lookupFails n = false) {rounds : ℕ}
    (hrounds : q.semanticTop < rounds) :
    ∃ result, scopedAnn R config graphSearch S q lookupFails rounds index = some result ∧
      (result.hits.map Prod.fst).Nodup ∧
      (∀ hit, hit ∈ result.hits ↔
        hit ∈ singleSearch R config graphSearch S q index result.searchTop) ∧
      result.hnswRaw = searchHits config graphSearch S q index result.searchTop ∧
      result.rerankSeedIds = (result.hits.take neuralTop).map (fun hit => hit.2.memoryId) ∧
      min q.retrieval.scopedSemanticStart q.semanticTop ≤ result.searchTop ∧
      result.searchTop ≤ q.semanticTop ∧
      ∃ n, result.searchAttempts = n + 1 ∧ result.searchTop = widenedTop q n ∧
        EndsAt R config graphSearch S q index n ∧
        ∀ m < n, ¬ EndsAt R config graphSearch S q index m := by
  unfold scopedAnn
  have hvariant : q.semanticTop - scopedSemanticStart q.retrieval q.semanticTop < rounds := by
    omega
  -- The room up to the largest number of candidates gets smaller in each round.
  refine loop_of_variant (I := fun s => ∃ n, ScopedLoop.Sound R config graphSearch S q index n s)
    (fun s => q.semanticTop - s.currentTop) ?_ ?_ ⟨0, sound_start⟩ hvariant
  · rintro s s' ⟨n, hs⟩ hnext
    rcases scopedRound_cases hexact hflat hlookup hs with
      ⟨-, r, seen, hbreak, -⟩ | ⟨next, hbody, hsound⟩
    · rw [hbreak] at hnext
      exact absurd hnext.symm Sum.inl_ne_inr
    · rw [hbody] at hnext
      obtain rfl := Sum.inl.inj hnext
      have hless := widenedTop_lt (hsound.goesOn n (Nat.lt_succ_self n))
      have hbound := (widenedTop_bounds q (n + 1)).2
      refine ⟨⟨n + 1, hsound⟩, ?_⟩
      rw [hs.top, hsound.top]
      omega
  -- The round that ends the loop is the one whose answer is given.
  · rintro s r ⟨n, hs⟩ hbreak
    rcases scopedRound_cases hexact hflat hlookup hs with
      ⟨hends, r', seen, hbody, hgathered, hseeds, hattempts, htop, hhnsw⟩ | ⟨next, hnext, -⟩
    · rw [hbody] at hbreak
      obtain rfl := Sum.inr.inj hbreak
      have hbounds := widenedTop_bounds q n
      rw [htop]
      exact ⟨hgathered.nodup, mem_singleSearch_of_gathered hgathered, hhnsw, hseeds, hbounds.1,
        hbounds.2, n, hattempts, rfl, hends, hs.goesOn⟩
    · rw [hnext] at hbreak
      exact absurd hbreak Sum.inl_ne_inr

end

/-! ## A search in two rounds -/

/-- Similarities and distances as products of vectors. -/
def dotSearch : SearchConfig (List ℚ) ℚ ℚ where
  encode := id
  flatThreshold := 10000
  dimensions := 2
  isExact := true
  rescoreFactor := 4
  similarity := fun query v => (List.zipWith (· * ·) query v).sum
  fullSimilarity := fun query v => (List.zipWith (· * ·) query v).sum
  distance := fun similarity => 1 - similarity

/-- Exact computations with distances. -/
def dotRules : DistanceRules ℚ where
  similarity := fun distance => max (-1) (min 1 (1 - distance))
  gain := fun current previous => |current - previous|

/-- A memory with its vector. -/
def directionObservation (turnIndex : UInt32) (text : String) (embedding : List ℚ) :
    AgentObservation where
  entityId := "alice"
  textualContent := text
  embedding := embedding
  kind := .conversational
  contentHash := text
  expiresAtMs := none
  sessionId := "s"
  turnIndex := turnIndex
  role := "user"
  parentMemoryId := none

/-- Three memories, one of them of another direction. -/
def directionStore : TenantStore :=
  TenantStore.empty.step (fun _ _ => 0) (.commit .insertion ⟨1, 1, 1⟩
    { observations := [(1000, "near", directionObservation 0 "near" [1, 0]),
        (2000, "away", directionObservation 1 "away" [0, 1]),
        (3000, "next", directionObservation 2 "next" [4 / 5, 3 / 5])] })

/-- A query of the first direction that asks for one vector first. -/
def directionQuery : ScopedQuery where
  retrieval := ⟨1, 1, none, 3, 7 / 10, 2, 1 / 100⟩
  entityId := "alice"
  embedding := [1, 0]
  semanticTop := 3
  queryLimit := 10
  pointInTimeMs := none
  knownAsOfMs := none
  semanticTop_le := by decide

/-- The loop for that query. -/
theorem widened_three : ∃ result, scopedAnn dotRules dotSearch (fun _ _ _ => []) directionStore
      directionQuery (fun _ => false) 4 (VectorIndex.new (Hnsw.exact (List ℚ))) = some result ∧
    (result.hits.map Prod.fst).Nodup ∧
    (∀ hit, hit ∈ result.hits ↔ hit ∈ singleSearch dotRules dotSearch (fun _ _ _ => [])
      directionStore directionQuery (VectorIndex.new (Hnsw.exact (List ℚ))) result.searchTop) ∧
    result.hnswRaw = searchHits dotSearch (fun _ _ _ => []) directionStore directionQuery
      (VectorIndex.new (Hnsw.exact (List ℚ))) result.searchTop ∧
    result.rerankSeedIds = (result.hits.take neuralTop).map (fun hit => hit.2.memoryId) ∧
    min directionQuery.retrieval.scopedSemanticStart directionQuery.semanticTop ≤
      result.searchTop ∧
    result.searchTop ≤ directionQuery.semanticTop ∧
    ∃ n, result.searchAttempts = n + 1 ∧ result.searchTop = widenedTop directionQuery n ∧
      EndsAt dotRules dotSearch (fun _ _ _ => []) directionStore directionQuery
        (VectorIndex.new (Hnsw.exact (List ℚ))) n ∧
      ∀ m < n, ¬ EndsAt dotRules dotSearch (fun _ _ _ => []) directionStore directionQuery
        (VectorIndex.new (Hnsw.exact (List ℚ))) m := by
  have hflat : ((VectorIndex.new (Hnsw.exact (List ℚ))).load dotSearch.toVectorConfig "alice"
      (directionStore.entityVectors "alice")).segments "alice" =
        some (.flat ((directionStore.entityVectors "alice").foldl
          (fun s row => s.upsert row.1 (dotSearch.encode row.2)) (FlatSegment.new (List ℚ)))) := by
    have hempty : (VectorIndex.new (Hnsw.exact (List ℚ))).segments "alice" = none := rfl
    rw [VectorIndex.segments_load, if_pos rfl, hempty, Option.getD_none]
    unfold VectorIndex.buildSegment
    rw [if_neg (by decide +kernel)]
  exact widened_exact rfl hflat (fun _ => rfl) (by decide)

end Tellodb
