import Tellodb.Query.Fusion

/-!
# The ranking that the fusion makes

What `fusion_phase` leaves, without a hash map: an item for each memory that a list gives something
or that links and edges lead to, with its shares added up in the order of the lists, and for each
memory that the graph scores its boosts added up in the order of the seeds (`fusion_exact`). No two
sums of `f32` are rearranged on the way. The sorts compare scores that are numbers, since no share
is below zero and no sum of shares is `nan`. -/

namespace Tellodb

open Machine Machine.Format Relational Collections

/-! ## The ranking -/

/-- The event time under which a memory is stored. -/
def TenantStore.timestampOf (S : TenantStore) (memoryId : String) : Option UInt64 :=
  (S.memories.find? memoryId).map fun m => m.createdAtMs.toUInt64

section

variable (s : FusionInput) (S : TenantStore) (walks : FusionWalks)

/-- What the lists give, in turn. -/
def FusionInput.given : List (String × UInt64 × F32) :=
  (s.rankedSources S s.neuralScores.entries).flatMap (sharesOf (adaptiveRrfK s.plan))

/-- The score of a memory: its shares added up in turn. -/
def FusionInput.fusedScore (memoryId : String) : F32 :=
  (under memoryId (s.given S)).foldl (fun score share => score + share.2) 0

/-- The memories of the largest scores. -/
def FusionInput.seedTop : List String :=
  ((orderBy scoreKey (((s.given S).map Prod.fst).dedup.map fun memoryId =>
    (memoryId, s.fusedScore S memoryId))).take s.graphSeedCount).map Prod.fst

/-- The maps of scores around the seeds, in turn. -/
def FusionInput.seedScores : List ScoreMap :=
  s.linkScores walks (s.seedTop S) ++ s.edgeScores walks (s.seedTop S)

/-- The stored memories that links and edges lead to. -/
def FusionInput.reached : List String :=
  (((s.seedScores S walks).flatMap fun scores => scores.entries.map Prod.fst) ++
    (s.batchedEdges S).map GraphEdge.memoryId).filter fun memoryId =>
      (S.timestampOf memoryId).isSome

/-- What the graph adds to a memory, in turn. -/
def FusionInput.boosts (memoryId : String) : List F32 :=
  ((s.seedScores S walks).filterMap fun scores => scores.entries.lookup memoryId) ++
    if (S.timestampOf memoryId).isSome then
      ((s.batchedEdges S).filter fun e => e.memoryId = memoryId).map GraphEdge.boost
    else []

/-- The item of a memory. A memory that the graph leads to has its stored event time, another one
that with which a list has it first. -/
def FusionInput.fusedItem (memoryId : String) : FusedItem where
  memoryId := memoryId
  timestamp :=
    (if memoryId ∈ s.reached S walks then S.timestampOf memoryId
    else (under memoryId (s.given S)).head?.map Prod.fst).getD 0
  score := s.fusedScore S memoryId

/-- The items of all memories. -/
def FusionInput.fusedItems : List FusedItem :=
  (((s.given S).map Prod.fst ++ s.reached S walks).dedup).map (s.fusedItem S walks)

end

/-! ## Lookups -/

section

variable {S : TenantStore}

/-- A lookup finds a memory once. -/
theorem distinct_lookupByMemoryIdsBatch (memoryIds : List String) :
    Distinct (S.lookupByMemoryIdsBatch memoryIds) := by
  unfold TenantStore.lookupByMemoryIdsBatch
  exact distinct_nil.upsertAll _ _

/-- The rows of a memory have its identifier and its event time. -/
theorem of_mem_vectorRowsOf {m : MemoryRow} {row : String × UInt64 × ℕ}
    (h : row ∈ S.vectorRowsOf m) : row.1 = m.memoryId ∧ row.2.1 = m.createdAtMs.toUInt64 := by
  obtain ⟨vectorId, -, rfl⟩ := List.mem_map.mp h
  exact ⟨rfl, rfl⟩

/-- A memory has a row. -/
theorem vectorRowsOf_ne_nil (m : MemoryRow) : S.vectorRowsOf m ≠ [] := by
  unfold TenantStore.vectorRowsOf
  dsimp only
  split_ifs with hempty
  · simp
  · rw [ne_eq, List.map_eq_nil_iff, List.map_eq_nil_iff]
    exact fun hnil => hempty (List.isEmpty_iff.mpr hnil)

/-- A batch of memories is looked up one by one. -/
theorem lookup_lookupByMemoryIdsBatch (memoryIds : List String) (memoryId : String) :
    ((S.lookupByMemoryIdsBatch memoryIds).lookup memoryId).map Prod.fst =
      if memoryId ∈ memoryIds then S.timestampOf memoryId else none := by
  unfold TenantStore.lookupByMemoryIdsBatch
  set rows := (memoryIds.toChunks inChunk).flatMap fun chunk =>
    (S.memories.rows.filter fun m => m.memoryId ∈ chunk).flatMap S.vectorRowsOf with hrows
  -- Chunk by chunk the rows of all memories are read.
  have hmem : ∀ row, row ∈ rows ↔
      ∃ m ∈ S.memories.rows, m.memoryId ∈ memoryIds ∧ row ∈ S.vectorRowsOf m := by
    intro row
    rw [hrows]
    simp only [List.mem_flatMap, List.mem_filter, decide_eq_true_eq]
    constructor
    · rintro ⟨chunk, hchunk, m, ⟨hm, hin⟩, hrow⟩
      refine ⟨m, hm, ?_, hrow⟩
      rw [← flatten_toChunks inChunk memoryIds]
      exact List.mem_flatten.mpr ⟨chunk, hchunk, hin⟩
    · rintro ⟨m, hm, hin, hrow⟩
      rw [← flatten_toChunks inChunk memoryIds] at hin
      obtain ⟨chunk, hchunk, hin⟩ := List.mem_flatten.mp hin
      exact ⟨chunk, hchunk, m, ⟨hm, hin⟩, hrow⟩
  cases hlookup : (upsertAll (fun _ row => row) [] rows).lookup memoryId with
  | none =>
    -- The rows of the memory would be found.
    have hno : memoryId ∉ rows.map Prod.fst := fun hkey => by
      have hsome := (isSome_lookup_upsertAll (fun _ row => row) [] rows memoryId).mpr (.inr hkey)
      rw [hlookup] at hsome
      exact absurd hsome (by simp)
    rw [Option.map_none]
    split_ifs with hin
    · unfold TenantStore.timestampOf
      cases hfind : S.memories.find? memoryId with
      | none => rfl
      | some m =>
        obtain ⟨hm, rfl⟩ := Table.find?_eq_some.mp hfind
        obtain ⟨row, hrow⟩ := List.exists_mem_of_ne_nil _ (vectorRowsOf_ne_nil (S := S) m)
        refine absurd (List.mem_map.mpr ⟨row, (hmem row).mpr ⟨m, hm, hin, hrow⟩, ?_⟩) hno
        exact (of_mem_vectorRowsOf hrow).1
    · rfl
  -- What is found under the memory is one of its own rows, and they agree on the time.
  | some value =>
    have hvalue : (memoryId, value) ∈ rows :=
      (mem_of_lookup_upsertAll hlookup).resolve_right (by simp)
    obtain ⟨m, hm, hin, hrow⟩ := (hmem _).mp hvalue
    obtain ⟨hid, htime⟩ := of_mem_vectorRowsOf hrow
    have hid : memoryId = m.memoryId := hid
    have hfind : S.memories.find? memoryId = some m := Table.find?_eq_some.mpr ⟨hm, hid.symm⟩
    rw [Option.map_some, if_pos (hid ▸ hin)]
    unfold TenantStore.timestampOf
    rw [hfind, Option.map_some]
    exact congrArg some htime

end

/-! ## Orders of maps -/

/-- A scored memory is known by its key. -/
theorem scoreKey_injective : Function.Injective scoreKey := by
  intro d e h
  obtain ⟨hscore, hid⟩ := Prod.mk.inj (toLex_inj.mp h)
  exact Prod.ext hid (OrderDual.toDual_inj.mp hscore)

/-- Of numbers, the comparison is that of the order. -/
theorem scoreLe_iff {d e : String × F32} (hd : d.2 ≠ .nan) (he : e.2 ≠ .nan) :
    scoreLe d e ↔ scoreKey d ≤ scoreKey e := by
  unfold scoreLe scoreKey
  rw [Prod.Lex.toLex_le_toLex, OrderDual.toDual_lt_toDual, OrderDual.toDual_inj]
  by_cases hsame : d.2 = e.2
  · rw [if_pos (.inl hsame), hsame]
    simp
  · rw [if_neg (by simp [hsame, hd, he])]
    simp [hsame]

/-- Scores that are numbers are sorted by the order. -/
theorem sortByScore_eq {α : Type} {score : α → String × F32} {l : List α}
    (h : ∀ a ∈ l, (score a).2 ≠ .nan) :
    sortByScore score l = orderBy (fun a => scoreKey (score a)) l := by
  unfold sortByScore orderBy
  have hsame := List.map_insertionSort (fun a b => scoreLe (score a) (score b))
    (fun a b => scoreKey (score a) ≤ scoreKey (score b)) id l
    fun a ha b hb => scoreLe_iff (h a ha) (h b hb)
  rw [List.map_id, List.map_id] at hsame
  exact hsame

/-- What is not below zero is a number. -/
theorem ne_nan_of_zero_le {x : F32} (h : 0 ≤ x) : x ≠ .nan := by
  rintro rfl
  exact Number.round_ne_nan _ (Number.le_nan_iff.mp h)

/-- Sorted by score, a map does not show in which order it was. -/
theorem Collections.Distinct.orderBy_scoreKey {m m' : List (String × F32)} (h : Distinct m)
    (hperm : m'.Perm m) : orderBy scoreKey m' = orderBy scoreKey m := by
  have hkeyed : Keyed scoreKey m := h.of_map.map scoreKey_injective
  exact hkeyed.orderBy_congr hperm.symm

/-- The items of a map, sorted. -/
theorem Collections.Distinct.orderBy_key {m m' : List (String × UInt64 × F32)} (h : Distinct m)
    (hperm : m'.Perm m) :
    orderBy FusedItem.key (m'.map fun e => (⟨e.1, e.2.1, e.2.2⟩ : FusedItem)) =
      orderBy FusedItem.key (m.map fun e => (⟨e.1, e.2.1, e.2.2⟩ : FusedItem)) := by
  refine Keyed.orderBy_congr ?_ (hperm.symm.map _)
  unfold Keyed
  rw [List.map_map]
  refine h.of_map.map_on fun d hd e he hkey => ?_
  obtain ⟨-, hid⟩ := Prod.mk.inj (toLex_inj.mp hkey)
  exact List.inj_on_of_nodup_map h hd he hid

/-- The lists do not depend on the order of the scores of the cross-encoder, if these are
numbers. -/
theorem FusionInput.rankedSources_congr {s : FusionInput}
    (hneural : ∀ e ∈ s.neuralScores.entries, e.2 ≠ .nan) (S : TenantStore)
    {m : List (String × F32)} (hperm : m.Perm s.neuralScores.entries) :
    s.rankedSources S m = s.rankedSources S s.neuralScores.entries := by
  have hitems : neuralItems S m = neuralItems S s.neuralScores.entries := by
    unfold neuralItems
    have hsorted : sortByScore id m = sortByScore id s.neuralScores.entries := by
      rw [@sortByScore_eq _ id _ fun e he => hneural e (hperm.mem_iff.mp he),
        @sortByScore_eq _ id _ hneural]
      exact s.neuralScores.distinct.orderBy_scoreKey hperm
    rw [hsorted]
  have hempty : m.isEmpty = s.neuralScores.entries.isEmpty := by
    rw [Bool.eq_iff_iff, List.isEmpty_iff, List.isEmpty_iff]
    exact ⟨fun h => List.nil_perm.mp (h ▸ hperm), fun h => List.perm_nil.mp (h ▸ hperm)⟩
  unfold FusionInput.rankedSources
  rw [hitems, hempty]

/-! ## Shares -/

/-- No share is below zero, and none is `nan`. -/
theorem zero_le_of_mem_sharesOf {k : ℕ} {source : F32 × List RankedItem}
    {share : String × UInt64 × F32} (h : share ∈ sharesOf k source) : 0 ≤ share.2.2 := by
  unfold sharesOf at h
  dsimp only at h
  split_ifs at h with hzero
  · exact absurd h List.not_mem_nil
  · obtain ⟨entry, -, rfl⟩ := List.mem_map.mp h
    obtain ⟨q, hq, hfin, hnonneg⟩ := F32.exists_fin_natCast (UInt64.ofNat (k + entry.2 + 1))
    dsimp only
    rw [hfin]
    exact Number.div_fin_nonneg (Number.zero_le_max_zero _) hzero hq hnonneg

section

variable {s : FusionInput} {S : TenantStore} {walks : FusionWalks}

/-- No score of a memory is below zero, and none is `nan`. -/
theorem FusionInput.zero_le_fusedScore (memoryId : String) : 0 ≤ s.fusedScore S memoryId := by
  have hshares : ∀ share ∈ under memoryId (s.given S), 0 ≤ share.2 := by
    intro share hshare
    obtain ⟨source, -, hmem⟩ := List.mem_flatMap.mp (mem_under.mp hshare)
    exact zero_le_of_mem_sharesOf hmem
  unfold FusionInput.fusedScore
  generalize under memoryId (s.given S) = shares at hshares
  have hfold : ∀ score : F32, 0 ≤ score →
      0 ≤ shares.foldl (fun score share => score + share.2) score := by
    induction shares with
    | nil => exact fun score hscore => hscore
    | cons share shares ih =>
      intro score hscore
      refine ih (fun other hother => hshares other (List.mem_cons_of_mem _ hother)) _ ?_
      exact Number.add_nonneg hscore (hshares share List.mem_cons_self)
  exact hfold 0 (le_refl 0)

/-- What the map of the shares has under a memory: the event time with which it came first, and its
shares added up. -/
theorem lookup_shares (memoryId : String) :
    (upsertAll addShare [] (s.given S)).lookup memoryId =
      (under memoryId (s.given S)).head?.map fun first =>
        (first.1, s.fusedScore S memoryId) := by
  rw [lookup_upsertAll]
  unfold FusionInput.fusedScore
  cases hunder : under memoryId (s.given S) with
  | nil => rfl
  | cons first shares =>
    rw [foldl_some_eq, List.head?_cons, Option.map_some, List.foldl_cons]
    clear hunder
    have hfold : ∀ entry : UInt64 × F32,
        shares.foldl (fun entry share => addShare (some entry) share) entry =
          (entry.1, shares.foldl (fun score share => score + share.2) entry.2) := by
      induction shares with
      | nil => exact fun entry => rfl
      | cons share shares ih => exact fun entry => ih _
    exact congrArg some (hfold _)

/-- The fused items are the entries of the map of the shares, in some order. -/
theorem perm_weightedReciprocalRankFusion (order : HashOrder)
    (rankedLists : List (F32 × List RankedItem)) (k : ℕ) :
    ((weightedReciprocalRankFusion order rankedLists k).map fun item =>
      (item.memoryId, item.timestamp, item.score)).Perm
        (upsertAll addShare [] (rankedLists.flatMap (sharesOf k))) := by
  unfold weightedReciprocalRankFusion upsertAll
  rw [List.foldl_flatMap]
  refine ((List.perm_insertionSort _ _).map _).trans ?_
  rw [List.map_map]
  refine List.Perm.trans ?_ (order.iterate_perm _)
  exact .of_eq (List.map_id _)

/-- Merging leaves one item for a memory. -/
theorem distinct_mergeFusedItems (fused : List FusedItem) : Distinct (mergeFusedItems fused) :=
  distinct_nil.upsertAll _ _

/-- The merge of the fused items has what the shares have. -/
theorem lookup_mergeFusedItems (order : HashOrder) (memoryId : String) :
    (mergeFusedItems (weightedReciprocalRankFusion order
      (s.rankedSources S s.neuralScores.entries) (adaptiveRrfK s.plan))).lookup memoryId =
        (under memoryId (s.given S)).head?.map fun first =>
          (first.1, s.fusedScore S memoryId) := by
  have hperm := perm_weightedReciprocalRankFusion order
    (s.rankedSources S s.neuralScores.entries) (adaptiveRrfK s.plan)
  have hdistinct : Distinct (upsertAll addShare [] (s.given S)) := distinct_nil.upsertAll _ _
  unfold mergeFusedItems
  rw [lookup_upsertAll, (hdistinct.perm hperm).under_eq, hdistinct.lookup_perm hperm]
  change List.foldl _ _ ((upsertAll addShare [] (s.given S)).lookup memoryId).toList = _
  rw [lookup_shares]
  cases (under memoryId (s.given S)).head? with
  | none => rfl
  | some first =>
    have hmax := Number.zero_max_eq (s.zero_le_fusedScore (S := S) memoryId)
    exact congrArg (fun score => some (first.1, score)) hmax

/-- A memory has an event time with the lists if they give it something. -/
theorem isSome_head?_under (es : List (String × UInt64 × F32)) (memoryId : String) :
    (under memoryId es).head?.isSome ↔ memoryId ∈ es.map Prod.fst := by
  rw [List.isSome_head?, ne_eq, List.eq_nil_iff_forall_not_mem, List.mem_map]
  simp

/-! ## Seeds -/

/-- The seeds are those of the ranking. -/
theorem seedTop_eq {fusedMap : List (String × UInt64 × F32)} (hdistinct : Distinct fusedMap)
    (hlookup : ∀ memoryId, fusedMap.lookup memoryId =
      (under memoryId (s.given S)).head?.map fun first => (first.1, s.fusedScore S memoryId))
    (order : HashOrder) :
    ((sortByScore id ((order.iterate fusedMap).map fun e => (e.1, e.2.2))).take
      s.graphSeedCount).map Prod.fst = s.seedTop S := by
  have hspec := distinct_map_key (List.nodup_dedup ((s.given S).map Prod.fst)) (s.fusedScore S)
  have hscores : Distinct ((order.iterate fusedMap).map fun e => (e.1, e.2.2)) :=
    (hdistinct.perm (order.iterate_perm fusedMap)).map_snd Prod.snd
  have hperm := perm_of_lookup hscores hspec fun memoryId => by
    have hsnd := lookup_map_snd (order.iterate fusedMap) Prod.snd memoryId
    have hkeys := List.mem_dedup.trans
      (isSome_head?_under (s.given S) memoryId).symm
    rw [hsnd, hdistinct.lookup_perm (order.iterate_perm fusedMap), hlookup, lookup_map_key,
      if_congr hkeys rfl rfl]
    cases (under memoryId (s.given S)).head? <;> rfl
  have hnumbers : ∀ e ∈ (order.iterate fusedMap).map fun e => (e.1, e.2.2), e.2 ≠ .nan := by
    intro e he
    obtain ⟨memoryId, -, rfl⟩ := List.mem_map.mp (hperm.mem_iff.mp he)
    exact ne_nan_of_zero_le (s.zero_le_fusedScore memoryId)
  unfold FusionInput.seedTop
  rw [@sortByScore_eq _ id _ hnumbers]
  exact congrArg (fun l => (l.take s.graphSeedCount).map Prod.fst)
    (hspec.orderBy_scoreKey hperm)

/-! ## Boosts -/

/-- The contributions of the seeds are sorted seed by seed. -/
theorem orderBy_contributions (order : ℕ → HashOrder) (scoresBySeed : List ScoreMap) :
    orderBy (fun c : ℕ × String × F32 => toLex (c.1, c.2.1))
      (scoresBySeed.zipIdx.flatMap fun seed =>
        ((order seed.2).iterate seed.1.entries).map fun e => (seed.2, e)) =
      scoresBySeed.zipIdx.flatMap fun seed =>
        (orderBy Prod.fst seed.1.entries).map fun e => (seed.2, e) := by
  refine orderBy_eq_of_pairwise ?_ (List.Perm.flatMap_left _ fun seed _ => ?_)
  · refine List.pairwise_flatMap.mpr ⟨fun seed _ => ?_, ?_⟩
    · have hkeyed : Keyed Prod.fst seed.1.entries := seed.1.distinct
      refine List.pairwise_map.mpr (hkeyed.orderBy_pairwise.imp fun hlt => ?_)
      exact Prod.Lex.toLex_lt_toLex.mpr (.inr ⟨rfl, hlt⟩)
    · have hindex : scoresBySeed.zipIdx.Pairwise fun a b => a.2 < b.2 := by
        refine List.pairwise_map.mp ?_
        rw [List.zipIdx_map_snd]
        exact List.pairwise_lt_range'
      refine hindex.imp fun {a b} hlt => ?_
      intro x hx y hy
      obtain ⟨d, -, rfl⟩ := List.mem_map.mp hx
      obtain ⟨e, -, rfl⟩ := List.mem_map.mp hy
      exact Prod.Lex.toLex_lt_toLex.mpr (.inl hlt)
  · exact ((orderBy_perm _ _).trans ((order seed.2).iterate_perm _).symm).map _

/-- A memory gets a boost from each seed whose scores it is in, in the order of the seeds. -/
theorem under_contributions (scoresBySeed : List ScoreMap) (memoryId : String) :
    under memoryId ((scoresBySeed.zipIdx.flatMap fun seed =>
      (orderBy Prod.fst seed.1.entries).map fun e => (seed.2, e)).map Prod.snd) =
      scoresBySeed.filterMap fun scores => scores.entries.lookup memoryId := by
  have hmap : (scoresBySeed.zipIdx.flatMap fun seed =>
      (orderBy Prod.fst seed.1.entries).map fun e => (seed.2, e)).map Prod.snd =
      scoresBySeed.flatMap fun scores => orderBy Prod.fst scores.entries := by
    rw [List.map_flatMap]
    conv_rhs => rw [← List.zipIdx_map_fst 0 scoresBySeed, List.flatMap_map]
    refine congrArg (List.flatMap · _) (funext fun seed => ?_)
    rw [List.map_map]
    exact List.map_id _
  rw [hmap, under_flatMap, List.filterMap_eq_flatMap_toList]
  refine congrArg (List.flatMap · _) (funext fun scores => ?_)
  have hperm := orderBy_perm Prod.fst scores.entries
  rw [(scores.distinct.perm hperm).under_eq, scores.distinct.lookup_perm hperm]

/-- The scores after the maps of the seeds: the boosts of a memory added up in turn. -/
theorem lookup_accumulate (order : ℕ → HashOrder) (scoresBySeed : List ScoreMap)
    (graphScores : List (String × F32)) (allLinked : List String) (memoryId : String) :
    (accumulateSeedScoresDeterministically order scoresBySeed graphScores allLinked).1.lookup
        memoryId =
      (scoresBySeed.filterMap fun scores => scores.entries.lookup memoryId).foldl
        (fun score boost => some (addBoost score boost)) (graphScores.lookup memoryId) := by
  unfold accumulateSeedScoresDeterministically
  dsimp only
  rw [lookup_upsertAll, orderBy_contributions, under_contributions]

/-- The memories of the maps of the seeds are noted. -/
theorem mem_accumulate {order : ℕ → HashOrder} {scoresBySeed : List ScoreMap}
    {graphScores : List (String × F32)} {allLinked : List String} {memoryId : String} :
    memoryId ∈ (accumulateSeedScoresDeterministically order scoresBySeed graphScores allLinked).2 ↔
      memoryId ∈ allLinked ∨
        memoryId ∈ scoresBySeed.flatMap fun scores => scores.entries.map Prod.fst := by
  unfold accumulateSeedScoresDeterministically
  dsimp only
  rw [orderBy_contributions, List.mem_append, List.map_flatMap]
  refine or_congr_right ?_
  simp only [List.mem_flatMap, List.map_map, List.mem_map, Function.comp_apply, mem_orderBy]
  constructor
  · rintro ⟨seed, hseed, e, he, rfl⟩
    exact ⟨seed.1, List.fst_mem_of_mem_zipIdx hseed, e, he, rfl⟩
  · rintro ⟨scores, hscores, e, he, rfl⟩
    rw [← List.zipIdx_map_fst 0 scoresBySeed] at hscores
    obtain ⟨seed, hseed, rfl⟩ := List.mem_map.mp hscores
    exact ⟨seed, hseed, e, he, rfl⟩

/-- Accumulating keeps the memories distinct. -/
theorem distinct_accumulate {order : ℕ → HashOrder} {scoresBySeed : List ScoreMap}
    {graphScores : List (String × F32)} {allLinked : List String} (h : Distinct graphScores) :
    Distinct (accumulateSeedScoresDeterministically order scoresBySeed graphScores allLinked).1 :=
  h.upsertAll _ _

/-! ## Event times -/

/-- Setting the event time of a memory again changes nothing. -/
theorem foldl_setTime {times : List UInt64} {ts : UInt64} (h : ∀ t ∈ times, t = ts)
    (entry : Option (UInt64 × F32)) :
    times.foldl (fun entry t => some (setTime entry t)) entry =
      if times = [] then entry else some (ts, (entry.map Prod.snd).getD 0) := by
  induction times generalizing entry with
  | nil => rfl
  | cons t times ih =>
    rw [List.foldl_cons, ih fun u hu => h u (List.mem_cons_of_mem _ hu),
      if_neg (List.cons_ne_nil t times), h t List.mem_cons_self]
    unfold setTime
    split_ifs
    · cases entry <;> rfl
    · cases entry <;> rfl

/-- What is found after the event times of stored memories are set. -/
theorem lookup_upsertAll_setTime {es : List (String × UInt64)}
    (h : ∀ e ∈ es, S.timestampOf e.1 = some e.2) (m : List (String × UInt64 × F32))
    (memoryId : String) :
    (upsertAll setTime m es).lookup memoryId =
      if memoryId ∈ es.map Prod.fst then
        (S.timestampOf memoryId).map fun ts => (ts, ((m.lookup memoryId).map Prod.snd).getD 0)
      else m.lookup memoryId := by
  have hkeys : under memoryId es = [] ↔ memoryId ∉ es.map Prod.fst := by
    rw [List.eq_nil_iff_forall_not_mem, List.mem_map]
    simp
  rw [lookup_upsertAll]
  by_cases hin : memoryId ∈ es.map Prod.fst
  · obtain ⟨⟨key, ts⟩, he, rfl⟩ := List.mem_map.mp hin
    have htime := h _ he
    have hsame : ∀ t ∈ under key es, t = ts := fun t ht =>
      Option.some.inj ((h _ (mem_under.mp ht)).symm.trans htime)
    rw [foldl_setTime hsame, if_pos hin, if_neg fun hnil => hkeys.mp hnil hin, htime]
    rfl
  · rw [hkeys.mpr hin, if_neg hin]
    rfl

/-! ## Memories that the graph leads to -/

/-- The rows of a batch are the stored memories of it. -/
theorem timestampOf_of_mem_batch {memoryIds : List String} {row : String × UInt64 × ℕ}
    (h : row ∈ S.lookupByMemoryIdsBatch memoryIds) :
    row.1 ∈ memoryIds ∧ S.timestampOf row.1 = some row.2.1 := by
  have hlookup := (distinct_lookupByMemoryIdsBatch memoryIds).lookup_eq_some.mpr h
  have hbatch := lookup_lookupByMemoryIdsBatch (S := S) memoryIds row.1
  rw [hlookup, Option.map_some] at hbatch
  split_ifs at hbatch with hin
  exact ⟨hin, hbatch.symm⟩

/-- A lookup finds the memories that are asked for and have a time. -/
theorem mem_keys_batch {memoryIds : List String} {memoryId : String} :
    memoryId ∈ (S.lookupByMemoryIdsBatch memoryIds).map Prod.fst ↔
      memoryId ∈ memoryIds ∧ (S.timestampOf memoryId).isSome := by
  constructor
  · intro hkey
    obtain ⟨row, hrow, rfl⟩ := List.mem_map.mp hkey
    obtain ⟨hin, htime⟩ := timestampOf_of_mem_batch hrow
    exact ⟨hin, Option.isSome_of_eq_some htime⟩
  · rintro ⟨hin, hstored⟩
    obtain ⟨ts, hts⟩ := Option.isSome_iff_exists.mp hstored
    have hbatch := lookup_lookupByMemoryIdsBatch (S := S) memoryIds memoryId
    rw [if_pos hin, hts] at hbatch
    obtain ⟨row, hrow, -⟩ := Option.map_eq_some_iff.mp hbatch
    have hmem := (distinct_lookupByMemoryIdsBatch memoryIds).lookup_eq_some.mp hrow
    exact List.mem_map.mpr ⟨_, hmem, rfl⟩

/-- The edges of stored memories, each with the event time of its memory. -/
theorem reachedEdges_eq (edges : List GraphEdge) :
    (edges.filterMap fun edge => ((S.lookupByMemoryIdsBatch
      (orderBy id (edges.map GraphEdge.memoryId)).dedup).lookup edge.memoryId).map fun row =>
        (edge, row.1)) =
      edges.filterMap fun edge => (S.timestampOf edge.memoryId).map fun ts => (edge, ts) := by
  refine List.filterMap_congr fun edge hedge => ?_
  have hbatch := lookup_lookupByMemoryIdsBatch (S := S)
    (orderBy id (edges.map GraphEdge.memoryId)).dedup edge.memoryId
  rw [if_pos (List.mem_dedup.mpr ((mem_orderBy _ _ _).mpr (List.mem_map_of_mem hedge)))] at hbatch
  rw [← hbatch, Option.map_map]
  rfl

/-- The boosts of the edges of a memory, in turn, if the memory is stored. -/
theorem under_reachedEdges (edges : List GraphEdge) (memoryId : String) :
    under memoryId ((edges.filterMap fun edge => (S.timestampOf edge.memoryId).map fun ts =>
      (edge, ts)).map fun e => (e.1.memoryId, e.1.boost)) =
      if (S.timestampOf memoryId).isSome then
        (edges.filter fun e => e.memoryId = memoryId).map GraphEdge.boost
      else [] := by
  induction edges with
  | nil => split_ifs <;> rfl
  | cons edge edges ih =>
    cases hts : S.timestampOf edge.memoryId with
    | none =>
      rw [List.filterMap_cons_none (by rw [hts]; rfl), ih]
      by_cases hid : edge.memoryId = memoryId
      · rw [← hid, hts]
        rfl
      · rw [List.filter_cons_of_neg (by simpa using hid)]
    | some ts =>
      rw [List.filterMap_cons_some (by rw [hts]; rfl), List.map_cons, under_cons, ih]
      by_cases hid : edge.memoryId = memoryId
      · rw [if_pos hid, ← hid, hts, List.filter_cons_of_pos (by simp)]
        rfl
      · rw [if_neg hid, List.filter_cons_of_neg (by simpa using hid)]

/-- The event times of the edges of stored memories are the stored ones. -/
theorem timestampOf_of_mem_reachedEdges {edges : List GraphEdge} {e : String × UInt64}
    (h : e ∈ (edges.filterMap fun edge => (S.timestampOf edge.memoryId).map fun ts =>
      (edge, ts)).map fun e => (e.1.memoryId, e.2)) :
    e.1 ∈ edges.map GraphEdge.memoryId ∧ S.timestampOf e.1 = some e.2 := by
  obtain ⟨reached, hreached, rfl⟩ := List.mem_map.mp h
  obtain ⟨edge, hedge, hmap⟩ := List.mem_filterMap.mp hreached
  obtain ⟨ts, hts, rfl⟩ := Option.map_eq_some_iff.mp hmap
  exact ⟨List.mem_map_of_mem hedge, hts⟩

/-- The edges that are followed are those to memories with a time. -/
theorem mem_keys_reachedEdges {edges : List GraphEdge} {memoryId : String} :
    memoryId ∈ ((edges.filterMap fun edge => (S.timestampOf edge.memoryId).map fun ts =>
      (edge, ts)).map fun e => (e.1.memoryId, e.2)).map Prod.fst ↔
      memoryId ∈ edges.map GraphEdge.memoryId ∧ (S.timestampOf memoryId).isSome := by
  constructor
  · intro hkey
    obtain ⟨e, he, rfl⟩ := List.mem_map.mp hkey
    obtain ⟨hin, htime⟩ := timestampOf_of_mem_reachedEdges he
    exact ⟨hin, Option.isSome_of_eq_some htime⟩
  · rintro ⟨hin, hstored⟩
    obtain ⟨edge, hedge, rfl⟩ := List.mem_map.mp hin
    obtain ⟨ts, hts⟩ := Option.isSome_iff_exists.mp hstored
    refine List.mem_map.mpr ⟨(edge.memoryId, ts), List.mem_map.mpr ⟨(edge, ts), ?_, rfl⟩, rfl⟩
    exact List.mem_filterMap.mpr ⟨edge, hedge, by rw [hts]; rfl⟩

end

/-! ## The result -/

section

variable (orders : FusionOrders) (S : TenantStore) (walks : FusionWalks) (s : FusionInput)

/-- The item of a memory with what the map of the phase has under it. -/
def FusionInput.fusedEntry (memoryId : String) : Option (UInt64 × F32) :=
  if memoryId ∈ s.reached S walks then
    (S.timestampOf memoryId).map fun ts => (ts, s.fusedScore S memoryId)
  else (under memoryId (s.given S)).head?.map fun first => (first.1, s.fusedScore S memoryId)

/-- A memory that no list gives anything has no score. -/
theorem fusedScore_of_head?_eq_none {memoryId : String}
    (h : (under memoryId (s.given S)).head? = none) : s.fusedScore S memoryId = 0 := by
  unfold FusionInput.fusedScore
  rw [List.head?_eq_none_iff.mp h]
  rfl

variable {orders S walks s}

/-- The map of the phase after the event times of the memories that the graph leads to. -/
theorem lookup_fusedMap {m : List (String × UInt64 × F32)}
    (hm : ∀ memoryId, m.lookup memoryId = (under memoryId (s.given S)).head?.map fun first =>
      (first.1, s.fusedScore S memoryId))
    {es es' : List (String × UInt64)} (hes : ∀ e ∈ es, S.timestampOf e.1 = some e.2)
    (hes' : ∀ e ∈ es', S.timestampOf e.1 = some e.2)
    (hreached : ∀ memoryId, memoryId ∈ s.reached S walks ↔
      memoryId ∈ es.map Prod.fst ∨ memoryId ∈ es'.map Prod.fst) (memoryId : String) :
    (upsertAll setTime (upsertAll setTime m es) es').lookup memoryId =
      s.fusedEntry S walks memoryId := by
  -- The score is that of the first entry.
  have hscore : ((m.lookup memoryId).map Prod.snd).getD 0 = s.fusedScore S memoryId := by
    rw [hm]
    cases hhead : (under memoryId (s.given S)).head? with
    | none => exact (fusedScore_of_head?_eq_none S s hhead).symm
    | some first => rfl
  -- Whoever is listed with a time is stored with it.
  have hstored : ∀ {l : List (String × UInt64)}, (∀ e ∈ l, S.timestampOf e.1 = some e.2) →
      memoryId ∈ l.map Prod.fst → ∃ ts, S.timestampOf memoryId = some ts := by
    intro l hl hin
    obtain ⟨e, he, rfl⟩ := List.mem_map.mp hin
    exact ⟨e.2, hl e he⟩
  unfold FusionInput.fusedEntry
  rw [lookup_upsertAll_setTime hes', lookup_upsertAll_setTime hes, ← hm]
  by_cases hin : memoryId ∈ es.map Prod.fst
  · obtain ⟨ts, hts⟩ := hstored hes hin
    rw [if_pos hin, if_pos ((hreached memoryId).mpr (Or.inl hin)), hscore, hts]
    exact ite_self _
  · rw [if_neg hin, hscore]
    exact if_congr (((hreached memoryId).trans (or_iff_right hin)).symm) rfl rfl

/-- The memories of the map are those of the lists and of the graph. -/
theorem isSome_fusedEntry {memoryId : String} :
    (s.fusedEntry S walks memoryId).isSome ↔
      memoryId ∈ (s.given S).map Prod.fst ++ s.reached S walks := by
  unfold FusionInput.fusedEntry
  rw [List.mem_append, ← isSome_head?_under]
  split_ifs with hin
  · have hstored : (S.timestampOf memoryId).isSome := (List.mem_filter.mp hin).2
    rw [Option.isSome_map]
    exact iff_of_true hstored (.inr hin)
  · rw [or_iff_left hin, Option.isSome_map]

/-- A memory of the map has its item. -/
theorem fusedEntry_eq {memoryId : String} (h : (s.fusedEntry S walks memoryId).isSome) :
    s.fusedEntry S walks memoryId =
      some ((s.fusedItem S walks memoryId).timestamp, (s.fusedItem S walks memoryId).score) := by
  unfold FusionInput.fusedItem
  unfold FusionInput.fusedEntry at h ⊢
  dsimp only
  split_ifs at h ⊢
  · rw [Option.isSome_map] at h
    obtain ⟨ts, hts⟩ := Option.isSome_iff_exists.mp h
    rw [hts]
    rfl
  · rw [Option.isSome_map] at h
    obtain ⟨first, hfirst⟩ := Option.isSome_iff_exists.mp h
    rw [hfirst]
    rfl

/-- The sorted items of the map are those of the ranking. -/
theorem sortByScore_fusedItems {m m' : List (String × UInt64 × F32)} (h : Distinct m)
    (hm : m'.Perm m) (hlookup : ∀ memoryId, m.lookup memoryId = s.fusedEntry S walks memoryId) :
    sortByScore FusedItem.scored (m'.map fun e => (⟨e.1, e.2.1, e.2.2⟩ : FusedItem)) =
      orderBy FusedItem.key (s.fusedItems S walks) := by
  have hspec := distinct_map_key
    (List.nodup_dedup ((s.given S).map Prod.fst ++ s.reached S walks)) fun memoryId =>
      ((s.fusedItem S walks memoryId).timestamp, (s.fusedItem S walks memoryId).score)
  have hperm := perm_of_lookup hspec h fun memoryId => by
    rw [hlookup, lookup_map_key]
    by_cases hin : memoryId ∈ ((s.given S).map Prod.fst ++ s.reached S walks).dedup
    · rw [if_pos hin, fusedEntry_eq (isSome_fusedEntry.mpr (List.mem_dedup.mp hin))]
    · have hnone : ¬ (s.fusedEntry S walks memoryId).isSome := fun hsome =>
        hin (List.mem_dedup.mpr (isSome_fusedEntry.mp hsome))
      rw [if_neg hin, Option.not_isSome_iff_eq_none.mp hnone]
  have hnumbers : ∀ item ∈ m'.map fun e => (⟨e.1, e.2.1, e.2.2⟩ : FusedItem),
      item.scored.2 ≠ .nan := by
    intro item hitem
    obtain ⟨e, he, rfl⟩ := List.mem_map.mp hitem
    obtain ⟨memoryId, -, rfl⟩ := List.mem_map.mp (hperm.mem_iff.mpr (hm.mem_iff.mp he))
    exact ne_nan_of_zero_le (s.zero_le_fusedScore memoryId)
  rw [sortByScore_eq hnumbers]
  refine (h.orderBy_key hm).trans ?_
  rw [← h.orderBy_key hperm, List.map_map]
  rfl

/-- The memories of the seeds' scores are noted. -/
theorem mem_accumulated {memoryId : String} :
    memoryId ∈ (s.accumulated orders walks (s.seedTop S)).2 ↔
      memoryId ∈ (s.seedScores S walks).flatMap fun scores => scores.entries.map Prod.fst := by
  unfold FusionInput.accumulated FusionInput.seedScores
  rw [mem_accumulate, mem_accumulate, List.flatMap_append, List.mem_append]
  simp

/-- The accumulated scores name a memory once. -/
theorem distinct_accumulated {seedTop : List String} :
    Distinct (s.accumulated orders walks seedTop).1 :=
  distinct_accumulate (distinct_accumulate distinct_nil)

/-- The boosts of the seeds' scores are added up in turn. -/
theorem lookup_accumulated (orders : FusionOrders) (S : TenantStore) (walks : FusionWalks)
    (s : FusionInput) (memoryId : String) :
    (s.accumulated orders walks (s.seedTop S)).1.lookup memoryId =
      ((s.seedScores S walks).filterMap fun scores => scores.entries.lookup memoryId).foldl
        (fun score boost => some (addBoost score boost)) none := by
  unfold FusionInput.accumulated FusionInput.seedScores
  rw [lookup_accumulate, lookup_accumulate, List.filterMap_append, List.foldl_append]
  rfl

/-- Boosts added up in turn. -/
theorem foldl_addBoost (boosts : List F32) :
    boosts.foldl (fun score boost => some (addBoost score boost)) none =
      if boosts = [] then none else some (boosts.foldl (· + ·) 0) := by
  cases boosts with
  | nil => rfl
  | cons boost boosts =>
    rw [foldl_some_eq, if_neg (List.cons_ne_nil _ _)]
    rfl

/-- What the phase is to leave: the items of the lists and of the graph ranked by their scores, of
which none is below zero or `nan`, and the boosts of each memory added up. -/
structure FusionInput.Ranks (S : TenantStore) (walks : FusionWalks) (s : FusionInput)
    (result : FusionResult) : Prop where
  items : result.items = (orderBy FusedItem.key (s.fusedItems S walks)).take s.hydrationCap
  numbers : ∀ item ∈ result.items, 0 ≤ item.score ∧ item.score ≠ .nan
  distinct : Distinct result.graphScores
  graphScores : ∀ memoryId, result.graphScores.lookup memoryId =
    if s.boosts S walks memoryId = [] then none
    else some (calibrated ((s.boosts S walks memoryId).foldl (· + ·) 0))

variable (orders S walks)

/-- If the cross-encoder gives numbers: however the maps are iterated, the phase ranks the items of
the lists and of the graph by their scores, and adds up each score in the order of the lists and of
the seeds. -/
theorem fusion_exact (hneural : ∀ e ∈ s.neuralScores.entries, e.2 ≠ .nan) :
    s.Ranks S walks (fusionPhase orders S walks s) := by
  unfold fusionPhase
  dsimp only
  -- The cross-encoder's scores are sorted, so the order of its map does not show.
  rw [FusionInput.rankedSources_congr hneural S (orders.neural.iterate_perm _)]
  -- The fused items can be looked up, and whatever order they are in does not matter.
  have hmerged := lookup_mergeFusedItems (s := s) (S := S) orders.rrf
  generalize hm : mergeFusedItems (weightedReciprocalRankFusion orders.rrf
    (s.rankedSources S s.neuralScores.entries) (adaptiveRrfK s.plan)) = m at hmerged ⊢
  have hdistinct : Distinct m := hm ▸ distinct_mergeFusedItems _
  rw [seedTop_eq hdistinct hmerged orders.fused, reachedEdges_eq]
  generalize hr : s.accumulated orders walks (s.seedTop S) = r
  -- The walks add the memories that they reach.
  have hlinked : ∀ memoryId, memoryId ∈ r.2 ↔
      memoryId ∈ (s.seedScores S walks).flatMap fun scores => scores.entries.map Prod.fst :=
    fun memoryId => hr ▸ mem_accumulated
  have hscores := fun memoryId => lookup_accumulated orders S walks s memoryId
  have hgraph : Distinct r.1 := hr ▸ distinct_accumulated
  rw [hr] at hscores
  -- Their times are read in one batch.
  have hbatch := (orders.lookup.iterate_perm (S.lookupByMemoryIdsBatch (orderBy id r.2).dedup))
  generalize orders.lookup.iterate (S.lookupByMemoryIdsBatch (orderBy id r.2).dedup) = rows
    at hbatch ⊢
  have htimes : ∀ e ∈ rows.map fun e => (e.1, e.2.1), S.timestampOf e.1 = some e.2 := by
    intro e he
    obtain ⟨row, hrow, rfl⟩ := List.mem_map.mp he
    exact (timestampOf_of_mem_batch (hbatch.mem_iff.mp hrow)).2
  have hlinkedKeys : ∀ memoryId, memoryId ∈ (rows.map fun e => (e.1, e.2.1)).map Prod.fst ↔
      memoryId ∈ r.2 ∧ (S.timestampOf memoryId).isSome := by
    intro memoryId
    rw [List.map_map]
    refine ((hbatch.map Prod.fst).mem_iff.trans mem_keys_batch).trans (and_congr_left' ?_)
    rw [List.mem_dedup, mem_orderBy]
  -- What is found of a memory is its fused score and its time.
  have hentry := lookup_fusedMap hmerged htimes
    (fun e he => (timestampOf_of_mem_reachedEdges he).2) fun memoryId => by
      rw [hlinkedKeys, mem_keys_reachedEdges, ← or_and_right, hlinked]
      unfold FusionInput.reached
      rw [List.mem_filter, List.mem_append]
  have hfused := (hdistinct.upsertAll setTime (rows.map fun e => (e.1, e.2.1))).upsertAll setTime
    (((s.batchedEdges S).filterMap fun edge => (S.timestampOf edge.memoryId).map fun ts =>
      (edge, ts)).map fun e => (e.1.memoryId, e.2))
  rw [sortByScore_fusedItems hfused (orders.items.iterate_perm _) hentry]
  -- The result is sorted by scores, none of which is negative or NaN.
  refine ⟨rfl, fun item hitem => ?_, (hgraph.upsertAll _ _).map_snd calibrated, fun memoryId => ?_⟩
  · have hmem := (mem_orderBy _ _ _).mp (List.mem_of_mem_take hitem)
    obtain ⟨memoryId, -, rfl⟩ := List.mem_map.mp hmem
    have hscore := s.zero_le_fusedScore (S := S) memoryId
    exact ⟨hscore, ne_nan_of_zero_le hscore⟩
  -- The graph scores are the walks' and the edges' in turn.
  · rw [lookup_map_snd, lookup_upsertAll, under_reachedEdges, hscores, ← List.foldl_append]
    change Option.map calibrated (List.foldl _ _ (s.boosts S walks memoryId)) = _
    rw [foldl_addBoost]
    split_ifs <;> rfl

end

/-- The memories of three directions, the first of them linked to the last. -/
def linkedStore : TenantStore :=
  directionStore.step (fun _ _ => 0)
    (.commit .insertion ⟨2, 2, 2⟩ { memoryLinksBatch := [("near", "away", "derived")] })

/-- The cross-encoder has scored two memories, which are found in the other order, and the graph
starts from the best one. -/
def scoredQuery : FusionInput where
  plan := .default
  textualQuery := "where is it"
  entityId := some "alice"
  semanticRankedLists := [(1, [⟨"next", 3000⟩, ⟨"near", 1000⟩])]
  ftsRankedLists := []
  cardRankedItems := []
  neuralScores := ⟨[("near", 2), ("next", 1)], (by decide : ["near", "next"].Nodup)⟩
  cardBoost := 1
  cardBoostStrong := 1
  cardBoostMedium := 1
  graphSeedCount := 1
  graphLane := true
  derivedLinks := true
  retrospectiveLinks := true
  graphEdges := true
  cardLimit := 48

/-- The fusion for that query, with the walks over the store. The linked memory comes third. -/
theorem fusion_scored :
    let walks := FusionWalks.ofStore linkedStore (fun _ => false) 2 40 .general
    let orders : FusionOrders := ⟨.insertion, .insertion, .insertion, fun _ => .insertion,
      fun _ => .insertion, .insertion, .insertion⟩
    let result := fusionPhase orders linkedStore walks scoredQuery
    scoredQuery.Ranks linkedStore walks result ∧
      result.items.map FusedItem.memoryId = ["near", "next", "away"] := by
  intro walks orders result
  refine ⟨fusion_exact orders linkedStore walks fun e he => ?_, by decide +kernel⟩
  have hscored : e = ("near", 2) ∨ e = ("next", 1) := by
    simpa [scoredQuery] using he
  rcases hscored with rfl | rfl
  all_goals exact Number.round_ne_nan _

end Tellodb
