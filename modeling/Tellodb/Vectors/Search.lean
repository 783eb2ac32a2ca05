import Tellodb.Vectors.Index
import Mathlib.Algebra.Order.Ring.Rat
import Mathlib.Order.OrderDual

/-!
# The search of the vector index

`VectorIndex::search` of `vector_index.rs`. A flat segment is scanned: its rows are ordered by their
similarity to the query, rows that are as similar by their place, and cut after as many as are asked
for (`FlatSegment.scan`). What is left is ordered by similarity and identifier. So two rows that are
as similar may be told apart by their places, which a removal changes, where the identifiers were to
decide (`VectorIndex.search_flat_iff`). -/

namespace Tellodb

open Relational

/-- `VectorConfig` for a search. Similarities are numbers of `f32` other than `NaN`. -/
structure SearchConfig (γ V D : Type) extends VectorConfig γ where
  dimensions : ℕ
  /-- `quantization == Quantization::F32` -/
  isExact : Bool
  rescoreFactor : ℕ
  /-- The similarity of a code to a query, as a scan computes it. -/
  similarity : List ℚ → γ → V
  /-- `dot_f32(query, normalized(v))` -/
  fullSimilarity : List ℚ → List ℚ → V
  /-- `1.0 - sim` -/
  distance : V → D

/-- `usize::MAX` -/
def usizeMax : ℕ := 2^64 - 1

section

variable {γ V : Type} [LinearOrder V]

/-- The order of a scan: the more similar row first, and of rows as similar the one in front. -/
def scanKey (x : (ℕ × V) × ℕ) : Vᵒᵈ ×ₗ ℕ :=
  toLex (OrderDual.toDual x.1.2, x.2)

/-- The order of the hits: the more similar one first, and of hits as similar the one with the
smaller identifier. -/
def hitKey (hit : ℕ × V) : Vᵒᵈ ×ₗ ℕ :=
  toLex (OrderDual.toDual hit.2, hit.1)

/-- The rows of a segment with their similarities, each with its place. -/
def FlatSegment.scored (s : FlatSegment γ) (similarity : γ → V) : List ((ℕ × V) × ℕ) :=
  (s.rows.map fun row => (row.1, similarity row.2)).zipIdx

/-- `FlatSegment::scan` -/
def FlatSegment.scan (s : FlatSegment γ) (similarity : γ → V) (k : ℕ) : List (ℕ × V) :=
  ((orderBy scanKey (s.scored similarity)).take k).map Prod.fst

end

section

variable {γ V D : Type} [LinearOrder V] {H : Hnsw γ} (config : SearchConfig γ V D)
  -- `HnswSegment::search`
  (graphSearch : H.Graph → List ℚ → ℕ → List (ℕ × V))

/-- What a segment has for a query. -/
def Segment.hits (query : List ℚ) (candidates : ℕ) : Segment H → List (ℕ × V)
  | .flat s => s.scan (config.similarity query) candidates
  | .hnsw g => graphSearch g query candidates

/-- `SqliteVectorSource::entities` -/
def TenantStore.vectorEntities (S : TenantStore) : List String :=
  (orderBy id (S.vectorLookup.rows.map VectorRow.entityId)).dedup

namespace VectorIndex

/-- The hits of some entities, and the index with their segments loaded. -/
def entityHits (S : TenantStore) (query : List ℚ) (candidates : ℕ) (index : VectorIndex H) :
    List String → List (ℕ × V) × VectorIndex H
  | [] => ([], index)
  | entityId :: rest =>
    let index := index.load config.toVectorConfig entityId (S.entityVectors entityId)
    let hits := (index.segments entityId).elim [] (Segment.hits config graphSearch query candidates)
    let more := entityHits S query candidates index rest
    (hits ++ more.1, more.2)

/-- Hits of a quantized search with the similarities of the stored vectors. -/
def rescored (S : TenantStore) (query : List ℚ) (hits : List (ℕ × V)) : List (ℕ × V) :=
  hits.filterMap fun hit => (S.vectorLookup.find? hit.1).map fun v =>
    (hit.1, config.fullSimilarity query v.embedding)

/-- `VectorIndex::search` -/
def search (index : VectorIndex H) (S : TenantStore) (entityId : Option String) (query : List ℚ)
    (limit : ℕ) : Except String (List (ℕ × D)) × VectorIndex H :=
  if query.length ≠ config.dimensions then
    (.error ("vector has dimension " ++ toString query.length ++ " (expected " ++
      toString config.dimensions ++ ")"), index)
  else if limit = 0 then (.ok [], index)
  else
    let candidates := if config.isExact then limit else min (limit * config.rescoreFactor) usizeMax
    let found := index.entityHits config graphSearch S query candidates
      (entityId.elim S.vectorEntities fun entityId => [entityId])
    let hits := if config.isExact then found.1 else rescored config S query found.1
    (.ok (((orderBy hitKey hits).take limit).map fun hit => (hit.1, config.distance hit.2)),
      found.2)

end VectorIndex

end

/-! ## The statement -/

section

variable {γ V D : Type} [LinearOrder V] [LinearOrder D] (config : SearchConfig γ V D)

/-- The place of a vector among the results: nearer ones first, and of vectors as near the one with
the smaller identifier. -/
def distanceKey (hit : ℕ × D) : D ×ₗ ℕ :=
  toLex (hit.2, hit.1)

/-- The nearest of some vectors to a query. -/
def nearest (query : List ℚ) (entries : List (ℕ × γ)) (k : ℕ) : List (ℕ × D) :=
  (orderBy distanceKey (entries.map fun e =>
    (e.1, config.distance (config.similarity query e.2)))).take k

/-- The vectors of an entity in the source, encoded. -/
def TenantStore.entries (S : TenantStore) (entityId : String) : List (ℕ × γ) :=
  (S.entityVectors entityId).map fun v => (v.1, config.encode v.2)

/-- How many rows a scan puts before a row. -/
def FlatSegment.before (s : FlatSegment γ) (similarity : γ → V) (x : (ℕ × V) × ℕ) : ℕ :=
  ((s.scored similarity).filter fun y => scanKey y < scanKey x).length

/-- A vector that belongs behind another one, at the same distance and with the larger identifier,
gets ahead of it: fewer than `k` rows come before it, and the other one is less similar, as far as
the distance does not tell, or as similar with `k` rows before it. -/
def FlatSegment.Misplaces (s : FlatSegment γ) (query : List ℚ) (k : ℕ) : Prop :=
  ∃ x ∈ s.scored (config.similarity query), ∃ y ∈ s.scored (config.similarity query),
    y.1.1 < x.1.1 ∧ config.distance x.1.2 = config.distance y.1.2 ∧
      s.before (config.similarity query) x < k ∧
        (y.1.2 < x.1.2 ∨
          (y.1.2 = x.1.2 ∧ k ≤ s.before (config.similarity query) y))

instance (s : FlatSegment γ) (query : List ℚ) (k : ℕ) : Decidable (s.Misplaces config query k) :=
  inferInstanceAs (Decidable (∃ x ∈ s.scored (config.similarity query),
    ∃ y ∈ s.scored (config.similarity query), y.1.1 < x.1.1 ∧
      config.distance x.1.2 = config.distance y.1.2 ∧ s.before (config.similarity query) x < k ∧
        (y.1.2 < x.1.2 ∨ (y.1.2 = x.1.2 ∧ k ≤ s.before (config.similarity query) y))))

end

/-! ## The source -/

section

variable {γ V D : Type} {config : SearchConfig γ V D}

/-- A segment that mirrors the source holds its vectors. -/
theorem perm_entries {H : Hnsw γ} {index : VectorIndex H} {S : TenantStore} {entityId : String}
    (hmirrors : index.Mirrors config.toVectorConfig S)
    {s : FlatSegment γ}
    (hflat : (index.load config.toVectorConfig entityId (S.entityVectors entityId)).segments
      entityId = some (.flat s)) : s.rows.Perm (S.entries config entityId) := by
  -- The segment holds what is stored, and no identifier twice on either side.
  have hheld : s.find? = storedCode config.toVectorConfig S.vectorLookup entityId := by
    have hload := VectorIndex.held_load_self hmirrors entityId
    unfold VectorIndex.held at hload
    rw [hflat] at hload
    exact Option.some.inj hload
  have hnodup : (S.entries config entityId).Nodup := by
    refine List.Nodup.of_map Prod.fst ?_
    unfold TenantStore.entries TenantStore.entityVectors
    rw [List.map_map, List.map_map]
    exact ((orderBy_perm _ _).map _).nodup_iff.mpr
      (S.vectorLookup.keyed.sublist (List.filter_sublist.map _))
  refine (List.perm_ext_iff_of_nodup s.keyed.of_map hnodup).mpr fun entry => ?_
  obtain ⟨id, code⟩ := entry
  rw [← FlatSegment.find?_eq_some, hheld, storedCode_eq_some]
  unfold TenantStore.entries TenantStore.entityVectors
  rw [List.map_map, List.mem_map]
  constructor
  · rintro ⟨v, hv, rfl, hentity, rfl⟩
    exact ⟨v, (mem_orderBy _ _ _).mpr (List.mem_filter.mpr ⟨hv, decide_eq_true hentity⟩), rfl⟩
  · rintro ⟨v, hv, heq⟩
    obtain ⟨hv, hentity⟩ := List.mem_filter.mp ((mem_orderBy _ _ _).mp hv)
    obtain ⟨rfl, rfl⟩ := Prod.mk.inj heq
    exact ⟨v, hv, rfl, of_decide_eq_true hentity, rfl⟩

end

/-! ## Flat segments -/

/-- A row is known by its key. -/
theorem distanceKey_injective {D : Type} :
    Function.Injective (distanceKey : ℕ × D → D ×ₗ ℕ) := by
  intro a b h
  have hpair := toLex.injective h
  exact Prod.ext (congrArg Prod.snd hpair) (congrArg Prod.fst hpair)

/-- The rows of a scan are told apart by their places. -/
theorem FlatSegment.keyed_scored {γ V : Type} (s : FlatSegment γ) (similarity : γ → V) :
    Keyed scanKey (s.scored similarity) := by
  have hplaces : ((s.scored similarity).map Prod.snd).Nodup := by
    unfold FlatSegment.scored
    rw [List.zipIdx_map_snd]
    exact List.nodup_range' _
  refine List.Nodup.of_map (fun key => (ofLex key).2) ?_
  rw [List.map_map]
  exact hplaces

section

variable {γ V D : Type} [LinearOrder V] [LinearOrder D] {config : SearchConfig γ V D}
  {s : FlatSegment γ} {query : List ℚ} {k : ℕ}

/-- The distance and the identifier of a scored row. -/
def SearchConfig.rowKey (config : SearchConfig γ V D) (x : (ℕ × V) × ℕ) : D ×ₗ ℕ :=
  toLex (config.distance x.1.2, x.1.1)

/-- A row that is scanned first belongs behind another one only at the same distance, with the
larger identifier. -/
theorem not_rowKey_le_iff (hdistance : Antitone config.distance) {x y : (ℕ × V) × ℕ}
    (h : y.1.2 ≤ x.1.2) : ¬ config.rowKey x ≤ config.rowKey y ↔
      config.distance x.1.2 = config.distance y.1.2 ∧ y.1.1 < x.1.1 := by
  have hle := hdistance h
  unfold SearchConfig.rowKey
  rw [not_le, Prod.Lex.toLex_lt_toLex]
  constructor
  · rintro (hlt | ⟨heq, hid⟩)
    · exact absurd hlt (not_lt_of_ge hle)
    · exact ⟨heq.symm, hid⟩
  · rintro ⟨heq, hid⟩
    exact .inr ⟨heq.symm, hid⟩

/-- A row that is scanned first is at least as similar. -/
theorem similar_of_scanKey {x y : (ℕ × V) × ℕ} (h : scanKey x < scanKey y) : y.1.2 ≤ x.1.2 := by
  unfold scanKey at h
  rcases Prod.Lex.toLex_lt_toLex.mp h with hlt | ⟨heq, -⟩
  · exact le_of_lt (OrderDual.toDual_lt_toDual.mp hlt)
  · exact (OrderDual.toDual_inj.mp heq).ge

/-- Nothing is misplaced exactly if no row behind the cut belongs before one that is kept, and no
row that is kept before a more similar one. -/
theorem FlatSegment.not_misplaces_iff (hdistance : Antitone config.distance) :
    ¬ s.Misplaces config query k ↔
      (∀ x ∈ (orderBy scanKey (s.scored (config.similarity query))).take k,
        ∀ y ∈ (orderBy scanKey (s.scored (config.similarity query))).drop k,
          config.rowKey x ≤ config.rowKey y) ∧
      ∀ x ∈ (orderBy scanKey (s.scored (config.similarity query))).take k,
        ∀ y ∈ (orderBy scanKey (s.scored (config.similarity query))).take k,
          y.1.2 < x.1.2 → config.rowKey x ≤ config.rowKey y := by
  have hkeyed := s.keyed_scored (config.similarity query)
  have hsorted := hkeyed.orderBy_pairwise
  -- What is behind the cut comes after what is before it.
  rw [← List.take_append_drop k (orderBy scanKey (s.scored (config.similarity query)))] at hsorted
  have hcross := (List.pairwise_append.mp hsorted).2.2
  have hrow : ∀ {x}, x ∈ (orderBy scanKey (s.scored (config.similarity query))).take k →
      x ∈ s.scored (config.similarity query) :=
    fun hx => (mem_orderBy _ _ _).mp (List.mem_of_mem_take hx)
  have hkept : ∀ {x}, x ∈ s.scored (config.similarity query) →
      (x ∈ (orderBy scanKey (s.scored (config.similarity query))).take k ↔
        s.before (config.similarity query) x < k) := fun hx => hkeyed.mem_take_orderBy_iff hx
  -- A pair in the wrong order would be misplaced, across the cut or before it.
  constructor
  · intro hnone
    refine ⟨fun x hx y hy => ?_, fun x hx y hy hsimilar => ?_⟩
    · by_contra hle
      have hscan := hcross x hx y hy
      -- The scan puts a row first only by its similarity or its place.
      obtain ⟨hsame, hid⟩ := (not_rowKey_le_iff hdistance (similar_of_scanKey hscan)).mp hle
      have hy' : y ∈ s.scored (config.similarity query) :=
        (mem_orderBy _ _ _).mp (List.mem_of_mem_drop hy)
      have hout : ¬ s.before (config.similarity query) y < k := by
        rw [← hkept hy']
        exact fun hmem => lt_irrefl _ (hcross y hmem y hy)
      refine hnone ⟨x, hrow hx, y, hy', hid, hsame, (hkept (hrow hx)).mp hx, ?_⟩
      rcases lt_or_eq_of_le (similar_of_scanKey hscan) with hlt | heq
      · exact .inl hlt
      · exact .inr ⟨heq, not_lt.mp hout⟩
    · by_contra hle
      obtain ⟨hsame, hid⟩ := (not_rowKey_le_iff hdistance (le_of_lt hsimilar)).mp hle
      exact hnone ⟨x, hrow hx, y, hrow hy, hid, hsame, (hkept (hrow hx)).mp hx, .inl hsimilar⟩
  · rintro ⟨hcut, horder⟩ ⟨x, hx, y, hy, hid, hsame, hbefore, hbehind⟩
    have hxkept := (hkept hx).mpr hbefore
    -- The row that is placed first is at least as similar.
    have hsimilar : y.1.2 ≤ x.1.2 := by
      rcases hbehind with hlt | ⟨heq, -⟩
      · exact le_of_lt hlt
      · exact heq.le
    refine (not_rowKey_le_iff hdistance hsimilar).mpr ⟨hsame, hid⟩ ?_
    have hall := (mem_orderBy scanKey _ y).mpr hy
    rw [← List.take_append_drop k (orderBy scanKey (s.scored (config.similarity query))),
      List.mem_append] at hall
    -- The other row is behind the first one, before the cut or after it.
    rcases hall with hykept | hyout
    · rcases hbehind with hlt | ⟨-, hle⟩
      · exact horder x hxkept y hykept hlt
      · exact absurd ((hkept hy).mp hykept) (not_lt.mpr hle)
    · exact hcut x hxkept y hyout

/-- The hits of a flat segment, in their final order, are the nearest vectors exactly if nothing is
misplaced. -/
theorem FlatSegment.hits_eq_nearest_iff (hdistance : Antitone config.distance)
    {entries : List (ℕ × γ)} (hentries : s.rows.Perm entries) :
    ((orderBy hitKey (s.scan (config.similarity query) k)).take k).map
        (fun hit => (hit.1, config.distance hit.2)) = nearest config query entries k ↔
      ¬ s.Misplaces config query k := by
  have hlength : (s.scan (config.similarity query) k).length ≤ k := by
    unfold FlatSegment.scan
    rw [List.length_map, List.length_take]
    omega
  rw [List.take_of_length_le ((orderBy_perm _ _).length_eq.trans_le hlength),
    s.not_misplaces_iff hdistance]
  have hkeys : ∀ rows : List ((ℕ × V) × ℕ), rows.map config.rowKey =
      ((rows.map Prod.fst).map fun hit => (hit.1, config.distance hit.2)).map distanceKey := by
    intro rows
    rw [List.map_map, List.map_map]
    rfl
  have hfst : (s.scored (config.similarity query)).map Prod.fst =
      s.rows.map fun row => (row.1, config.similarity query row.2) := List.zipIdx_map_fst _ _
  have hrows : ((s.scored (config.similarity query)).map config.rowKey).Perm
      ((entries.map fun e => (e.1, config.distance (config.similarity query e.2))).map
        distanceKey) := by
    have hnear : ((s.rows.map fun row => (row.1, config.similarity query row.2)).map
        fun hit => (hit.1, config.distance hit.2)) =
          s.rows.map fun e => (e.1, config.distance (config.similarity query e.2)) := by
      rw [List.map_map]
      rfl
    rw [hkeys, hfst, hnear]
    exact (hentries.map _).map _
  have hcut := perm_take_orderBy_iff scanKey hrows k
  -- The hits have the keys of the rows that are kept.
  have hhits : (((orderBy hitKey (s.scan (config.similarity query) k)).map
      fun hit => (hit.1, config.distance hit.2)).map distanceKey).Perm
        (((orderBy scanKey (s.scored (config.similarity query))).take k).map config.rowKey) := by
    rw [hkeys]
    exact ((orderBy_perm _ _).map _).map _
  have hnearest : ((nearest config query entries k).map distanceKey).Pairwise fun a b => a ≤ b :=
    List.pairwise_map.mpr ((orderBy_pairwise_le _ _).sublist (List.take_sublist _ _))
  have hordered : (orderBy hitKey (s.scan (config.similarity query) k)).Pairwise
      fun a b => hitKey a ≤ hitKey b := orderBy_pairwise_le _ _
  constructor
  · intro heq
    refine ⟨hcut.mp (hhits.symm.trans (by rw [heq]; exact List.Perm.refl _)),
      fun x hx y hy hsimilar => ?_⟩
    rw [← heq, List.map_map, List.pairwise_map] at hnearest
    -- The hits are in both orders, so those of a larger similarity come first in both.
    have hboth : ∀ a ∈ orderBy hitKey (s.scan (config.similarity query) k),
        ∀ b ∈ orderBy hitKey (s.scan (config.similarity query) k), b.2 < a.2 →
          distanceKey (a.1, config.distance a.2) ≤ distanceKey (b.1, config.distance b.2) := by
      have hforward : (orderBy hitKey (s.scan (config.similarity query) k)).Pairwise fun a b =>
          b.2 < a.2 → distanceKey (a.1, config.distance a.2) ≤
            distanceKey (b.1, config.distance b.2) := by
        refine hnearest.imp ?_
        intro a b hab _
        exact hab
      refine List.Pairwise.forall_of_forall_of_flip (fun a _ h => absurd h (lt_irrefl _))
        hforward (hordered.imp fun {a b} hab hlt => ?_)
      exact absurd hab (not_le.mpr (Prod.Lex.toLex_lt_toLex.mpr
        (.inl (OrderDual.toDual_lt_toDual.mpr hlt))))
    have hmem : ∀ {z}, z ∈ (orderBy scanKey (s.scored (config.similarity query))).take k →
        z.1 ∈ orderBy hitKey (s.scan (config.similarity query) k) :=
      fun hz => (mem_orderBy _ _ _).mpr (List.mem_map_of_mem hz)
    exact hboth x.1 (hmem hx) y.1 (hmem hy) hsimilar
  · rintro ⟨hparts, horder⟩
    have hsorted : (((orderBy hitKey (s.scan (config.similarity query) k)).map
        fun hit => (hit.1, config.distance hit.2)).map distanceKey).Pairwise fun a b => a ≤ b := by
      rw [List.map_map, List.pairwise_map]
      refine hordered.imp_of_mem fun {a b} ha hb hab => ?_
      obtain ⟨x, hx, rfl⟩ := List.mem_map.mp ((mem_orderBy _ _ _).mp ha)
      obtain ⟨y, hy, rfl⟩ := List.mem_map.mp ((mem_orderBy _ _ _).mp hb)
      rcases Prod.Lex.toLex_le_toLex.mp hab with hlt | ⟨heq, hid⟩
      · exact horder x hx y hy (OrderDual.toDual_lt_toDual.mp hlt)
      · exact Prod.Lex.toLex_le_toLex.mpr
          (.inr ⟨congrArg config.distance (OrderDual.toDual_inj.mp heq), hid⟩)
    have hsame := (hhits.trans (hcut.mpr hparts)).eq_of_sortedLE hsorted.sortedLE hnearest.sortedLE
    exact List.map_injective_iff.mpr distanceKey_injective hsame

end

/-- A search of one entity with a flat segment scans it. -/
theorem search_of_flat {γ V D : Type} [LinearOrder V] {config : SearchConfig γ V D} {H : Hnsw γ}
    {index : VectorIndex H} {S : TenantStore} {entityId : String} {query : List ℚ}
    {s : FlatSegment γ} {k : ℕ} (graphSearch : H.Graph → List ℚ → ℕ → List (ℕ × V))
    (hexact : config.isExact = true)
    (hquery : query.length = config.dimensions)
    (hflat : (index.load config.toVectorConfig entityId (S.entityVectors entityId)).segments
      entityId = some (.flat s)) :
    (index.search config graphSearch S (some entityId) query k).1 =
      .ok (((orderBy hitKey (s.scan (config.similarity query) k)).take k).map
        fun hit => (hit.1, config.distance hit.2)) := by
  unfold VectorIndex.search
  rw [if_neg (not_not.mpr hquery)]
  by_cases hk : k = 0
  · rw [if_pos hk, hk]
    rfl
  · rw [if_neg hk]
    dsimp only [VectorIndex.entityHits, Option.elim_some]
    rw [hexact, if_pos rfl, if_pos rfl, hflat, Option.elim_some, List.append_nil]
    rfl

/-- For every flat segment of exact vectors that mirrors its source, every query and every number of
results: a search returns the nearest vectors of the source exactly if the segment misplaces
none. -/
theorem search_flat_iff {γ V D : Type} [LinearOrder V] [LinearOrder D] {config : SearchConfig γ V D}
    {H : Hnsw γ} {index : VectorIndex H} {S : TenantStore} {entityId : String} {query : List ℚ}
    {s : FlatSegment γ} (graphSearch : H.Graph → List ℚ → ℕ → List (ℕ × V))
    (hdistance : Antitone config.distance) (hexact : config.isExact = true)
    (hquery : query.length = config.dimensions)
    (hmirrors : index.Mirrors config.toVectorConfig S)
    (hflat : (index.load config.toVectorConfig entityId (S.entityVectors entityId)).segments
      entityId = some (.flat s)) (limit : ℕ) :
    (index.search config graphSearch S (some entityId) query limit).1 =
        .ok (nearest config query (S.entries config entityId) limit) ↔
      ¬ s.Misplaces config query limit := by
  rw [search_of_flat graphSearch hexact hquery hflat,
    ← s.hits_eq_nearest_iff hdistance (perm_entries hmirrors hflat)]
  exact ⟨Except.ok.inj, congrArg Except.ok⟩

/-! ## Hits -/

section

variable {γ V D : Type} [LinearOrder V] {config : SearchConfig γ V D} {H : Hnsw γ}
  {graphSearch : H.Graph → List ℚ → ℕ → List (ℕ × V)} {index : VectorIndex H} {S : TenantStore}
  {entityId : String} {query : List ℚ} {limit : ℕ}

/-- A search of a graph finds vectors that it holds, with their similarities. -/
def FindsHeld (config : SearchConfig γ V D) (graphSearch : H.Graph → List ℚ → ℕ → List (ℕ × V)) :
    Prop :=
  ∀ g query k, ∀ hit ∈ graphSearch g query k, ∃ code, H.find? g hit.1 = some code ∧
    hit.2 = config.similarity query code

/-- The similarity of a stored vector to a query, as a search has it. -/
def SearchConfig.storedSimilarity (config : SearchConfig γ V D) (query v : List ℚ) : V :=
  if config.isExact then config.similarity query (config.encode v)
  else config.fullSimilarity query v

/-- A hit of a scan is a row with its similarity. -/
theorem FlatSegment.exists_of_mem_scan {s : FlatSegment γ} {similarity : γ → V} {k : ℕ}
    {hit : ℕ × V} (h : hit ∈ s.scan similarity k) :
    ∃ code, s.find? hit.1 = some code ∧ hit.2 = similarity code := by
  obtain ⟨x, hx, rfl⟩ := List.mem_map.mp h
  have hscored := (mem_orderBy _ _ _).mp (List.mem_of_mem_take hx)
  have hfst : x.1 ∈ s.rows.map fun row => (row.1, similarity row.2) := by
    rw [← List.zipIdx_map_fst 0 (s.rows.map fun row => (row.1, similarity row.2))]
    exact List.mem_map_of_mem hscored
  obtain ⟨row, hrow, heq⟩ := List.mem_map.mp hfst
  rw [← heq]
  exact ⟨row.2, FlatSegment.find?_eq_some.mpr hrow, rfl⟩

/-- A scan for more rows has those of one for fewer. -/
theorem FlatSegment.scan_subset (s : FlatSegment γ) (similarity : γ → V) {k k' : ℕ} (h : k ≤ k') :
    s.scan similarity k ⊆ s.scan similarity k' :=
  List.map_subset _ (List.take_subset_take_left _ h)

/-- A scan has no identifier twice. -/
theorem FlatSegment.nodup_scan (s : FlatSegment γ) (similarity : γ → V) (k : ℕ) :
    ((s.scan similarity k).map Prod.fst).Nodup := by
  have hscored : (((s.scored similarity).map Prod.fst).map Prod.fst).Nodup := by
    unfold FlatSegment.scored
    rw [List.zipIdx_map_fst, List.map_map]
    exact s.keyed
  unfold FlatSegment.scan
  rw [List.map_map] at hscored ⊢
  have hperm := (orderBy_perm scanKey (s.scored similarity)).map (Prod.fst ∘ Prod.fst)
  exact (hperm.nodup_iff.mpr hscored).sublist ((List.take_sublist k _).map _)

/-- A hit of an entity's segment is a stored vector of the entity, with its similarity. -/
theorem stored_of_segmentHit (hmirrors : index.Mirrors config.toVectorConfig S)
    (hfinds : FindsHeld config graphSearch) {candidates : ℕ} {hit : ℕ × V}
    (h : hit ∈ ((index.load config.toVectorConfig entityId (S.entityVectors entityId)).segments
      entityId).elim [] (Segment.hits config graphSearch query candidates)) :
    ∃ v ∈ S.vectorLookup.rows, v.vectorId = hit.1 ∧ v.entityId = entityId ∧
      hit.2 = config.similarity query (config.encode v.embedding) := by
  have hheld := VectorIndex.held_load_self hmirrors entityId
  unfold VectorIndex.held at hheld
  obtain ⟨segment, hsegment, hfind⟩ := Option.map_eq_some_iff.mp hheld
  rw [hsegment, Option.elim_some] at h
  have hcode : ∃ code, segment.find? hit.1 = some code ∧ hit.2 = config.similarity query code := by
    cases segment with
    | flat s => exact FlatSegment.exists_of_mem_scan h
    | hnsw g => exact hfinds g query candidates hit h
  obtain ⟨code, hcode, hsimilarity⟩ := hcode
  rw [hfind, storedCode_eq_some] at hcode
  obtain ⟨v, hv, hid, hentity, rfl⟩ := hcode
  exact ⟨v, hv, hid, hentity, hsimilarity⟩

/-- A result of a search of an entity is a stored vector of the entity, with its distance. -/
theorem stored_of_hit (hmirrors : index.Mirrors config.toVectorConfig S)
    (hfinds : FindsHeld config graphSearch) {hits : List (ℕ × D)}
    (h : (index.search config graphSearch S (some entityId) query limit).1 = .ok hits)
    {hit : ℕ × D} (hhit : hit ∈ hits) :
    ∃ v ∈ S.vectorLookup.rows, v.vectorId = hit.1 ∧ v.entityId = entityId ∧
      hit.2 = config.distance (config.storedSimilarity query v.embedding) := by
  unfold VectorIndex.search at h
  -- A query that is refused or that asks for nothing has no hits.
  split at h
  · exact absurd h (by simp)
  split at h
  · rw [← Except.ok.inj h] at hhit
    exact absurd hhit List.not_mem_nil
  dsimp only [VectorIndex.entityHits, Option.elim_some] at h
  rw [← Except.ok.inj h, List.append_nil] at hhit
  obtain ⟨found, hfound, rfl⟩ := List.mem_map.mp hhit
  have hmem := (mem_orderBy _ _ _).mp (List.mem_of_mem_take hfound)
  unfold SearchConfig.storedSimilarity
  -- The hit was scored exactly, or it was scored again with the stored vector.
  split at hmem
  · rename_i hexact
    obtain ⟨v, hv, hid, hentity, hsimilarity⟩ := stored_of_segmentHit hmirrors hfinds hmem
    exact ⟨v, hv, hid, hentity, by rw [if_pos hexact, hsimilarity]⟩
  · rename_i hexact
    obtain ⟨candidate, hcandidate, hrescored⟩ := List.mem_filterMap.mp hmem
    obtain ⟨v, hv, hid, hentity, -⟩ := stored_of_segmentHit hmirrors hfinds hcandidate
    obtain ⟨w, hw, rfl⟩ := Option.map_eq_some_iff.mp hrescored
    have hvw : S.vectorLookup.find? candidate.1 = some v := Table.find?_eq_some.mpr ⟨hv, hid⟩
    rw [hvw] at hw
    obtain rfl := Option.some.inj hw
    exact ⟨v, hv, hid, hentity, by rw [if_neg hexact]⟩

/-- The segments after a load. -/
theorem VectorIndex.segments_load (config : VectorConfig γ) (index : VectorIndex H)
    (entityId part : String) (rows : List (ℕ × List ℚ)) :
    (index.load config entityId rows).segments part =
      if part = entityId then some ((index.segments entityId).getD (buildSegment config rows))
      else index.segments part := by
  unfold load
  by_cases hpart : part = entityId
  · subst hpart
    rw [if_pos rfl]
    split
    · rename_i segment hsegment
      rw [hsegment, Option.getD_some]
    · rename_i hnone
      dsimp only
      rw [Function.update_self, hnone, Option.getD_none]
  · rw [if_neg hpart]
    split
    · rfl
    · exact Function.update_of_ne hpart _ _

/-- A search is the same whatever other segments are loaded. -/
theorem search_load (other : String) :
    ((index.load config.toVectorConfig other (S.entityVectors other)).search config graphSearch S
        (some entityId) query limit).1 =
      (index.search config graphSearch S (some entityId) query limit).1 := by
  have hsegment : ((index.load config.toVectorConfig other (S.entityVectors other)).load
        config.toVectorConfig entityId (S.entityVectors entityId)).segments entityId =
      (index.load config.toVectorConfig entityId (S.entityVectors entityId)).segments entityId := by
    rw [VectorIndex.segments_load, VectorIndex.segments_load, VectorIndex.segments_load,
      if_pos rfl, if_pos rfl]
    by_cases hother : entityId = other
    · rw [if_pos hother, Option.getD_some, hother]
    · rw [if_neg hother]
  unfold VectorIndex.search
  split
  · rfl
  split
  · rfl
  dsimp only [VectorIndex.entityHits, Option.elim_some]
  rw [hsegment]

/-- The index after a search of an entity: its segment may be loaded. -/
theorem search_index (config : SearchConfig γ V D)
    (graphSearch : H.Graph → List ℚ → ℕ → List (ℕ × V)) (index : VectorIndex H) (S : TenantStore)
    (entityId : String) (query : List ℚ) (limit : ℕ) :
    (index.search config graphSearch S (some entityId) query limit).2 = index ∨
      (index.search config graphSearch S (some entityId) query limit).2 =
        index.load config.toVectorConfig entityId (S.entityVectors entityId) := by
  unfold VectorIndex.search
  split
  · exact .inl rfl
  split
  · exact .inl rfl
  · exact .inr rfl

end

/-! ## Places that a removal leaves -/

/-- The configuration of the example. -/
private def plainSearch : SearchConfig (List ℚ) ℚ ℚ where
  encode := id
  flatThreshold := 10000
  dimensions := 2
  isExact := true
  rescoreFactor := 4
  similarity := fun query v => (List.zipWith (· * ·) query v).sum
  fullSimilarity := fun query v => (List.zipWith (· * ·) query v).sum
  distance := fun similarity => 1 - similarity

/-- A store with two vectors of an entity. -/
private def twoVectors (first second : List ℚ) : TenantStore :=
  { TenantStore.empty with
    vectorLookup := ⟨[⟨2, "b", "e", 0, first⟩, ⟨3, "c", "e", 0, second⟩], by
      show [2, 3].Nodup
      decide⟩ }

/-- A search of a segment that is loaded from the store. -/
theorem search_flat_loaded :
    ((VectorIndex.new (Hnsw.exact (List ℚ))).search plainSearch (fun _ _ _ => [])
        (twoVectors [0, 1] [1, 0]) (some "e") [1, 0] 1).1 =
      .ok (nearest plainSearch [1, 0] ((twoVectors [0, 1] [1, 0]).entries plainSearch "e") 1) :=
  (search_flat_iff (s := ((FlatSegment.new (List ℚ)).upsert 2 [0, 1]).upsert 3 [1, 0])
    (fun _ _ _ => []) (fun _ _ h => sub_le_sub_left h 1) rfl rfl
    (VectorIndex.mirrors_new _ _ _) rfl 1).mpr (by decide +kernel)

/-- A segment from which the vector in front of two others was removed. -/
private def afterRemoval : FlatSegment (List ℚ) :=
  ((((FlatSegment.new (List ℚ)).upsert 1 [1, 0]).upsert 2 [1, 0]).upsert 3 [1, 0]).remove 1

/-- The index whose segment of one entity has lost a row. -/
private def afterRemovalIndex : VectorIndex (Hnsw.exact (List ℚ)) :=
  ⟨fun entityId => if entityId = "e" then some (.flat afterRemoval) else none⟩

/-- It mirrors the vectors that are stored. -/
private theorem afterRemovalIndex_mirrors :
    afterRemovalIndex.Mirrors plainSearch.toVectorConfig (twoVectors [1, 0] [1, 0]) := by
  have hrows : afterRemoval.rows = [(3, [1, 0]), (2, [1, 0])] := by decide +kernel
  intro entityId segment hsegment id code
  unfold afterRemovalIndex at hsegment
  dsimp only at hsegment
  split at hsegment
  · rename_i hentity
    obtain rfl := Option.some.inj hsegment
    have hfind : (Segment.flat (H := Hnsw.exact (List ℚ)) afterRemoval).find? id = some code ↔
        (id, code) ∈ afterRemoval.rows := FlatSegment.find?_eq_some
    rw [hfind, hrows, hentity]
    constructor
    · intro hmem
      rcases List.mem_cons.mp hmem with heq | hmem
      · obtain ⟨rfl, rfl⟩ := Prod.mk.inj heq
        exact ⟨_, List.mem_cons_of_mem _ List.mem_cons_self, rfl, rfl, rfl⟩
      · obtain ⟨rfl, rfl⟩ := Prod.mk.inj (List.mem_singleton.mp hmem)
        exact ⟨_, List.mem_cons_self, rfl, rfl, rfl⟩
    · rintro ⟨v, hv, rfl, -, rfl⟩
      rcases List.mem_cons.mp hv with rfl | hv
      · exact List.mem_cons_of_mem _ List.mem_cons_self
      · obtain rfl := List.mem_singleton.mp hv
        exact List.mem_cons_self
  · exact absurd hsegment (by simp)

/-- Two vectors that are as near are told apart by their places. -/
theorem removal_reorders :
    ¬ ∀ (config : SearchConfig (List ℚ) ℚ ℚ) (index : VectorIndex (Hnsw.exact (List ℚ)))
      (S : TenantStore) (entityId : String) (query : List ℚ) (s : FlatSegment (List ℚ))
      (limit : ℕ), Antitone config.distance → config.isExact = true →
        query.length = config.dimensions → index.Mirrors config.toVectorConfig S →
          index.segments entityId = some (.flat s) →
            (index.search config (fun _ _ _ => []) S (some entityId) query limit).1 =
              .ok (nearest config query (S.entries config entityId) limit) := by
  intro h
  exact absurd (h plainSearch afterRemovalIndex (twoVectors [1, 0] [1, 0]) "e" [1, 0] afterRemoval 1
    (fun _ _ h => sub_le_sub_left h 1) rfl rfl afterRemovalIndex_mirrors rfl) (by decide +kernel)

end Tellodb
