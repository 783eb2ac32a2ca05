import Tellodb.Vectors.Segment
import Tellodb.Cache.Patched
import Tellodb.Storage.Ingest
import Tellodb.Storage.Memories

/-!
# The vector index

`VectorIndex` of `vector_index.rs`: the segments of a tenant handle, loaded from `vector_lookup` one
entity at a time. Who writes to the store afterwards patches the segments that are loaded: an ingest
inserts its vectors, and a deletion removes those it names (`CommitOutcome.patches`,
`DeletedObservation.patches`). On what is held, these are the patches of a cache
(`VectorIndex.held_insertBatch`, `VectorIndex.held_remove`). -/

namespace Tellodb

open Relational Cache

/-- `VectorConfig`, with `normalized` and the quantization as one function. -/
structure VectorConfig (γ : Type) where
  encode : List ℚ → γ
  /-- Segments larger than this use HNSW instead of a flat scan. -/
  flatThreshold : ℕ

/-- `SqliteVectorSource::entity_vectors` -/
def TenantStore.entityVectors (S : TenantStore) (entityId : String) : List (ℕ × List ℚ) :=
  (orderBy VectorRow.vectorId (S.vectorLookup.rows.filter fun v => v.entityId = entityId)).map
    fun v => (v.vectorId, v.embedding)

/-- `VectorIndex`: the segments that are loaded. -/
structure VectorIndex {γ : Type} (H : Hnsw γ) where
  segments : String → Option (Segment H)

namespace VectorIndex

variable {γ : Type} {H : Hnsw γ}

/-- `VectorIndex::new` -/
def new (H : Hnsw γ) : VectorIndex H :=
  ⟨fun _ => none⟩

/-- `build_segment` -/
def buildSegment (config : VectorConfig γ) (rows : List (ℕ × List ℚ)) : Segment H :=
  if config.flatThreshold < rows.length then
    .hnsw (rows.foldl (fun g row => H.upsert g row.1 (config.encode row.2)) H.new)
  else .flat (rows.foldl (fun s row => s.upsert row.1 (config.encode row.2)) (FlatSegment.new γ))

/-- The load of `with_segment`, with the vectors that the source has. -/
def load (config : VectorConfig γ) (index : VectorIndex H) (entityId : String)
    (rows : List (ℕ × List ℚ)) : VectorIndex H :=
  match index.segments entityId with
  | some _ => index
  | none => ⟨Function.update index.segments entityId (some (buildSegment config rows))⟩

/-- Whether a segment has outgrown a flat scan. -/
def crossedThreshold (config : VectorConfig γ) : Segment H → Bool
  | .flat flat => config.flatThreshold < flat.rows.length
  | .hnsw _ => false

/-- `insert_batch`. A flat segment that grows over the threshold is dropped, and loaded as a graph
when it is next used. -/
def insertBatch (config : VectorConfig γ) (index : VectorIndex H) (entityId : String)
    (items : List (ℕ × List ℚ)) : VectorIndex H :=
  match index.segments entityId with
  | none => index
  | some segment =>
    let segment := items.foldl (fun s item => s.upsert item.1 (config.encode item.2)) segment
    ⟨Function.update index.segments entityId
      (if crossedThreshold config segment then none else some segment)⟩

/-- `VectorIndex::remove` -/
def remove (index : VectorIndex H) (entityId : String) (id : ℕ) : VectorIndex H :=
  match index.segments entityId with
  | none => index
  | some segment => ⟨Function.update index.segments entityId (some (segment.remove id))⟩

/-- What the loaded segments hold. -/
def held (index : VectorIndex H) (entityId : String) : Option (ℕ → Option γ) :=
  (index.segments entityId).map Segment.find?

end VectorIndex

/-! ## Patches -/

section

variable {γ : Type} {H : Hnsw γ} (config : VectorConfig γ)

/-- Vectors to be inserted for an entity. -/
def insertPatches (entityId : String) (items : List (ℕ × List ℚ)) : List (Patch String ℕ γ) :=
  items.map fun item => ⟨entityId, item.1, some (config.encode item.2)⟩

/-- What a commit owes to the index. -/
def CommitOutcome.patches (outcome : CommitOutcome) : List (Patch String ℕ γ) :=
  outcome.vectorBatch.map fun x => ⟨x.1, x.2.1, some (config.encode x.2.2)⟩

/-- The vectors a deletion is to remove from the index. -/
def DeletedObservation.vectorIds (deleted : DeletedObservation) : List ℕ :=
  deleted.vectorId.toList ++ deleted.chunkVectorIds

/-- What a deletion owes to the index. -/
def DeletedObservation.patches (γ : Type) (deleted : DeletedObservation) :
    List (Patch String ℕ γ) :=
  deleted.vectorIds.map fun id => ⟨deleted.entityId, id, none⟩

/-- The vector that is stored for an entity under an identifier. -/
def storedCode (t : Table VectorRow.vectorId) (entityId : String) (id : ℕ) : Option γ :=
  ((t.find? id).filter fun v => v.entityId = entityId).map fun v => config.encode v.embedding

variable {config}

/-- A vector is stored for an entity. -/
theorem storedCode_eq_some {t : Table VectorRow.vectorId} {entityId : String} {id : ℕ}
    {code : γ} : storedCode config t entityId id = some code ↔
      ∃ v ∈ t.rows, v.vectorId = id ∧ v.entityId = entityId ∧
        config.encode v.embedding = code := by
  unfold storedCode
  rw [Option.map_eq_some_iff]
  constructor
  · rintro ⟨v, hv, hcode⟩
    obtain ⟨hfind, hentity⟩ := Option.filter_eq_some_iff.mp hv
    obtain ⟨hmem, hid⟩ := Table.find?_eq_some.mp hfind
    exact ⟨v, hmem, hid, of_decide_eq_true hentity, hcode⟩
  · rintro ⟨v, hmem, hid, hentity, hcode⟩
    exact ⟨v, Option.filter_eq_some_iff.mpr ⟨Table.find?_eq_some.mpr ⟨hmem, hid⟩,
      decide_eq_true hentity⟩, hcode⟩

/-- No vector is stored for an entity. -/
theorem storedCode_eq_none {t : Table VectorRow.vectorId} {entityId : String} {id : ℕ} :
    storedCode config t entityId id = none ↔
      ∀ v ∈ t.rows, v.vectorId = id → v.entityId ≠ entityId := by
  rw [Option.eq_none_iff_forall_ne_some]
  constructor
  · exact fun h v hv hid hentity => h _ (storedCode_eq_some.mpr ⟨v, hv, hid, hentity, rfl⟩)
  · rintro h code hcode
    obtain ⟨v, hv, hid, hentity, -⟩ := storedCode_eq_some.mp hcode
    exact h v hv hid hentity

/-- The vectors of an entity are inserted one after the other. -/
theorem find?_foldl_upsert (entityId : String) (items : List (ℕ × List ℚ)) (s : Segment H) :
    (items.foldl (fun s item => s.upsert item.1 (config.encode item.2)) s).find? =
      (insertPatches config entityId items).foldl (fun held p => p.applyTo entityId held)
        s.find? := by
  induction items generalizing s with
  | nil => rfl
  | cons item items ih =>
    rw [List.foldl_cons, ih, Segment.find?_upsert]
    unfold insertPatches
    rw [List.map_cons, List.foldl_cons]
    congr 1
    exact (if_pos rfl).symm

/-- A segment that is built holds its rows. -/
theorem find?_buildSegment (entityId : String) (rows : List (ℕ × List ℚ)) :
    (VectorIndex.buildSegment (H := H) config rows).find? =
      (insertPatches config entityId rows).foldl (fun held p => p.applyTo entityId held)
        fun _ => none := by
  have hflat : ∀ s : FlatSegment γ, Segment.flat (H := H) (rows.foldl (fun s row =>
      s.upsert row.1 (config.encode row.2)) s) =
        rows.foldl (fun s row => s.upsert row.1 (config.encode row.2)) (.flat s) := by
    induction rows with
    | nil => exact fun _ => rfl
    | cons row rows ih => exact fun s => ih _
  have hhnsw : ∀ g : H.Graph, Segment.hnsw (rows.foldl (fun g row =>
      H.upsert g row.1 (config.encode row.2)) g) =
        rows.foldl (fun s row => s.upsert row.1 (config.encode row.2)) (.hnsw g) := by
    clear hflat
    induction rows with
    | nil => exact fun _ => rfl
    | cons row rows ih => exact fun g => ih _
  unfold VectorIndex.buildSegment
  split
  · rw [hhnsw, find?_foldl_upsert entityId]
    congr 1
    exact H.find?_new
  · rw [hflat, find?_foldl_upsert entityId]
    rfl

/-- A segment that is loaded holds what the store has for its entity. -/
theorem find?_buildSegment_entityVectors (S : TenantStore) (entityId : String) :
    (VectorIndex.buildSegment (H := H) config (S.entityVectors entityId)).find? =
      storedCode config S.vectorLookup entityId := by
  funext id
  rw [find?_buildSegment entityId, foldl_applyTo]
  -- The patches are those of the entity's rows, in the order of their identifiers.
  have hmem : ∀ p, p ∈ insertPatches config entityId (S.entityVectors entityId) ↔
      ∃ v ∈ S.vectorLookup.rows, v.entityId = entityId ∧
        p = ⟨entityId, v.vectorId, some (config.encode v.embedding)⟩ := by
    intro p
    unfold insertPatches TenantStore.entityVectors
    rw [List.map_map, List.mem_map]
    constructor
    · rintro ⟨v, hv, rfl⟩
      obtain ⟨hv, hentity⟩ := List.mem_filter.mp ((mem_orderBy _ _ _).mp hv)
      exact ⟨v, hv, of_decide_eq_true hentity, rfl⟩
    · rintro ⟨v, hv, hentity, rfl⟩
      exact ⟨v, (mem_orderBy _ _ _).mpr (List.mem_filter.mpr ⟨hv, decide_eq_true hentity⟩), rfl⟩
  -- The last patch under the identifier is the stored vector, since there is one at most.
  cases hlast : lastAt (insertPatches config entityId (S.entityVectors entityId)) entityId id with
  | some p =>
    obtain ⟨hp, -, hkey⟩ := mem_of_lastAt hlast
    obtain ⟨v, hv, hentity, rfl⟩ := (hmem p).mp hp
    exact (storedCode_eq_some.mpr ⟨v, hv, hkey, hentity, rfl⟩).symm
  | none =>
    refine (storedCode_eq_none.mpr fun v hv hid hentity => ?_).symm
    have hnone := List.find?_eq_none.mp hlast _
      (List.mem_reverse.mpr ((hmem _).mpr ⟨v, hv, hentity, rfl⟩))
    exact hnone (decide_eq_true ⟨rfl, hid⟩)

namespace VectorIndex

variable {index : VectorIndex H} {entityId part : String} {held' : ℕ → Option γ}

/-- What is held after a load: what was held, or what the store has. -/
theorem held_load {S : TenantStore}
    (h : (index.load config entityId (S.entityVectors entityId)).held part = some held') :
    index.held part = some held' ∨ held' = storedCode config S.vectorLookup part := by
  unfold load at h
  split at h
  · exact .inl h
  · by_cases hpart : part = entityId
    · subst hpart
      unfold held at h
      dsimp only at h
      rw [Function.update_self, Option.map_some, find?_buildSegment_entityVectors] at h
      exact .inr (Option.some.inj h).symm
    · unfold held at h
      dsimp only at h
      rw [Function.update_of_ne hpart] at h
      exact .inl h

/-- What is held after vectors are inserted: what was held, with their patches applied. -/
theorem held_insertBatch {items : List (ℕ × List ℚ)}
    (h : (index.insertBatch config entityId items).held part = some held') :
    ∃ held, index.held part = some held ∧ held' =
      (insertPatches config entityId items).foldl (fun held p => p.applyTo part held) held := by
  -- The patches of another entity leave the segment alone.
  have hother : ∀ held : ℕ → Option γ, part ≠ entityId →
      (insertPatches config entityId items).foldl (fun held p => p.applyTo part held) held =
        held := by
    clear h
    intro held hpart
    unfold insertPatches
    induction items with
    | nil => rfl
    | cons item items ih =>
      rw [List.map_cons, List.foldl_cons]
      have hskip : Patch.applyTo ⟨entityId, item.1, some (config.encode item.2)⟩ part held = held :=
        if_neg (Ne.symm hpart)
      rw [hskip]
      exact ih
  unfold insertBatch at h
  split at h
  -- An entity that is not loaded is skipped.
  · rename_i hnone
    by_cases hpart : part = entityId
    · subst hpart
      unfold held at h
      rw [hnone] at h
      exact absurd h (by simp)
    · exact ⟨held', h, (hother held' hpart).symm⟩
  · rename_i segment hsegment
    by_cases hpart : part = entityId
    · subst hpart
      unfold held at h
      dsimp only at h
      rw [Function.update_self] at h
      -- The segment is dropped if it is too large, and is written otherwise.
      have hkept : (items.foldl (fun s item => s.upsert item.1 (config.encode item.2))
          segment).find? = held' := by
        generalize items.foldl (fun s item => s.upsert item.1 (config.encode item.2)) segment =
          applied at h ⊢
        split at h
        · exact absurd h (by simp)
        · exact Option.some.inj h
      refine ⟨segment.find?, ?_, ?_⟩
      · unfold held
        rw [hsegment]
        rfl
      · rw [← hkept]
        exact find?_foldl_upsert part items segment
    · unfold held at h
      dsimp only at h
      rw [Function.update_of_ne hpart] at h
      exact ⟨held', h, (hother held' hpart).symm⟩

/-- What is held after a vector is removed: what was held, with the patch applied. -/
theorem held_remove {id : ℕ} (h : (index.remove entityId id).held part = some held') :
    ∃ held, index.held part = some held ∧
      held' = Patch.applyTo ⟨entityId, id, none⟩ part held := by
  unfold remove at h
  -- The vector is taken out of the segment of its entity.
  by_cases hpart : part = entityId
  · subst hpart
    split at h
    · rename_i hnone
      unfold held at h
      rw [hnone] at h
      exact absurd h (by simp)
    · rename_i segment hsegment
      unfold held at h ⊢
      dsimp only at h
      rw [Function.update_self, Option.map_some, Segment.find?_remove] at h
      refine ⟨segment.find?, by rw [hsegment]; rfl, ?_⟩
      rw [← Option.some.inj h]
      exact (if_pos rfl).symm
  · have hskip : ∀ held : ℕ → Option γ, Patch.applyTo ⟨entityId, id, none⟩ part held = held :=
      fun held => if_neg (Ne.symm hpart)
    split at h
    · exact ⟨held', h, (hskip held').symm⟩
    · unfold held at h
      dsimp only at h
      rw [Function.update_of_ne hpart] at h
      exact ⟨held', h, (hskip held').symm⟩

/-- The segments that are loaded hold exactly the vectors of their entities. -/
def Mirrors (config : VectorConfig γ) (index : VectorIndex H) (S : TenantStore) : Prop :=
  ∀ entityId segment, index.segments entityId = some segment → ∀ id code,
    segment.find? id = some code ↔ ∃ v ∈ S.vectorLookup.rows, v.vectorId = id ∧
      v.entityId = entityId ∧ config.encode v.embedding = code

/-- An index without segments. -/
theorem mirrors_new (H : Hnsw γ) (config : VectorConfig γ) (S : TenantStore) :
    (new H).Mirrors config S :=
  fun _ _ h => nomatch h

/-- The segments that are loaded hold what the store has. -/
theorem mirrors_iff {S : TenantStore} : index.Mirrors config S ↔
    ∀ entityId held, index.held entityId = some held →
      held = storedCode config S.vectorLookup entityId := by
  constructor
  · intro h entityId held hheld
    obtain ⟨segment, hsegment, rfl⟩ := Option.map_eq_some_iff.mp hheld
    funext id
    exact Option.ext fun code => (h entityId segment hsegment id code).trans
      storedCode_eq_some.symm
  · intro h entityId segment hsegment id code
    rw [h entityId segment.find? (congrArg (Option.map Segment.find?) hsegment)]
    exact storedCode_eq_some

/-- A segment that holds something else under an identifier. -/
theorem not_mirrors {S : TenantStore} (entityId : String) (id : ℕ) (code : Option γ)
    (hheld : (index.held entityId).map (· id) = some code)
    (hstored : storedCode config S.vectorLookup entityId id ≠ code) :
    ¬ index.Mirrors config S := by
  intro h
  obtain ⟨held, hsome, rfl⟩ := Option.map_eq_some_iff.mp hheld
  exact hstored (by rw [mirrors_iff.mp h entityId held hsome])

/-- A segment that is used holds what the store has, when all do that are loaded. -/
theorem held_load_self {S : TenantStore} (h : index.Mirrors config S) (entityId : String) :
    (index.load config entityId (S.entityVectors entityId)).held entityId =
      some (storedCode config S.vectorLookup entityId) := by
  unfold load
  split
  · rename_i segment hsegment
    have hheld : index.held entityId = some segment.find? :=
      congrArg (Option.map Segment.find?) hsegment
    rw [hheld, mirrors_iff.mp h entityId _ hheld]
  · unfold held
    dsimp only
    rw [Function.update_self, Option.map_some, find?_buildSegment_entityVectors]

/-- A search through the index sees exactly the vectors of every entity: its segment is loaded if it
is not, and holds them. -/
def Sees (config : VectorConfig γ) (index : VectorIndex H) (S : TenantStore) : Prop :=
  ∀ entityId, ∃ segment,
    (index.load config entityId (S.entityVectors entityId)).segments entityId = some segment ∧
      ∀ id code, segment.find? id = some code ↔ ∃ v ∈ S.vectorLookup.rows, v.vectorId = id ∧
        v.entityId = entityId ∧ config.encode v.embedding = code

/-- The vectors are seen when the segments that are loaded hold them. -/
theorem Mirrors.sees {S : TenantStore} (h : index.Mirrors config S) : index.Sees config S := by
  intro entityId
  obtain ⟨segment, hsegment, hheld⟩ :=
    Option.map_eq_some_iff.mp (held_load_self h entityId)
  refine ⟨segment, hsegment, fun id code => ?_⟩
  rw [hheld]
  exact storedCode_eq_some

/-- A segment that is loaded and holds something else under an identifier. -/
theorem not_sees {S : TenantStore} (entityId : String) (id : ℕ) (code : Option γ)
    (hheld : (index.held entityId).map (· id) = some code)
    (hstored : storedCode config S.vectorLookup entityId id ≠ code) : ¬ index.Sees config S := by
  intro h
  obtain ⟨segment, hsegment, hcode⟩ := h entityId
  obtain ⟨held, hsome, rfl⟩ := Option.map_eq_some_iff.mp hheld
  obtain ⟨loaded, hloaded, rfl⟩ := Option.map_eq_some_iff.mp hsome
  have hkept : (index.load config entityId (S.entityVectors entityId)).segments entityId =
      some loaded := by
    unfold load
    rw [hloaded]
    exact hloaded
  obtain rfl := Option.some.inj (hkept.symm.trans hsegment)
  exact hstored (Option.ext fun code => storedCode_eq_some.trans (hcode id code).symm)

end VectorIndex

end

end Tellodb
