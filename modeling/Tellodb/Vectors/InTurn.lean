import Tellodb.Vectors.Interleaved

/-!
# Index steps in turn

Operations on a handle one after the other: each is done with the vector index before the next one
begins. Then the index steps of an operation are always in time, as long as its batch settles on the
loaded entities (`IngestBatches.Settles`). What is left is that an ingest tells the index only of
the vectors that it writes: one that it takes from an entity, because a memory comes again without
an embedding or under another entity, stays in the segment (`vector_left`). -/

namespace Tellodb

open Relational Cache

/-! ## Operations on the index -/

namespace VectorIndex

variable {γ : Type} {H : Hnsw γ}

/-- The index steps of an ingest: the vectors of each entity. -/
def insertVectors (config : VectorConfig γ) (order : HashOrder) (index : VectorIndex H)
    (batch : List (String × ℕ × List ℚ)) : VectorIndex H :=
  (order.iterate (batch.map Prod.fst).dedup).foldl (fun index entityId =>
    index.insertBatch config entityId ((batch.filter fun x => x.1 = entityId).map Prod.snd)) index

/-- The index steps of a deletion. -/
def removeVectors (index : VectorIndex H) (entityId : String) (ids : List ℕ) : VectorIndex H :=
  ids.foldl (fun index id => index.remove entityId id) index

variable {config : VectorConfig γ} {index : VectorIndex H} {entityId : String}
  {source : String → ℕ → Option γ}

/-- All vectors of a batch are inserted when the patches are in time. -/
theorem coherent_insertVectors {order : HashOrder} {batch : List (String × ℕ × List ℚ)}
    (h : Cache.Coherent source index.held (IndexTask.patches config (.insert batch)))
    (htime : InTime source index.held (IndexTask.patches config (.insert batch)) []) :
    Cache.Coherent source (index.insertVectors config order batch).held [] := by
  -- The patches of the entities that are still to come are owed.
  have hrun : ∀ (entities : List String) (index : VectorIndex H),
      Cache.Coherent source index.held ((IndexTask.patches config (.insert batch)).filter
        fun p => entities.contains p.part) →
      InTime source index.held (IndexTask.patches config (.insert batch)) [] →
      Cache.Coherent source (entities.foldl (fun index entityId => index.insertBatch config entityId
        ((batch.filter fun x => x.1 = entityId).map Prod.snd)) index).held [] := by
    intro entities
    induction entities with
    | nil =>
      intro index h _
      exact h.owe fun p hp => absurd (List.mem_filter.mp hp).2 (by simp)
    | cons entityId entities ih =>
      intro index h htime
      have happly : ∀ part held', (index.insertBatch config entityId ((batch.filter fun x =>
          x.1 = entityId).map Prod.snd)).held part = some held' → _ :=
        fun part held' hheld => IndexTask.held_advance (.insert batch) hheld
      have hload : ∀ part, ((index.insertBatch config entityId ((batch.filter fun x =>
          x.1 = entityId).map Prod.snd)).held part).isSome → (index.held part).isSome := by
        intro part hpart
        obtain ⟨held', hheld'⟩ := Option.isSome_iff_exists.mp hpart
        obtain ⟨held, hheld, -⟩ := happly part held' hheld'
        rw [hheld]
        rfl
      refine ih _ (h.apply (fun p hp => ?_)
        (htime.filter (fun part => part = entityId) (fun _ => id) _) happly) ?_
      · obtain ⟨hp, hpart⟩ := List.mem_filter.mp hp
        by_cases hfirst : p.part = entityId
        · exact .inl (List.mem_filter.mpr ⟨hp, decide_eq_true hfirst⟩)
        · exact .inr (List.mem_filter.mpr ⟨hp, by simpa [hfirst] using hpart⟩)
      · exact fun part hpart => htime part (hload part hpart)
  refine hrun _ index (h.owe fun p hp => List.mem_filter.mpr ⟨hp, ?_⟩) htime
  obtain ⟨x, hx, rfl⟩ := List.mem_map.mp hp
  refine List.contains_iff_mem.mpr ((order.iterate_perm _).mem_iff.mpr ?_)
  exact List.mem_dedup.mpr (List.mem_map_of_mem hx)

/-- All vectors of a deletion are removed when the patches are fresh. -/
theorem coherent_removeVectors (config : VectorConfig γ) {ids : List ℕ}
    (h : Cache.Coherent source index.held (IndexTask.patches config (.remove entityId ids)))
    (hfresh : ∀ id ∈ ids, source entityId id = none) :
    Cache.Coherent source (index.removeVectors entityId ids).held [] := by
  induction ids generalizing index with
  | nil => exact h
  | cons id ids ih =>
    have hsplit : ∀ p ∈ IndexTask.patches config (.remove entityId (id :: ids)),
        p ∈ [(⟨entityId, id, none⟩ : Patch String ℕ γ)] ∨
          p ∈ IndexTask.patches config (.remove entityId ids) := by
      intro p hp
      rcases List.mem_cons.mp hp with rfl | hrest
      · exact .inl List.mem_cons_self
      · exact .inr hrest
    refine ih (h.apply hsplit ?_ ?_) fun id hid => hfresh id (List.mem_cons_of_mem _ hid)
    · intro part _ k p hlast
      obtain ⟨hp, -, -⟩ := mem_of_lastAt hlast
      rw [List.mem_singleton.mp hp]
      exact .inl (hfresh id List.mem_cons_self)
    · exact fun part held' hheld => held_remove hheld

end VectorIndex

/-! ## Operations on the handle -/

/-- An operation from its transaction to its last index step, or a search. -/
inductive HandleAction where
  /-- `commit_batches` -/
  | ingest (order : HashOrder) (clock : IngestClock) (b : IngestBatches)
  /-- `memory_delete_handler`, or one memory of `purge_expired_memories`. -/
  | delete (order : HashOrder) (now : UInt64) (memoryId reason : String)
  /-- A segment is used, and loaded if it is not. -/
  | load (entityId : String)

namespace TenantHandle

variable {γ : Type} {H : Hnsw γ}

/-- The handle after an operation. -/
def perform (config : VectorConfig γ) (cosineSimilarity : List ℚ → List ℚ → ℚ)
    (w : TenantHandle H) : HandleAction → TenantHandle H
  | .ingest order clock b =>
    match w.store.commitIngest cosineSimilarity order clock b with
    | .ok (S, outcome) => ⟨S, w.index.insertVectors config order outcome.vectorBatch, w.tasks⟩
    | .error _ => w
  | .delete order now memoryId reason =>
    let deletion := w.store.deleteObservation order now memoryId reason
    ⟨deletion.1, w.index.removeVectors deletion.2.entityId deletion.2.vectorIds, w.tasks⟩
  | .load entityId =>
    ⟨w.store, w.index.load config entityId (w.store.entityVectors entityId), w.tasks⟩

/-- An operation after which the index has what the store has: an ingest takes no vector from a
loaded segment, and a deletion none that is under another entity than the memory. -/
def TakesNone (w : TenantHandle H) : HandleAction → Prop
  | .ingest _ _ b =>
    (∀ v ∈ w.store.vectorLookup.rows, w.Loaded v.entityId → b.Leaves v) ∧
      ∀ item ∈ b.observations, w.Loaded item.2.2.entityId → b.Settles item.2.2.entityId
  | .delete _ _ memoryId _ => w.DeletesWithin memoryId
  | .load _ => True

instance (w : TenantHandle H) : (a : HandleAction) → Decidable (w.TakesNone a)
  | .ingest _ _ _ => inferInstanceAs (Decidable (_ ∧ _))
  | .delete _ _ memoryId _ => inferInstanceAs (Decidable (w.DeletesWithin memoryId))
  | .load _ => .isTrue trivial

section

variable {config : VectorConfig γ} {cosineSimilarity : List ℚ → List ℚ → ℚ} {w : TenantHandle H}

/-- The handle after an ingest that succeeds. -/
theorem perform_ingest_of_ok {order : HashOrder} {clock : IngestClock} {b : IngestBatches}
    {S : TenantStore} {outcome : CommitOutcome}
    (h : w.store.commitIngest cosineSimilarity order clock b = .ok (S, outcome)) :
    w.perform config cosineSimilarity (.ingest order clock b) =
      ⟨S, w.index.insertVectors config order outcome.vectorBatch, w.tasks⟩ := by
  simp only [perform, h]

/-- The handle after an ingest that fails. -/
theorem perform_ingest_of_error {order : HashOrder} {clock : IngestClock} {b : IngestBatches}
    {error : String}
    (h : w.store.commitIngest cosineSimilarity order clock b = .error error) :
    w.perform config cosineSimilarity (.ingest order clock b) = w := by
  simp only [perform, h]

/-- An ingest keeps the loaded segments those of the store. -/
theorem Sound.ingest (hw : w.Sound config) (hdone : w.tasks = []) {order : HashOrder}
    {clock : IngestClock} {b : IngestBatches} (hb : w.TakesNone (.ingest order clock b)) :
    (w.perform config cosineSimilarity (.ingest order clock b)).Sound config := by
  have hcommit := hw.commit cosineSimilarity order clock hb.1
  cases hresult : w.store.commitIngest cosineSimilarity order clock b with
  | error e =>
    rw [perform_ingest_of_error hresult]
    exact hw
  | ok result =>
    obtain ⟨S', outcome⟩ := result
    rw [step_commit_of_ok hresult, hdone] at hcommit
    rw [perform_ingest_of_ok hresult, hdone]
    refine ⟨hcommit.anchored, ?_⟩
    have howed := hcommit.coherent
    unfold owed IndexTask.owedPatches at howed
    rw [List.nil_append, List.flatMap_singleton] at howed
    refine VectorIndex.coherent_insertVectors howed (inTime_commitIngest hw.anchored hresult ?_)
    intro entityId hloaded item hitem hsome hentity
    subst hentity
    exact hb.2 item hitem (loaded_iff.mp hloaded) item hitem hsome rfl

/-- A deletion keeps the loaded segments those of the store. -/
theorem Sound.remove (hw : w.Sound config) (hdone : w.tasks = []) {order : HashOrder}
    {now : UInt64} {memoryId reason : String} (hdelete : w.DeletesWithin memoryId) :
    (w.perform config cosineSimilarity (.delete order now memoryId reason)).Sound config := by
  obtain ⟨hanchored, hcoherent⟩ := hw.delete cosineSimilarity order now reason hdelete
  refine ⟨hanchored, ?_⟩
  show Cache.Coherent _ _ (IndexTask.owedPatches config w.tasks)
  rw [hdone]
  refine VectorIndex.coherent_removeVectors config ?_ fun id hid =>
    storedCode_removed _ hid
  unfold owed at hcoherent
  change Cache.Coherent _ _ (IndexTask.owedPatches config (w.tasks ++ [_])) at hcoherent
  rw [hdone, owedPatches_append] at hcoherent
  exact hcoherent

/-- Every operation that takes no vector unnoticed keeps the loaded segments those of the store. -/
theorem Sound.perform (hw : w.Sound config) (hdone : w.tasks = []) {a : HandleAction}
    (ha : w.TakesNone a) : (w.perform config cosineSimilarity a).Sound config ∧
      (w.perform config cosineSimilarity a).tasks = [] := by
  cases a with
  | ingest order clock b =>
    refine ⟨hw.ingest hdone ha, ?_⟩
    cases hresult : w.store.commitIngest cosineSimilarity order clock b with
    | error e => rw [perform_ingest_of_error hresult, hdone]
    | ok result =>
      rw [perform_ingest_of_ok hresult]
      exact hdone
  | delete order now memoryId reason => exact ⟨hw.remove hdone ha, hdone⟩
  | load entityId =>
    exact ⟨⟨hw.anchored, hw.coherent.load fun _ _ h => VectorIndex.held_load h⟩, hdone⟩

/-- After operations one after the other that take no vector unnoticed, the loaded segments hold
exactly the vectors of their entities. -/
theorem mirrors_run (H : Hnsw γ) (config : VectorConfig γ)
    (cosineSimilarity : List ℚ → List ℚ → ℚ) {actions : List HandleAction}
    (hrun : EachStep (perform config cosineSimilarity) TakesNone (new H TenantStore.empty)
      actions) :
    let w := actions.foldl (perform config cosineSimilarity) (new H TenantStore.empty)
    w.index.Mirrors config w.store := by
  intro w
  obtain ⟨hw, hdone⟩ := hrun.invariant
    (I := fun w => w.Sound config ∧ w.tasks = [])
    (fun _ _ hw ha => hw.1.perform hw.2 ha) ⟨sound_new anchored_empty, rfl⟩
  have hcoherent := hw.coherent
  unfold owed at hcoherent
  rw [hdone] at hcoherent
  exact VectorIndex.mirrors_iff.mpr fun _ _ hheld => hcoherent.eq hheld

end

end TenantHandle

/-! ## A vector that is left -/

/-- A memory with an embedding under an entity. -/
private def placed (entityId hash : String) (embedding : List ℚ) :
    UInt64 × String × AgentObservation :=
  (100, "alice::s1::0",
    { entityId := entityId
      textualContent := "lives in Oslo"
      embedding := embedding
      kind := .fact
      contentHash := hash
      expiresAtMs := none
      sessionId := "s1"
      turnIndex := 0
      role := ""
      parentMemoryId := none })

/-- The ingest of one memory. -/
private def placedIngest (entityId hash : String) (embedding : List ℚ) : HandleAction :=
  .ingest .insertion ⟨100, 100, 100⟩ { observations := [placed entityId hash embedding] }

/-- A memory comes again under another entity while its segment is loaded. -/
theorem vector_left :
    let w := [placedIngest "alice" "h1" [1], .load "alice", placedIngest "bob" "h2" [1]].foldl
      (TenantHandle.perform (⟨id, 10⟩ : VectorConfig (List ℚ)) fun _ _ => 0)
        (TenantHandle.new (Hnsw.exact (List ℚ)) TenantStore.empty)
    ¬ w.index.Mirrors ⟨id, 10⟩ w.store :=
  VectorIndex.not_mirrors "alice" 1 (some [1]) (by decide +kernel) (by decide +kernel)

/-- A memory comes again with another embedding, and is deleted. -/
theorem vector_replaced :
    let w := [placedIngest "alice" "h1" [1], .load "alice", placedIngest "alice" "h2" [2],
      .delete .insertion 200 "alice::s1::0" ""].foldl
        (TenantHandle.perform (⟨id, 10⟩ : VectorConfig (List ℚ)) fun _ _ => 0)
        (TenantHandle.new (Hnsw.exact (List ℚ)) TenantStore.empty)
    w.index.Mirrors ⟨id, 10⟩ w.store :=
  TenantHandle.mirrors_run (Hnsw.exact (List ℚ)) ⟨id, 10⟩ (fun _ _ => 0) (by decide +kernel)

end Tellodb
