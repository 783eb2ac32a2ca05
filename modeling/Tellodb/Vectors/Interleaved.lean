import Tellodb.Vectors.Stored
import Tellodb.Storage.Steps

/-!
# Index steps that run side by side

An ingest commits and inserts its vectors into the index afterwards, one entity at a time, and a
deletion removes its vectors one at a time; between two of these steps, those of others may run, and
a search may load a segment. Nothing keeps the index steps in the order of the commits
(`older_vector`). `segments_run` is what holds of every run in which no index step puts an older
vector in the place of a newer one, and every write owes the loaded segments all that it changes
(`TenantHandle.Orderly`): when nothing is left to do, the loaded segments hold what the store
does. -/

namespace Tellodb

open Relational Cache

/-- A transaction keeps the vectors at their memories. -/
theorem Anchored.step {cosineSimilarity : List ℚ → List ℚ → ℚ} {S : TenantStore}
    (hS : Anchored S.memories S.vectorLookup) (a : StoreStep) :
    Anchored (S.step cosineSimilarity a).memories (S.step cosineSimilarity a).vectorLookup := by
  cases a with
  | delete order now memoryId reason => exact hS.deleteObservation
  | commit order clock b =>
    cases hcommit : S.commitIngest cosineSimilarity order clock b with
    | error e =>
      rw [TenantStore.step_commit_of_error hcommit]
      exact hS
    | ok result =>
      rw [TenantStore.step_commit_of_ok hcommit]
      exact hS.commitIngest hcommit

/-- Transactions keep the vectors at their memories. -/
theorem anchored_run {cosineSimilarity : List ℚ → List ℚ → ℚ} (steps : List StoreStep) :
    let S := steps.foldl (TenantStore.step cosineSimilarity) TenantStore.empty
    Anchored S.memories S.vectorLookup := by
  induction steps using List.reverseRecOn with
  | nil => exact anchored_empty
  | append_singleton steps a ih =>
    rw [List.foldl_append, List.foldl_cons, List.foldl_nil]
    exact ih.step a

/-! ## Tasks -/

/-- What an operation has left to do in the vector index after its transaction. -/
inductive IndexTask where
  /-- `insert_batch` of each entity. -/
  | insert (items : List (String × ℕ × List ℚ))
  /-- `remove` of each vector. -/
  | remove (entityId : String) (ids : List ℕ)
  deriving DecidableEq

/-- The rows of `reindex_rows` that have a vector: memories that wait to be indexed. -/
def TenantStore.pendingVectors (S : TenantStore) (memoryIds : List String) :
    List (String × ℕ × List ℚ) :=
  -- A memory that is marked does not wait.
  (S.memories.rows.filter fun r => !r.indexed && memoryIds.contains r.memoryId).flatMap fun r =>
    (S.vectorLookup.rows.filter fun v => v.memoryId = r.memoryId).map fun v =>
      (r.entityId, v.vectorId, v.embedding)

namespace IndexTask

section

variable {γ : Type} {H : Hnsw γ} (config : VectorConfig γ)

/-- The patches of a task. -/
def patches : IndexTask → List (Patch String ℕ γ)
  | insert items => items.map fun x => ⟨x.1, x.2.1, some (config.encode x.2.2)⟩
  | remove entityId ids => ids.map fun id => ⟨entityId, id, none⟩

/-- The patches of some tasks. -/
def owedPatches (tasks : List IndexTask) : List (Patch String ℕ γ) :=
  tasks.flatMap (patches config)

/-- The patches of the next step of a task; an insertion goes on with any entity. -/
def next (entityId : String) : IndexTask → List (Patch String ℕ γ)
  | insert items => (patches config (.insert items)).filter fun p => p.part = entityId
  | remove entityId ids => (patches config (.remove entityId ids)).take 1

/-- What is left after the next step. -/
def rest (entityId : String) : IndexTask → IndexTask
  | insert items => .insert (items.filter fun x => x.1 ≠ entityId)
  | remove entityId ids => .remove entityId ids.tail

/-- The next step of a task. -/
def advance (index : VectorIndex H) (entityId : String) : IndexTask → VectorIndex H
  | insert items => index.insertBatch config entityId
      ((items.filter fun x => x.1 = entityId).map Prod.snd)
  | remove entityId (id :: _) => index.remove entityId id
  | remove _ [] => index

end

section

variable {γ : Type} {H : Hnsw γ} {config : VectorConfig γ} {index : VectorIndex H}
  {entityId : String}

/-- A patch of a task is of its next step, or is left. -/
theorem mem_patches {task : IndexTask} {p : Patch String ℕ γ} (h : p ∈ task.patches config) :
    p ∈ task.next config entityId ∨ p ∈ (task.rest entityId).patches config := by
  cases task with
  | insert items =>
    by_cases hpart : p.part = entityId
    · exact .inl (List.mem_filter.mpr ⟨h, decide_eq_true hpart⟩)
    · obtain ⟨x, hx, rfl⟩ := List.mem_map.mp h
      exact .inr (List.mem_map.mpr ⟨x, List.mem_filter.mpr ⟨hx, decide_eq_true hpart⟩, rfl⟩)
  | remove part ids =>
    cases ids with
    | nil => exact absurd h List.not_mem_nil
    | cons id ids =>
      -- The first identifier is the one that the step removes.
      rcases List.mem_cons.mp h with rfl | hrest
      · exact .inl List.mem_cons_self
      · exact .inr hrest

/-- Patches that are owed before a step of a task are of that step, or still owed. -/
theorem mem_owedPatches {tasks : List IndexTask} {i : ℕ} {task : IndexTask}
    (h : tasks[i]? = some task) {p : Patch String ℕ γ} (hp : p ∈ owedPatches config tasks) :
    p ∈ task.next config entityId ∨
      p ∈ owedPatches config (tasks.set i (task.rest entityId)) := by
  obtain ⟨t, ht, hpatch⟩ := List.mem_flatMap.mp hp
  obtain ⟨j, hj⟩ := List.getElem?_of_mem ht
  have hi : i < tasks.length := (List.getElem?_eq_some_iff.mp h).1
  -- The patch is of the task that goes on, or of another one.
  by_cases hij : i = j
  · subst hij
    obtain rfl := Option.some.inj (h.symm.trans hj)
    refine (mem_patches hpatch).imp_right fun hrest => ?_
    exact List.mem_flatMap.mpr ⟨_, List.mem_set hi _, hrest⟩
  · refine .inr (List.mem_flatMap.mpr ⟨t, List.mem_of_getElem? (i := j) ?_, hpatch⟩)
    rw [List.getElem?_set_ne hij]
    exact hj

/-- What is held after the next step: what was held, with its patches applied. -/
theorem held_advance (task : IndexTask) {part : String} {held' : ℕ → Option γ}
    (h : (task.advance config index entityId).held part = some held') :
    ∃ held, index.held part = some held ∧
      held' = (task.next config entityId).foldl (fun held p => p.applyTo part held) held := by
  cases task with
  | insert items =>
    obtain ⟨held, hheld, rfl⟩ := VectorIndex.held_insertBatch h
    refine ⟨held, hheld, ?_⟩
    have hnext : insertPatches config entityId ((items.filter fun x => x.1 = entityId).map
        Prod.snd) = next config entityId (.insert items) := by
      show (List.map Prod.snd _).map _ = (items.map _).filter _
      rw [List.filter_map, List.map_map]
      refine List.map_congr_left fun x hx => ?_
      have hentity : x.1 = entityId := of_decide_eq_true (List.mem_filter.mp hx).2
      rw [hentity]
      rfl
    rw [hnext]
  | remove entityId ids =>
    cases ids with
    | nil => exact ⟨held', h, rfl⟩
    | cons id ids => exact VectorIndex.held_remove h

end

end IndexTask

/-! ## The handle -/

/-- A handle of a tenant, with what the operations on it have left to do. -/
structure TenantHandle {γ : Type} (H : Hnsw γ) where
  store : TenantStore
  index : VectorIndex H
  tasks : List IndexTask

/-- What may happen next. -/
inductive HandleStep where
  /-- `commit_ingest` of a new ingest. -/
  | commit (order : HashOrder) (clock : IngestClock) (b : IngestBatches)
  /-- `delete_observation` of a new deletion. -/
  | delete (order : HashOrder) (now : UInt64) (memoryId reason : String)
  /-- Memories that wait to be indexed are read to be indexed again. -/
  | reindex (memoryIds : List String)
  /-- A segment is used, and loaded if it is not. -/
  | load (entityId : String)
  /-- The next index step of a task, with the next entity if it inserts. -/
  | advance (task : ℕ) (entityId : String)

namespace TenantHandle

open IndexTask

section

variable {γ : Type} {H : Hnsw γ}

/-- A handle that is new. -/
def new (H : Hnsw γ) (S : TenantStore) : TenantHandle H :=
  ⟨S, .new H, []⟩

/-- The patches that are still to be applied. -/
def owed (config : VectorConfig γ) (w : TenantHandle H) : List (Patch String ℕ γ) :=
  owedPatches config w.tasks

/-- The next state of a handle. -/
def step (config : VectorConfig γ) (cosineSimilarity : List ℚ → List ℚ → ℚ) (w : TenantHandle H) :
    HandleStep → TenantHandle H
  | .commit order clock b =>
    match w.store.commitIngest cosineSimilarity order clock b with
    -- The index is not touched before the transaction is over.
    | .ok (S, outcome) => ⟨S, w.index, w.tasks ++ [.insert outcome.vectorBatch]⟩
    | .error _ => w
  | .delete order now memoryId reason =>
    let deletion := w.store.deleteObservation order now memoryId reason
    -- Every vector is to be removed under the entity of the deleted memory.
    ⟨deletion.1, w.index, w.tasks ++ [.remove deletion.2.entityId deletion.2.vectorIds]⟩
  | .reindex memoryIds =>
    ⟨w.store, w.index, w.tasks ++ [.insert (w.store.pendingVectors memoryIds)]⟩
  | .load entityId =>
    ⟨w.store, w.index.load config entityId (w.store.entityVectors entityId), w.tasks⟩
  | .advance i entityId =>
    match w.tasks[i]? with
    | some task =>
      ⟨w.store, task.advance config w.index entityId, w.tasks.set i (task.rest entityId)⟩
    | none => w

section

variable {config : VectorConfig γ} {cosineSimilarity : List ℚ → List ℚ → ℚ} {w : TenantHandle H}
  {order : HashOrder}

/-- The handle after a commit that succeeds. -/
theorem step_commit_of_ok {clock : IngestClock} {b : IngestBatches} {S : TenantStore}
    {outcome : CommitOutcome}
    (h : w.store.commitIngest cosineSimilarity order clock b = .ok (S, outcome)) :
    w.step config cosineSimilarity (.commit order clock b) =
      ⟨S, w.index, w.tasks ++ [.insert outcome.vectorBatch]⟩ := by
  simp only [step, h]

/-- The handle after a commit that fails. -/
theorem step_commit_of_error {clock : IngestClock} {b : IngestBatches} {error : String}
    (h : w.store.commitIngest cosineSimilarity order clock b = .error error) :
    w.step config cosineSimilarity (.commit order clock b) = w := by
  simp only [step, h]

/-- The handle after the next index step of a task. -/
theorem step_advance {i : ℕ} {task : IndexTask} (h : w.tasks[i]? = some task) (entityId : String) :
    w.step config cosineSimilarity (.advance i entityId) =
      ⟨w.store, task.advance config w.index entityId, w.tasks.set i (task.rest entityId)⟩ := by
  simp only [step, h]

/-- An index step of no task changes nothing. -/
theorem step_advance_of_none {i : ℕ} (h : w.tasks[i]? = none) (entityId : String) :
    w.step config cosineSimilarity (.advance i entityId) = w := by
  simp only [step, h]

end

/-! ## The condition -/

/-- The segment of an entity is loaded. -/
def Loaded (w : TenantHandle H) (entityId : String) : Prop :=
  (w.index.segments entityId).isSome

/-- A deletion that owes every vector it removes from a loaded segment: those of derived memories
are under the entity of the deleted one. -/
def DeletesWithin (w : TenantHandle H) (memoryId : String) : Prop :=
  ∀ v ∈ w.store.vectorLookup.rows, w.Loaded v.entityId →
    sqlHasPrefix (derivedPrefix memoryId) v.memoryId = true →
      ((w.store.memories.find? memoryId).map MemoryRow.entityId).getD "" = v.entityId

/-- A step that owes the loaded segments every vector that it takes from them, and puts no older
vector in the place of a newer one for good. -/
def Orderly (config : VectorConfig γ) (w : TenantHandle H) : HandleStep → Prop
  | .commit _ _ b => ∀ v ∈ w.store.vectorLookup.rows, w.Loaded v.entityId → b.Leaves v
  | .delete _ _ memoryId _ => w.DeletesWithin memoryId
  | .advance i entityId => ∀ task ∈ w.tasks[i]?,
    InTime (storedCode config w.store.vectorLookup) w.index.held (task.next config entityId)
      (owedPatches config (w.tasks.set i (task.rest entityId)))
  | _ => True

section

variable {w : TenantHandle H}

instance (entityId : String) : Decidable (w.Loaded entityId) :=
  inferInstanceAs (Decidable (Option.isSome _ = true))

instance (memoryId : String) : Decidable (w.DeletesWithin memoryId) :=
  inferInstanceAs (Decidable (∀ v ∈ w.store.vectorLookup.rows, _))

instance [DecidableEq γ] (config : VectorConfig γ) :
    (a : HandleStep) → Decidable (w.Orderly config a)
  | .commit _ _ b => inferInstanceAs
      (Decidable (∀ v ∈ w.store.vectorLookup.rows, w.Loaded v.entityId → b.Leaves v))
  | .delete _ _ memoryId _ => inferInstanceAs (Decidable (w.DeletesWithin memoryId))
  | .advance i _ => inferInstanceAs (Decidable (∀ task ∈ w.tasks[i]?, InTime _ _ _ _))
  | .reindex _ => .isTrue trivial
  | .load _ => .isTrue trivial

end

/-! ## One step -/

/-- The vectors are at their memories, and the loaded segments agree with them except where a patch
is still owed. -/
structure Sound (config : VectorConfig γ) (w : TenantHandle H) : Prop where
  anchored : Anchored w.store.memories w.store.vectorLookup
  coherent : Cache.Coherent (storedCode config w.store.vectorLookup) w.index.held (w.owed config)

section

variable {config : VectorConfig γ} {cosineSimilarity : List ℚ → List ℚ → ℚ} {w : TenantHandle H}

/-- A handle that is new agrees with the store. -/
theorem sound_new {S : TenantStore} (hS : Anchored S.memories S.vectorLookup) :
    (new H S).Sound config :=
  ⟨hS, Cache.Coherent.empty _ _⟩

/-- What is held is in a segment that is loaded. -/
theorem loaded_iff {entityId : String} : (w.index.held entityId).isSome ↔ w.Loaded entityId := by
  unfold VectorIndex.held Loaded
  rw [Option.isSome_map]

/-- The patches of a new task are owed as well. -/
theorem owedPatches_append (tasks : List IndexTask) (task : IndexTask) :
    owedPatches config (tasks ++ [task]) = owedPatches config tasks ++ task.patches config := by
  unfold owedPatches
  rw [List.flatMap_append, List.flatMap_singleton]

/-- A commit that leaves the stored vectors of the loaded segments to them. -/
theorem Sound.commit (hw : w.Sound config) (cosineSimilarity : List ℚ → List ℚ → ℚ)
    (order : HashOrder) (clock : IngestClock) {b : IngestBatches}
    (hb : ∀ v ∈ w.store.vectorLookup.rows, w.Loaded v.entityId → b.Leaves v) :
    (w.step config cosineSimilarity (.commit order clock b)).Sound config := by
  cases hcommit : w.store.commitIngest cosineSimilarity order clock b with
  | error e =>
    rw [step_commit_of_error hcommit]
    exact hw
  | ok result =>
    obtain ⟨S', outcome⟩ := result
    rw [step_commit_of_ok hcommit]
    refine ⟨hw.anchored.commitIngest hcommit, ?_⟩
    show Cache.Coherent _ _ (owedPatches config (w.tasks ++ [_]))
    rw [owedPatches_append]
    refine hw.coherent.write fun entityId hloaded id => ?_
    rcases storedCode_commitIngest hw.anchored hcommit entityId id with h | h | htaken
    · exact .inl h
    · exact .inr h
    · obtain ⟨v, hv, -, rfl, hleaves⟩ := htaken
      exact absurd (hb v hv (loaded_iff.mp hloaded)) hleaves

/-- A deletion that removes vectors of the loaded segments under the entity of the memory. -/
theorem Sound.delete (hw : w.Sound config) (cosineSimilarity : List ℚ → List ℚ → ℚ)
    (order : HashOrder) (now : UInt64) {memoryId : String} (reason : String)
    (hdelete : w.DeletesWithin memoryId) :
    (w.step config cosineSimilarity (.delete order now memoryId reason)).Sound config := by
  refine ⟨hw.anchored.deleteObservation, ?_⟩
  show Cache.Coherent _ _ (owedPatches config (w.tasks ++ [_]))
  rw [owedPatches_append]
  refine hw.coherent.write fun entityId hloaded id => ?_
  rcases storedCode_deleteObservation order now memoryId reason hw.anchored entityId id with
    h | h | hother
  · exact .inl h
  · exact .inr h
  · obtain ⟨v, hv, -, rfl, hprefix, hne⟩ := hother
    exact absurd (hdelete v hv (loaded_iff.mp hloaded) hprefix).symm hne

/-- Every step in order keeps the handle sound. -/
theorem Sound.step (hw : w.Sound config) {a : HandleStep} (ha : w.Orderly config a) :
    (w.step config cosineSimilarity a).Sound config := by
  cases a with
  | commit order clock b => exact hw.commit _ order clock ha
  | delete order now memoryId reason => exact hw.delete _ order now reason ha
  | reindex memoryIds =>
    refine ⟨hw.anchored, hw.coherent.owe fun p hp => ?_⟩
    show p ∈ owedPatches config (w.tasks ++ [_])
    rw [owedPatches_append]
    exact List.mem_append_left _ hp
  | load entityId =>
    exact ⟨hw.anchored, hw.coherent.load fun part held h => VectorIndex.held_load h⟩
  | advance i entityId =>
    cases htask : w.tasks[i]? with
    | none =>
      rw [step_advance_of_none htask]
      exact hw
    | some task =>
      rw [step_advance htask]
      exact ⟨hw.anchored, hw.coherent.apply (fun p hp => mem_owedPatches htask hp)
        (ha task htask) fun part held' h => held_advance task h⟩

end

end

/-! ## Runs -/

/-- When nothing is left to do after steps in order, the loaded segments hold exactly the vectors of
their entities. -/
theorem segments_run (H : Hnsw γ) {config : VectorConfig γ}
    {cosineSimilarity : List ℚ → List ℚ → ℚ} (earlier : List StoreStep) {steps : List HandleStep} :
    let S := earlier.foldl (TenantStore.step cosineSimilarity) TenantStore.empty
    let w := steps.foldl (step config cosineSimilarity) (new H S)
    EachStep (step config cosineSimilarity) (Orderly config) (new H S) steps →
      w.owed config = [] → w.index.Mirrors config w.store := by
  intro S w hrun howed
  have hS : Anchored S.memories S.vectorLookup := anchored_run earlier
  have hw : w.Sound config := hrun.invariant (fun _ _ hw ha => hw.step ha) (sound_new hS)
  have hcoherent := hw.coherent
  rw [howed] at hcoherent
  exact VectorIndex.mirrors_iff.mpr fun _ _ hheld => hcoherent.eq hheld

end TenantHandle

/-! ## Vectors out of order -/

/-- A memory with an embedding. -/
private def embedded (embedding : List ℚ) : UInt64 × String × AgentObservation :=
  (100, "alice::s1::0",
    { entityId := "alice"
      textualContent := "lives in Oslo"
      embedding := embedding
      kind := .fact
      contentHash := "h1"
      expiresAtMs := none
      sessionId := "s1"
      turnIndex := 0
      role := ""
      parentMemoryId := none })

/-- The commit of one memory. -/
private def embeddedCommit (embedding : List ℚ) : HandleStep :=
  .commit .insertion ⟨100, 100, 100⟩ { observations := [embedded embedding] }

/-- Vectors as they are, in flat segments of at most ten. -/
private def plainConfig : VectorConfig (List ℚ) :=
  ⟨id, 10⟩

/-- A memory is committed twice and its segment loaded; the second vector is inserted before the
first one. -/
theorem older_vector :
    let w := [embeddedCommit [1], embeddedCommit [2], .load "alice", .advance 1 "alice",
      .advance 0 "alice"].foldl (TenantHandle.step plainConfig fun _ _ => 0)
        (TenantHandle.new (Hnsw.exact (List ℚ)) TenantStore.empty)
    w.owed plainConfig = [] ∧ ¬ w.index.Mirrors plainConfig w.store :=
  ⟨by decide +kernel, VectorIndex.not_mirrors "alice" 1 (some [1])
    (by decide +kernel) (by decide +kernel)⟩

/-- The same with the vectors inserted in the order of the commits, and the memory deleted. -/
theorem vectors_in_turn :
    let w := [embeddedCommit [1], embeddedCommit [2], .load "alice", .advance 0 "alice",
      .advance 1 "alice", .delete .insertion 200 "alice::s1::0" "", .advance 2 "alice"].foldl
        (TenantHandle.step plainConfig fun _ _ => 0)
        (TenantHandle.new (Hnsw.exact (List ℚ)) TenantStore.empty)
    w.index.Mirrors plainConfig w.store :=
  TenantHandle.segments_run (Hnsw.exact (List ℚ)) [] (by decide +kernel) (by decide +kernel)

end Tellodb
