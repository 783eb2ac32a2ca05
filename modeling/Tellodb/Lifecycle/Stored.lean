import Tellodb.Relational.Since
import Tellodb.Storage.Reads
import Tellodb.Storage.Tasks
import Tellodb.Vectors.Stored

/-!
# What stays stored

A memory is read back with `lookup_by_memory_id` and `get_observations_batch`. Between the request
that stores it and the one that reads it, other requests are committed, indexing and reindexing
passes and consolidations go on transaction by transaction, and may fail, and memories are deleted,
on request or by the purge, which deletes one memory after the other. `read_after` says that the
store is a map nevertheless: a memory reads as it was sent last, until a deletion of it, or of a
memory that its identifier extends. -/

namespace Tellodb

open Relational

/-! ## Events -/

/-- What may happen to the store. -/
inductive StoreEvent where
  /-- A commit, or a step of a task or background pass. -/
  | world (a : WorldStep)
  /-- `delete_observation`, on request or as one round of `purge_expired_memories`. -/
  | delete (order : HashOrder) (now : UInt64) (memoryId reason : String)

/-- The store and the tasks after an event. -/
def World.after (cosineSimilarity : List ℚ → List ℚ → ℚ) (w : World) : StoreEvent → World
  | .world a => w.step cosineSimilarity a
  | .delete order now memoryId reason =>
    ⟨(w.store.deleteObservation order now memoryId reason).1, w.tasks⟩

/-- What a memory reads as: its event time, its commit time and its observation. -/
abbrev ReadMemory := UInt64 × UInt64 × AgentObservation

/-- A row as it is read. -/
def MemoryRow.read (r : MemoryRow) : ReadMemory :=
  (r.createdAtMs.toUInt64, r.recordedAtMs.toUInt64, r.observation)

/-- `lookup_by_memory_id` and `get_observations_batch` of a memory. -/
def TenantStore.read (S : TenantStore) (memoryId : String) : Option ReadMemory :=
  (S.memories.find? memoryId).map MemoryRow.read

/-- A memory as it was sent: without the embedding and the hash, which are not read back. -/
def sentAs (recordedAt : UInt64) (item : UInt64 × String × AgentObservation) : ReadMemory :=
  (item.1, recordedAt, { item.2.2 with embedding := [], contentHash := "" })

section

variable (cosineSimilarity : List ℚ → List ℚ → ℚ)

/-- What an event sends of a memory: the last one of the batch under its identifier, if the commit
goes through. -/
def StoreEvent.sends (w : World) (memoryId : String) : StoreEvent → Option ReadMemory
  | .world (.commit order clock b) =>
    (w.store.commitIngest cosineSimilarity order clock b).toOption.bind fun _ =>
      (lastItem b.observations memoryId).map (sentAs clock.observations)
  | _ => none

/-- An event deletes a memory: the deletion is of the memory, or of one that its identifier
extends. -/
def StoreEvent.deletes (memoryId : String) : StoreEvent → Prop
  | .delete _ _ deleted _ => isOf deleted memoryId = true
  | _ => False

end

/-! ## Marks -/

section

variable {S S' : TenantStore} {memoryId : String} {value : ReadMemory}

/-- The marks of the memories are not read. -/
theorem read_of_unmarked (h : S'.memories.rows.map unmarked = S.memories.rows.map unmarked)
    (memoryId : String) : S'.read memoryId = S.read memoryId :=
  column_of_unmarked (fun _ => rfl) h memoryId

/-- A task sets and clears marks of memories only. -/
theorem unmarked_advance (order : HashOrder) (vectorsFail : Bool) (now : UInt64) (S : TenantStore)
    (task : Task) :
    (task.advance order vectorsFail now S).1.memories.rows.map unmarked =
      S.memories.rows.map unmarked := by
  -- A task sets the marks of memories and nothing else of them.
  cases task with
  | committed ingest =>
    cases hindex : S.ftsIndexBatch ingest.outcome.ftsBatch with
    | error e => rw [Task.advance_committed_of_error hindex]
    | ok S' =>
      rw [Task.advance_committed_of_ok hindex]
      obtain ⟨docs, rfl⟩ := ftsIndexBatch_inv hindex
      rfl
  | failed ingest => rfl
  | read rows repairs => rfl
  | gathered rows docs repairs =>
    cases hindex : S.ftsIndexBatch docs with
    | error e => rw [Task.advance_gathered_of_error hindex]
    | ok S' =>
      rw [Task.advance_gathered_of_ok hindex]
      obtain ⟨t, rfl⟩ := ftsIndexBatch_inv hindex
      rfl
  | indexed rows repairs => exact unmarked_foldl_setIndexed unmarked_finishRow
  | written ingest =>
    exact unmarked_foldl_setIndexed fun t memoryId =>
      unmarked_updateWhere t (fun r => r.memoryId = memoryId) true
  | consolidating tasks =>
    cases tasks with
    | nil => rfl
    | cons first rest =>
      obtain ⟨t, ht⟩ := updateCoreProfileHeuristic_inv now S first
      rw [Task.advance_consolidating, ht]
  | consolidated memoryId rest => rfl

/-! ## One event -/

/-- A deletion takes the memories whose identifiers extend that of the deleted one. -/
theorem read_deleteObservation (order : HashOrder) (now : UInt64)
    (deleted reason memoryId : String) :
    (S.deleteObservation order now deleted reason).1.read memoryId =
      if isOf deleted memoryId = true then none else S.read memoryId := by
  unfold TenantStore.read
  have hfind : (S.deleteObservation order now deleted reason).1.memories.find? memoryId =
      if isOf deleted memoryId = true then none else S.memories.find? memoryId := by
    refine Option.ext fun r => ?_
    rw [Table.find?_eq_some, mem_memories_deleteObservation]
    split_ifs with hof
    · refine iff_of_false ?_ (by simp)
      rintro ⟨⟨-, hkept⟩, rfl⟩
      exact absurd hof (by simp [hkept])
    · rw [Table.find?_eq_some]
      constructor
      · exact fun h => ⟨h.1.1, h.2⟩
      · rintro ⟨hr, rfl⟩
        exact ⟨⟨hr, Bool.eq_false_iff.mpr hof⟩, rfl⟩
  rw [hfind]
  split_ifs <;> rfl

/-- A row that is written reads as the memory was sent. -/
theorem read_memoryRow (recordedAt : UInt64) (item : UInt64 × String × AgentObservation)
    (rowid : ℕ) : (memoryRow recordedAt item rowid).read = sentAs recordedAt item := by
  obtain ⟨timestamp, memoryId, o⟩ := item
  have hexpires : (o.expiresAtMs.map UInt64.toInt64).map Int64.toUInt64 = o.expiresAtMs := by
    cases o.expiresAtMs with
    | none => rfl
    | some t => exact congrArg some (UInt64.toUInt64_toInt64 t)
  unfold MemoryRow.read MemoryRow.observation sentAs memoryRow newMemory
  dsimp only
  rw [hexpires, UInt64.toUInt64_toInt64, UInt64.toUInt64_toInt64]

/-- What a memory reads as after a commit. -/
theorem read_commitIngest {cosineSimilarity : List ℚ → List ℚ → ℚ} {order : HashOrder}
    {clock : IngestClock} {b : IngestBatches} {outcome : CommitOutcome}
    (h : S.commitIngest cosineSimilarity order clock b = .ok (S', outcome)) (memoryId : String) :
    S'.read memoryId =
      ((lastItem b.observations memoryId).map (sentAs clock.observations)).or
        (S.read memoryId) := by
  have hcolumn : (S'.memories.find? memoryId).map MemoryRow.read =
      (lastItem b.observations memoryId).elim (S.read memoryId) fun item =>
        some (sentAs clock.observations item) :=
    column_commitIngest (fun _ => rfl) (read_memoryRow clock.observations) h memoryId
  refine hcolumn.trans ?_
  cases lastItem b.observations memoryId <;> rfl

/-- What a memory reads as after an event that deletes nothing. -/
theorem read_world (cosineSimilarity : List ℚ → List ℚ → ℚ) (w : World) (a : WorldStep)
    (memoryId : String) :
    (w.step cosineSimilarity a).store.read memoryId =
      ((StoreEvent.world a).sends cosineSimilarity w memoryId).or (w.store.read memoryId) := by
  -- Only a commit sends anything.
  cases a with
  | commit order clock b =>
    cases h : w.store.commitIngest cosineSimilarity order clock b with
    | error e =>
      rw [World.step_commit_of_error h]
      simp only [StoreEvent.sends, h, Except.toOption, Option.bind_none, Option.none_or]
    | ok result =>
      rw [World.step_commit_of_ok h, read_commitIngest h]
      simp only [StoreEvent.sends, h, Except.toOption, Option.bind_some]
  | reindex limit => rfl
  | consolidate limit => rfl
  | advance index order vectorsFail now =>
    refine Eq.trans ?_ (Option.none_or ..).symm
    cases htask : w.tasks[index]? with
    | none => rw [World.step_advance_of_none htask]
    | some task =>
      rw [World.step_advance htask]
      exact read_of_unmarked (unmarked_advance order vectorsFail now w.store task) memoryId
  | fail index =>
    refine Eq.trans ?_ (Option.none_or ..).symm
    simp only [World.step]
    split <;> rfl

/-- An event sends a memory, or leaves it as it is, or deletes it. -/
theorem read_after_event (cosineSimilarity : List ℚ → List ℚ → ℚ) (w : World) (e : StoreEvent) :
    (w.after cosineSimilarity e).store.read memoryId = some value ↔
      e.sends cosineSimilarity w memoryId = some value ∨
        w.store.read memoryId = some value ∧
          ¬ (e.deletes memoryId ∨ (e.sends cosineSimilarity w memoryId).isSome) := by
  cases e with
  | world a =>
    have hdeletes : (StoreEvent.world a).deletes memoryId = False := rfl
    unfold World.after
    rw [read_world, hdeletes, false_or]
    cases (StoreEvent.world a).sends cosineSimilarity w memoryId with
    | none => simp
    | some sent => simp
  | delete order now deleted reason =>
    have hread := read_deleteObservation (S := w.store) order now deleted reason memoryId
    have hdeletes : (StoreEvent.delete order now deleted reason).deletes memoryId =
        (isOf deleted memoryId = true) := rfl
    have hsends : (StoreEvent.delete order now deleted reason).sends cosineSimilarity w memoryId =
        none := rfl
    unfold World.after
    rw [hread, hdeletes, hsends]
    by_cases hof : isOf deleted memoryId = true
    · simp [hof]
    · simp [hof]

end

/-! ## Runs -/

/-- After any run from an empty store, a memory reads as something exactly if it was sent so, and
since then it was not sent again and no memory was deleted that it is, or that its identifier
extends. -/
theorem read_after (cosineSimilarity : List ℚ → List ℚ → ℚ) (events : List StoreEvent)
    (memoryId : String) (value : ReadMemory) :
    (events.foldl (World.after cosineSimilarity) ⟨TenantStore.empty, []⟩).store.read memoryId =
        some value ↔
      Since (World.after cosineSimilarity)
        (fun w e => e.sends cosineSimilarity w memoryId = some value)
        (fun w e => e.deletes memoryId ∨ (e.sends cosineSimilarity w memoryId).isSome)
        ⟨TenantStore.empty, []⟩ events := by
  have hrun : EachStep (World.after cosineSimilarity) (fun _ _ => True) ⟨TenantStore.empty, []⟩
      events := fun _ _ _ _ => trivial
  exact foldl_iff_since (I := fun _ => True)
    (P := fun w : World => w.store.read memoryId = some value) hrun (fun _ _ _ _ => trivial)
    (fun w e _ _ => read_after_event cosineSimilarity w e) trivial (by
      change ¬ none = some value
      simp)

end Tellodb
