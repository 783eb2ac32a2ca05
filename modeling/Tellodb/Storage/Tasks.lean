import Tellodb.Storage.Consolidation
import Tellodb.Storage.Pipeline

/-!
# Ingests and background passes side by side

An ingest is a chain of transactions: the commit, its documents, its marks, and detached from it the
core profiles of its memories. So is a reindexing pass: the memories that wait are read, then the
routers of their sessions, then documents are written, and last the memories are finished. Between
two of them the transactions of others may run. A `Task` is what an ingest or a pass has left to do,
and a `World` is the store with all tasks under way. -/

namespace Tellodb

/-- What an ingest carries along after its commit. -/
structure Ingest where
  outcome : CommitOutcome
  /-- The tasks that it is to hand to `spawn_consolidation_tasks`. -/
  consolidation : List IngestConsolidationTask
  deriving DecidableEq

/-- An ingest or a background pass between two of its transactions. -/
inductive Task where
  /-- An ingest that has committed. -/
  | committed (ingest : Ingest)
  /-- An ingest whose documents or vectors failed. -/
  | failed (ingest : Ingest)
  /-- A reindexing pass that has read its memories, and the ingest it repairs if there is one. -/
  | read (rows : List PendingIndexRow) (repairs : Option Ingest)
  /-- A reindexing pass that has its documents. -/
  | gathered (rows : List PendingIndexRow) (docs : List (String × String × String))
      (repairs : Option Ingest)
  /-- A reindexing pass that has written its documents and vectors. -/
  | indexed (rows : List PendingIndexRow) (repairs : Option Ingest)
  /-- An ingest that has its documents and vectors written or repaired, and marks next. -/
  | written (ingest : Ingest)
  /-- Memories whose texts are to join core profiles. -/
  | consolidating (tasks : List IngestConsolidationTask)
  /-- The same after one of them joined, which is to leave the queue. -/
  | consolidated (memoryId : String) (tasks : List IngestConsolidationTask)
  deriving DecidableEq

/-- The next transaction of a task, with the store and what is left of the task after it. The
documents of an ingest are written beside its vectors, which may fail alone. -/
def Task.advance (order : HashOrder) (vectorsFail : Bool) (now : UInt64) (S : TenantStore) :
    Task → TenantStore × Option Task
  | .committed ingest =>
    match S.ftsIndexBatch ingest.outcome.ftsBatch with
    | .error _ => (S, some (.failed ingest))
    -- The documents stay even if the vectors fail.
    | .ok S => (S, some (if vectorsFail then .failed ingest else .written ingest))
  | .failed ingest =>
    -- The repair reads the memories anew.
    (S, some (.read (S.pendingRowsOf ingest.outcome.indexedMemoryIds) (some ingest)))
  | .read rows repairs => (S, some (.gathered rows (S.reindexDocs order rows) repairs))
  | .gathered rows docs repairs =>
    match S.ftsIndexBatch docs with
    -- A pass that fails leaves its memories pending.
    | .error _ => (S, none)
    | .ok S => (S, if vectorsFail then none else some (.indexed rows repairs))
  | .indexed rows repairs => (S.finishReindex rows, repairs.map .written)
  | .written ingest =>
    (S.markIndexed ingest.outcome.indexedMemoryIds, some (.consolidating ingest.consolidation))
  | .consolidating [] => (S, none)
  | .consolidating (task :: tasks) =>
    (S.updateCoreProfileHeuristic now task, some (.consolidated task.memoryId tasks))
  | .consolidated memoryId tasks =>
    (S.completeConsolidationTask memoryId, some (.consolidating tasks))

section

variable {order : HashOrder} {vectorsFail : Bool} {now : UInt64} {S S' : TenantStore}
  {ingest : Ingest} {rows : List PendingIndexRow} {repairs : Option Ingest}
  {docs : List (String × String × String)} {error : String}

/-- An ingest that writes its documents. -/
theorem Task.advance_committed_of_ok (h : S.ftsIndexBatch ingest.outcome.ftsBatch = .ok S') :
    (Task.committed ingest).advance order vectorsFail now S =
      (S', some (if vectorsFail then .failed ingest else .written ingest)) := by
  simp only [Task.advance, h]

/-- An ingest whose documents are refused. -/
theorem Task.advance_committed_of_error
    (h : S.ftsIndexBatch ingest.outcome.ftsBatch = .error error) :
    (Task.committed ingest).advance order vectorsFail now S = (S, some (.failed ingest)) := by
  simp only [Task.advance, h]

/-- A reindexing pass that writes its documents. -/
theorem Task.advance_gathered_of_ok (h : S.ftsIndexBatch docs = .ok S') :
    (Task.gathered rows docs repairs).advance order vectorsFail now S =
      (S', if vectorsFail then none else some (.indexed rows repairs)) := by
  simp only [Task.advance, h]

/-- A reindexing pass whose documents are refused. -/
theorem Task.advance_gathered_of_error (h : S.ftsIndexBatch docs = .error error) :
    (Task.gathered rows docs repairs).advance order vectorsFail now S = (S, none) := by
  simp only [Task.advance, h]

/-- A memory that joins the core profile of its entity. -/
theorem Task.advance_consolidating {task : IngestConsolidationTask}
    {tasks : List IngestConsolidationTask} :
    (Task.consolidating (task :: tasks)).advance order vectorsFail now S =
      (S.updateCoreProfileHeuristic now task, some (.consolidated task.memoryId tasks)) := rfl

end

/-- What is left of a task when its next transaction fails: an ingest tries to repair its documents,
the next memory is consolidated, and a task that fails otherwise ends. -/
def Task.fail : Task → Option Task
  | .committed ingest => some (.failed ingest)
  | .consolidating (_ :: tasks) => some (.consolidating tasks)
  | .consolidated _ tasks => some (.consolidating tasks)
  | _ => none

/-- A task goes on after a failure as an ingest that failed or with the next memory to
consolidate. -/
theorem Task.fail_cases (task : Task) {left : Task} (h : task.fail = some left) :
    (∃ ingest, left = .failed ingest) ∨ ∃ tasks, left = .consolidating tasks := by
  unfold Task.fail at h
  split at h
  · exact .inl ⟨_, (Option.some.inj h).symm⟩
  · exact .inr ⟨_, (Option.some.inj h).symm⟩
  · exact .inr ⟨_, (Option.some.inj h).symm⟩
  · exact absurd h (by simp)

/-- The store and the tasks under way. -/
structure World where
  store : TenantStore
  tasks : List Task

/-- What may happen next. -/
inductive WorldStep where
  /-- `commit_ingest` of a new ingest. -/
  | commit (order : HashOrder) (clock : IngestClock) (b : IngestBatches)
  /-- A new `reindex_unindexed`. -/
  | reindex (limit : ℕ)
  /-- A new `run_pending_consolidations`. -/
  | consolidate (limit : ℕ)
  /-- The next transaction of a task. -/
  | advance (index : ℕ) (order : HashOrder) (vectorsFail : Bool) (now : UInt64)
  /-- The next transaction of a task, which fails. -/
  | fail (index : ℕ)

/-- The tasks with one of them replaced by what is left of it. -/
def replaceTask (tasks : List Task) (index : ℕ) : Option Task → List Task
  | some task => tasks.set index task
  | none => tasks.eraseIdx index

/-- The next state of the store and the tasks. -/
def World.step (cosineSimilarity : List ℚ → List ℚ → ℚ) (w : World) : WorldStep → World
  | .commit order clock b =>
    match w.store.commitIngest cosineSimilarity order clock b with
    | .ok (S, outcome) => ⟨S, w.tasks ++ [.committed ⟨outcome, b.consolidationTasks⟩]⟩
    -- A commit that fails leaves nothing behind.
    | .error _ => w
  | .reindex limit => ⟨w.store, w.tasks ++ [.read (w.store.pendingRows limit) none]⟩
  | .consolidate limit =>
    ⟨w.store, w.tasks ++ [.consolidating (w.store.pendingConsolidationTasks limit)]⟩
  | .advance index order vectorsFail now =>
    match w.tasks[index]? with
    | some task =>
      let next := task.advance order vectorsFail now w.store
      ⟨next.1, replaceTask w.tasks index next.2⟩
    | none => w
  | .fail index =>
    match w.tasks[index]? with
    | some task => ⟨w.store, replaceTask w.tasks index task.fail⟩
    | none => w

/-- A task after a step is what is left of the one that is replaced, or was there. -/
theorem mem_replaceTask {tasks : List Task} {index : ℕ} {next : Option Task} {task : Task}
    (h : task ∈ replaceTask tasks index next) : next = some task ∨ task ∈ tasks := by
  cases next with
  | some left =>
    rcases List.mem_or_eq_of_mem_set h with hmem | rfl
    · exact .inr hmem
    · exact .inl rfl
  | none => exact .inr (List.mem_of_mem_eraseIdx h)

section

variable {cosineSimilarity : List ℚ → List ℚ → ℚ} {w : World} {order : HashOrder} {index : ℕ}
  {task : Task}

/-- The state after a commit that succeeds. -/
theorem World.step_commit_of_ok {clock : IngestClock} {b : IngestBatches} {S : TenantStore}
    {outcome : CommitOutcome}
    (h : w.store.commitIngest cosineSimilarity order clock b = .ok (S, outcome)) :
    w.step cosineSimilarity (.commit order clock b) =
      ⟨S, w.tasks ++ [.committed ⟨outcome, b.consolidationTasks⟩]⟩ := by
  simp only [World.step, h]

/-- The state after a commit that fails. -/
theorem World.step_commit_of_error {clock : IngestClock} {b : IngestBatches} {error : String}
    (h : w.store.commitIngest cosineSimilarity order clock b = .error error) :
    w.step cosineSimilarity (.commit order clock b) = w := by
  simp only [World.step, h]

/-- The state after the next transaction of a task. -/
theorem World.step_advance (h : w.tasks[index]? = some task) (vectorsFail : Bool) (now : UInt64) :
    w.step cosineSimilarity (.advance index order vectorsFail now) =
      ⟨(task.advance order vectorsFail now w.store).1,
        replaceTask w.tasks index (task.advance order vectorsFail now w.store).2⟩ := by
  simp only [World.step, h]

/-- The state after the next transaction of a task fails. -/
theorem World.step_fail (h : w.tasks[index]? = some task) :
    w.step cosineSimilarity (.fail index) = ⟨w.store, replaceTask w.tasks index task.fail⟩ := by
  simp only [World.step, h]

/-- A transaction of no task changes nothing. -/
theorem World.step_advance_of_none (h : w.tasks[index]? = none) (vectorsFail : Bool)
    (now : UInt64) : w.step cosineSimilarity (.advance index order vectorsFail now) = w := by
  simp only [World.step, h]

/-- Nothing fails without a task. -/
theorem World.step_fail_of_none (h : w.tasks[index]? = none) :
    w.step cosineSimilarity (.fail index) = w := by
  simp only [World.step, h]

end

end Tellodb
