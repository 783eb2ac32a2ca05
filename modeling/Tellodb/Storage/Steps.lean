import Tellodb.Storage.Memories
import Tellodb.Relational.Run

/-!
# The store step by step

The two transactions that write facts, cards and the graph, as steps of the store. A commit that
fails leaves the store as it was. -/

namespace Tellodb

/-- A transaction on the store. -/
inductive StoreStep where
  /-- `commit_ingest` -/
  | commit (order : HashOrder) (clock : IngestClock) (b : IngestBatches)
  /-- `delete_observation` -/
  | delete (order : HashOrder) (now : UInt64) (memoryId reason : String)

/-- The store after a transaction. -/
def TenantStore.step (cosineSimilarity : List ℚ → List ℚ → ℚ) (S : TenantStore) :
    StoreStep → TenantStore
  | .commit order clock b =>
    match S.commitIngest cosineSimilarity order clock b with
    | .ok (S', _) => S'
    | .error _ => S
  | .delete order now memoryId reason => (S.deleteObservation order now memoryId reason).1

section

variable {cosineSimilarity : List ℚ → List ℚ → ℚ} {S : TenantStore} {order : HashOrder}
  {clock : IngestClock} {b : IngestBatches}

/-- The store after a commit that succeeds. -/
theorem TenantStore.step_commit_of_ok {result : TenantStore × CommitOutcome}
    (h : S.commitIngest cosineSimilarity order clock b = .ok result) :
    S.step cosineSimilarity (.commit order clock b) = result.1 := by
  simp only [TenantStore.step, h]

/-- The store after a commit that fails. -/
theorem TenantStore.step_commit_of_error {error : String}
    (h : S.commitIngest cosineSimilarity order clock b = .error error) :
    S.step cosineSimilarity (.commit order clock b) = S := by
  simp only [TenantStore.step, h]

end

end Tellodb
