import Tellodb.Storage.Ingest

/-!
# The ingest pipeline around the commit

`execute_ingest_pipeline` and `commit_batches` of `api/handlers/ingest.rs`, as far as they decide
what is committed and what is indexed: re-sends are skipped before the commit, and after it the
documents of the batch are indexed and its memories marked, each in a transaction of its own. When
the indexing of documents or vectors fails, `reindex_memory_ids` tries once more. -/

namespace Tellodb

/-! ## Before the commit -/

/-- `should_keep_payload` -/
def shouldKeepPayload (stored : Option (String × Bool)) (contentHash : String) : Bool :=
  match stored with
  | some (storedHash, indexed) => storedHash ≠ contentHash || !indexed
  | none => true

/-- `stored_content_states`, for one memory: its hash, and whether it is indexed. -/
def TenantStore.storedContentState (S : TenantStore) (memoryId : String) : Option (String × Bool) :=
  (S.memories.find? memoryId).map fun r => (r.contentHash, r.indexed)

/-- The payloads of a request that are not skipped as re-sends, each with the observation that is
made of it. -/
def TenantStore.keptPayloads (S : TenantStore)
    (payloads : List (UInt64 × String × AgentObservation)) :
    List (UInt64 × String × AgentObservation) :=
  payloads.filter fun item =>
    shouldKeepPayload (S.storedContentState item.2.1) item.2.2.contentHash

/-- The documents that `build_artifacts` makes of the observations of a batch. -/
def ftsBatchOf (observations : List (UInt64 × String × AgentObservation)) :
    List (String × String × String) :=
  observations.filterMap fun item =>
    (indexTextFor item.2.2.kind item.2.2.textualContent).map fun text =>
      (item.2.1, item.2.2.entityId, text)

/-- What becomes of the payloads of a request: some of those that are kept are dropped again as
semantic duplicates of stored facts, and the rest are committed with their documents. -/
structure TenantStore.Prepares (S : TenantStore)
    (payloads : List (UInt64 × String × AgentObservation)) (b : IngestBatches) : Prop where
  observations : b.observations.Sublist (S.keptPayloads payloads)
  ftsBatch : b.ftsBatch = ftsBatchOf b.observations

/-! ## After the commit -/

/-- Which of the writes to the vector index fail. -/
structure VectorFaults where
  /-- The vectors of the batch. -/
  batch : Bool
  /-- The vectors of the memories that are indexed again. -/
  repair : Bool

/-- `reindex_memory_ids`: the store, and whether the pass succeeds. Its documents stay when the
vectors fail. -/
def TenantStore.reindexMemoryIds (order : HashOrder) (vectorsFail : Bool) (S : TenantStore)
    (memoryIds : List String) : TenantStore × Bool :=
  let rows := S.pendingRowsOf memoryIds
  match S.ftsIndexBatch (S.reindexDocs order rows) with
  | .error _ => (S, false)
  | .ok S => if vectorsFail then (S, false) else (S.finishReindex rows, true)

/-- The end of `commit_batches`: the documents are indexed and the memories marked. When the
documents or the vectors fail, the memories that wait to be indexed are indexed again first, and
nothing is marked if that fails too. -/
def TenantStore.indexCommitted (order : HashOrder) (faults : VectorFaults) (S : TenantStore)
    (outcome : CommitOutcome) : TenantStore :=
  let indexed := S.ftsIndexBatch outcome.ftsBatch
  let S := indexed.toOption.getD S
  if indexed.toOption.isSome && !faults.batch then S.markIndexed outcome.indexedMemoryIds
  else
    let repaired := S.reindexMemoryIds order faults.repair outcome.indexedMemoryIds
    if repaired.2 then repaired.1.markIndexed outcome.indexedMemoryIds else repaired.1

end Tellodb
