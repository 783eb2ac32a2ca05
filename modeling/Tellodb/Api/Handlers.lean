import Tellodb.Api.Auth
import Tellodb.Embedding.Batches
import Tellodb.Facts.Keys
import Tellodb.Semantic.Rerank
import Tellodb.Storage.Consolidation
import Tellodb.Storage.Reads
import Tellodb.Vectors.InTurn

/-!
# Handlers

The handlers of memories, facts, graph and queries (`api/handlers`) on the state of a server: the
databases, the tenants that are open, and the cache of the reranker, which all tenants share. Each
handler turns the principal into a tenant, the user of the key or `default`, and then works on that
tenant alone. How a payload is expanded and how a query is answered are parameters: any functions of
the tenant, the second with the answers of the reranker. -/

namespace Tellodb

open Relational Cache

/-! ## Requests and responses -/

/-- What is read of the surroundings while a request is served. -/
structure Moment where
  order : HashOrder
  clock : IngestClock
  now : UInt64

/-- A request to one of the handlers. -/
inductive Request where
  /-- `batch_ingest_handler`, and `ingest_handler` for one item. -/
  | ingest (items : List IngestPayload)
  /-- `query_handler` -/
  | query (payload : QueryPayload)
  /-- `current_fact_handler` -/
  | currentFact (entityId : Option String) (factKey : String) (asOfMs : Option UInt64)
  /-- `fact_history_handler` -/
  | factHistory (entityId : Option String) (factKey : String)
  /-- `graph_query_handler` -/
  | graphQuery (userId : Option String) (subject : String) (direction : Option String)
    (limit : Option ℕ)
  /-- `graph_walk_handler` -/
  | graphWalk (userId : Option String) (node : String) (direction : Option String)
    (limit : Option ℕ)
  /-- `graph_export_handler` -/
  | graphExport (userId : Option String) (seed : String) (direction : Option String)
    (maxNodes : Option ℕ)
  /-- `memory_inspect_handler` -/
  | memoryInspect (memoryId : String) (includeTurnWindow : Option Bool)
    (turnWindowRadius : Option UInt32)
  /-- `memory_delete_handler` -/
  | memoryDelete (memoryId : String) (reason : Option String)
  /-- `reset_handler` -/
  | reset (confirm : Option String)

/-- `MemoryAuditObservation` -/
structure MemoryAuditObservation where
  entityId : String
  kind : String
  createdAtMs : UInt64
  textualContent : String
  deriving DecidableEq

/-- `MemoryInspectResponse` -/
structure MemoryInspectResponse where
  memoryId : String
  timestamp : Option UInt64
  observation : Option MemoryAuditObservation
  card : Option MemoryCard
  ledgerTurn : Option LedgerTurn
  lifecycle : Option String
  deletionTombstones : List DeletionTombstone
  turnWindow : List LedgerTurn
  deriving DecidableEq

/-- `MemoryDeleteResponse` -/
structure MemoryDeleteResponse where
  deleted : Bool
  memoryId : String
  timestamp : Option UInt64
  vectorId : Option ℕ
  tombstone : Option DeletionTombstone
  ftsRemoved : ℕ
  graphEdgesRemoved : ℕ
  deriving DecidableEq

/-- What a handler returns. The results of a query are of a type of their own. -/
inductive Response (ρ : Type) where
  | refused (status : StatusCode)
  | created
  | results (results : ρ)
  | currentFact (entityId factKey : String) (asOfMs : Option UInt64)
    (version : Option FactHistoryEntry) (versions : ℕ)
  | factHistory (entityId factKey : String) (history : List FactHistoryEntry)
  | edges (edges : List GraphEdge)
  | inspected (response : MemoryInspectResponse)
  | deleted (response : MemoryDeleteResponse)
  | reset
  deriving DecidableEq

/-! ## The handlers -/

/-- What a handler does with the handle of its tenant: it responds, or has texts scored and goes on
with the scores. -/
inductive Program {γ : Type} (H : Hnsw γ) (F ρ : Type) where
  | respond (response : Response ρ) (tenant : TenantHandle H)
  | rerank (q : String) (texts : List String) (next : Except String (List F) → Program H F ρ)

/-- The parts of a server that its requests do not change. -/
structure Services {γ : Type} (H : Hnsw γ) (F ρ : Type) where
  /-- The operator's key. -/
  apiKey : Option String
  /-- `authenticate_api_key` -/
  authenticateApiKey : String → Except String (Option ApiKeyAuth)
  embedding : EmbedSettings
  vectors : VectorConfig γ
  /-- The hasher of `rerank_cache_key`. -/
  hash : List UInt8 → UInt64
  rerankers : List (TextRerank F)
  /-- What an ingest makes of its payloads; it may load segments of the tenant. -/
  expand : Moment → List IngestPayload → TenantHandle H →
    Except StatusCode (Arrival × TenantHandle H)
  /-- `query_handler` after the tenant is opened. -/
  search : Moment → QueryPayload → TenantHandle H → Program H F ρ

section

variable {γ : Type} {H : Hnsw γ} {F ρ : Type}

/-- `scope`, after the tenant is opened. -/
def scopedEntity (requested : Option String) : Except StatusCode String :=
  match requested.filter fun e => !(trim e.toList).isEmpty with
  | some entityId => .ok entityId
  | none => .error .badRequest

/-- `scoped_graph_node_id`, unless the request names the node itself. -/
def scopedGraphNode (userId : Option String) (node : String) : Except StatusCode String :=
  if (trim node.toList).isEmpty then
    (scopedEntity userId).map fun id => String.ofList (trim id.toList)
  else .ok (String.ofList (trim node.toList))

/-- The edges at the node that a graph handler is asked for. -/
def graphEdges (S : TenantStore) (node : String) (direction : Option String) (limit : ℕ) :
    Response ρ :=
  .edges (S.graphQueryEdges node (EdgeDirection.parse direction) limit)

/-- `current_fact_handler`, with the number of versions -/
def currentFactHandler (S : TenantStore) (entityId : Option String) (factKey : String)
    (asOfMs : Option UInt64) : Response ρ :=
  match S.currentFactHandler entityId factKey asOfMs with
  | .error _ => .refused .badRequest
  | .ok version => .currentFact (entityId.getD "") factKey asOfMs version
    (S.factHistory (entityId.getD "") factKey).length

/-- `fact_history_handler` -/
def factHistoryHandler (S : TenantStore) (entityId : Option String) (factKey : String) :
    Response ρ :=
  match scopedEntity entityId with
  | .error status => .refused status
  | .ok entityId => .factHistory entityId factKey (S.factHistory entityId factKey)

/-- `memory_inspect_handler` -/
def memoryInspectHandler (S : TenantStore) (memoryId : String) (includeTurnWindow : Option Bool)
    (turnWindowRadius : Option UInt32) : Response ρ :=
  let timestamp := (S.lookupByMemoryId memoryId).map Prod.fst
  let card := S.getMemoryCard memoryId
  let ledgerTurn := S.getLedgerTurn memoryId
  .inspected
    { memoryId := memoryId
      timestamp := timestamp
      observation := timestamp.bind fun timestamp =>
        (S.getObservation memoryId).map fun o =>
          ⟨o.entityId, o.kind.asStr, timestamp, o.textualContent⟩
      card := card
      ledgerTurn := ledgerTurn
      lifecycle := card.map MemoryCard.lifecycle
      deletionTombstones := S.getDeletionTombstones memoryId 8
      turnWindow :=
        if includeTurnWindow.getD false then
          (ledgerTurn.map fun turn => S.getTurnWindow turn.entityId turn.sessionId turn.turnIndex
            (min (turnWindowRadius.getD 2) 8)).getD []
        else [] }

/-- `memory_delete_handler` -/
def memoryDeleteHandler (m : Moment) (w : TenantHandle H) (memoryId : String)
    (reason : Option String) : Response ρ × TenantHandle H :=
  let reason := (reason.filter fun reason => !(trim reason.toList).isEmpty).getD "api_delete"
  match w.store.lookupByMemoryId memoryId with
  -- Nothing is there to be deleted, which is no error.
  | none => (.deleted ⟨false, memoryId, none, none, none, 0, 0⟩, w)
  | some found =>
    let deletion := w.store.deleteObservation m.order m.now memoryId reason
    (.deleted ⟨true, memoryId, some found.1, deletion.2.vectorId, some deletion.2.tombstone,
        deletion.2.ftsRemoved, deletion.2.graphEdgesRemoved⟩,
      -- The vectors leave the index after the transaction.
      ⟨deletion.1, w.index.removeVectors deletion.2.entityId deletion.2.vectorIds, w.tasks⟩)

/-- `spawn_consolidation_tasks` -/
def TenantStore.consolidate (now : UInt64) (S : TenantStore)
    (tasks : List IngestConsolidationTask) : TenantStore :=
  tasks.foldl (fun S task =>
    (S.updateCoreProfileHeuristic now task).completeConsolidationTask task.memoryId) S

/-- `batch_ingest_handler`, to the end of the work that it leaves to the background. -/
def batchIngestHandler (E : Services H F ρ) (m : Moment) (w : TenantHandle H)
    (items : List IngestPayload) : Response ρ × TenantHandle H :=
  match E.expand m items w with
  | .error status => (.refused status, w)
  | .ok (arrival, w) =>
    let b := batchOf E.embedding w.store arrival
    match w.store.commitIngest E.embedding.cosineSimilarity m.order m.clock b with
    -- A commit that fails leaves the handle as the expansion has left it.
    | .error _ => (.refused .internalServerError, w)
    | .ok (S, outcome) =>
      (.created,
        ⟨(S.indexCommitted m.order arrival.faults outcome).consolidate m.now b.consolidationTasks,
          w.index.insertVectors E.vectors m.order outcome.vectorBatch, w.tasks⟩)

/-- `reset_handler` -/
def resetHandler (w : TenantHandle H) (confirm : Option String) : Response ρ × TenantHandle H :=
  -- Either of two words confirms.
  if confirm ≠ some "delete-all-data" ∧ confirm ≠ some "RESET_DATA_DANGEROUS" then
    (.refused .badRequest, w)
  else (.reset, .new H .empty)

/-- A handler that only reads the store. -/
def reads (response : TenantStore → Response ρ) (w : TenantHandle H) : Program H F ρ :=
  .respond (response w.store) w

/-- A handler that responds after one pass over the handle. -/
def performs (handler : TenantHandle H → Response ρ × TenantHandle H) (w : TenantHandle H) :
    Program H F ρ :=
  .respond (handler w).1 (handler w).2

/-- What is done for a request once its tenant is open; the graph handlers refuse a request without
a node before that. -/
def Request.program (E : Services H F ρ) (m : Moment) :
    Request → Except StatusCode (TenantHandle H → Program H F ρ)
  | .ingest items => .ok (performs fun w => batchIngestHandler E m w items)
  | .query payload => .ok (E.search m payload)
  | .currentFact entityId factKey asOfMs =>
    .ok (reads fun S => currentFactHandler S entityId factKey asOfMs)
  | .factHistory entityId factKey => .ok (reads fun S => factHistoryHandler S entityId factKey)
  | .graphQuery userId subject direction limit =>
    (scopedGraphNode userId subject).map fun node =>
      reads fun S => graphEdges S node direction (min (limit.getD 50) 500)
  | .graphWalk userId node direction limit =>
    (scopedGraphNode userId node).map fun node =>
      reads fun S => graphEdges S node direction (min (limit.getD 250) 2000)
  | .graphExport userId seed direction maxNodes =>
    (scopedGraphNode userId seed).map fun node =>
      reads fun S => graphEdges S node direction (min (maxNodes.getD 500) 5000)
  | .memoryInspect memoryId includeTurnWindow turnWindowRadius =>
    .ok (reads fun S => memoryInspectHandler S memoryId includeTurnWindow turnWindowRadius)
  | .memoryDelete memoryId reason => .ok (performs fun w => memoryDeleteHandler m w memoryId reason)
  | .reset confirm => .ok (performs fun w => resetHandler w confirm)

end

/-! ## The server -/

/-- The state of a server. A database is there when its tenant is not open as well. -/
structure Server {γ : Type} (H : Hnsw γ) (F : Type) where
  stores : String → TenantStore
  /-- The index of each tenant that is open. -/
  tenants : LruCache String (VectorIndex H)
  rerankCache : LruCache UInt64 (List F)

/-- A request with the key that it is sent with. -/
structure Call where
  apiKey : Option String
  request : Request
  moment : Moment

section

variable {γ : Type} {H : Hnsw γ} {F ρ : Type}

/-- A program with the reranker: what is responded, the handle after it, and the cache. -/
def Program.run [Zero F] (E : Services H F ρ) (cache : LruCache UInt64 (List F)) :
    Program H F ρ → Response ρ × TenantHandle H × LruCache UInt64 (List F)
  | .respond response tenant => (response, tenant, cache)
  | .rerank q texts next =>
    (next (predictScoresBatch E.hash E.rerankers cache q texts).1).run E
      (predictScoresBatch E.hash E.rerankers cache q texts).2

/-- The tenant of a principal. -/
def RequestPrincipal.tenantId (principal : RequestPrincipal) : String :=
  (principalUserId principal).getD "default"

namespace Server

/-- `tenant_store`: the handle of a tenant, which is opened if it is not. -/
def tenantStore (w : Server H F) (tenantId : String) : TenantHandle H :=
  ⟨w.stores tenantId, (w.tenants.peek tenantId).getD (.new H), []⟩

/-- The server after the handle of a tenant is used. -/
def put (w : Server H F) (tenantId : String) (tenant : TenantHandle H)
    (rerankCache : LruCache UInt64 (List F)) : Server H F :=
  ⟨Function.update w.stores tenantId tenant.store, w.tenants.put tenantId tenant.index, rerankCache⟩

/-- The server after a request, and the response. -/
def serve [Zero F] (E : Services H F ρ) (w : Server H F) (c : Call) : Server H F × Response ρ :=
  match authorizeRequest E.apiKey E.authenticateApiKey c.apiKey with
  -- A request that is refused leaves the server as it is.
  | .error status => (w, .refused status)
  | .ok principal =>
    match c.request.program E c.moment with
    | .error status => (w, .refused status)
    | .ok program =>
      let out := (program (w.tenantStore principal.tenantId)).run E w.rerankCache
      (w.put principal.tenantId out.2.1 out.2.2, out.1)

end Server

end

end Tellodb
