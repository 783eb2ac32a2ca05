import Tellodb.Storage.Tenant

/-!
# Ingestion

`commitIngest` of `storage/repo/ingest.rs`: one transaction that writes the memories of a batch,
their cards, routers, preferences, links, metrics and consolidation tasks, and registers their
facts. It fails as a whole or not at all, so a failure is a result without a store. What happens
after the commit, in transactions of their own, are `markIndexed` and the steps of a reindexing
pass (`pendingRows`, `reindexDocs`, `finishReindex`).

The clock readings are parameters, as are the order in which the facts of a batch are grouped by
entity and the similarity of two predicates, a computation with floating-point numbers. -/

namespace Tellodb

open Relational

/-! ## Memories -/

/-- The columns an ingest writes over a stored memory. -/
def setObservation (timestamp recordedAt : UInt64) (o : AgentObservation) :
    RowAssignment MemoryRow.memoryId MemoryRow.rowid where
  set r :=
    { r with
      content := o.textualContent
      kind := o.kind
      createdAtMs := timestamp.toInt64
      entityId := o.entityId
      contentHash := o.contentHash
      sessionId := o.sessionId
      turnIndex := o.turnIndex
      role := o.role
      parentMemoryId := o.parentMemoryId
      recordedAtMs := recordedAt.toInt64
      expiresAtMs := o.expiresAtMs.map UInt64.toInt64
      indexed := false }
  key_set _ := rfl
  rowid_set _ := rfl

/-- The row of a new memory. -/
def newMemory (timestamp recordedAt : UInt64) (memoryId : String) (o : AgentObservation) :
    NewRow MemoryRow.rowid where
  withRowid rowid :=
    { rowid := rowid
      memoryId := memoryId
      entityId := o.entityId
      content := o.textualContent
      kind := o.kind
      contentHash := o.contentHash
      createdAtMs := timestamp.toInt64
      recordedAtMs := recordedAt.toInt64
      expiresAtMs := o.expiresAtMs.map UInt64.toInt64
      sessionId := o.sessionId
      turnIndex := o.turnIndex
      role := o.role
      parentMemoryId := o.parentMemoryId
      indexed := false }
  rowid_withRowid _ := rfl

/-- Writes one memory over its stored row, or as a new row. -/
def upsertMemory (recordedAt : UInt64) (t : AutoTable MemoryRow.memoryId MemoryRow.rowid)
    (item : UInt64 × String × AgentObservation) :
    AutoTable MemoryRow.memoryId MemoryRow.rowid × ℕ :=
  let (timestamp, memoryId, o) := item
  match t.find? memoryId with
  -- The row keeps its identifier, and with it the place of its vector.
  | some r => (t.updateWhere (fun v => v.rowid = r.rowid) (setObservation timestamp recordedAt o),
      r.rowid)
  | none => (t.insert (newMemory timestamp recordedAt memoryId o), t.sequence + 1)

/-- Stores the embedding of a memory under its row identifier, or removes it. -/
def putVector (rowid : ℕ) (t : Table VectorRow.vectorId)
    (item : UInt64 × String × AgentObservation) : Table VectorRow.vectorId :=
  let (timestamp, memoryId, o) := item
  -- Without an embedding the old vector goes.
  if o.embedding.isEmpty then t.deleteWhere fun v => v.vectorId = rowid
  else t.insertOrReplace ⟨rowid, memoryId, o.entityId, timestamp.toInt64, o.embedding⟩

/-- `insert_observations_tx`: the tables and the row identifiers of the memories. -/
def insertObservationsTx (recordedAt : UInt64) (S : TenantStore)
    (items : List (UInt64 × String × AgentObservation)) : TenantStore × List ℕ :=
  let (memories, vectors, rowids) := items.foldl
    (fun (s : AutoTable MemoryRow.memoryId MemoryRow.rowid × Table VectorRow.vectorId × List ℕ)
        item =>
      let (memories, rowid) := upsertMemory recordedAt s.1 item
      (memories, putVector rowid s.2.1 item, s.2.2 ++ [rowid]))
    (S.memories, S.vectorLookup, [])
  ({ S with memories := memories, vectorLookup := vectors }, rowids)

/-! ## Cards, preferences, links, metrics and tasks -/

/-- `insert_cards_tx` -/
def insertCardsTx (S : TenantStore) (cards : List MemoryCard) : TenantStore :=
  { S with memoryCards := cards.foldl Table.insertOrReplace S.memoryCards }

/-- `insert_preferences_tx` -/
def insertPreferencesTx (S : TenantStore) (preferences : List (String × List (String × ℚ))) :
    TenantStore :=
  { S with
    preferences := preferences.foldl (fun t p =>
      p.2.foldl (fun t item => t.insertOrReplace ⟨p.1, item.1, item.2⟩) t) S.preferences }

/-- `insert_memory_links_tx` -/
def insertMemoryLinksTx (S : TenantStore) (links : List (String × String × String)) :
    TenantStore :=
  { S with
    -- A link that is there stays as it is.
    memoryLinks := links.foldl (fun t link => t.insertOrIgnore ⟨link.1, link.2.1, link.2.2⟩)
      S.memoryLinks }

/-- A plain insert of a metric, refused if its place is taken. -/
def insertMetric (t : Table MetricRow.primaryKey) (row : MetricRow) :
    Except String (Table MetricRow.primaryKey) :=
  match t.find? row.primaryKey with
  | some _ => .error "UNIQUE constraint failed: metrics.memory_id, metrics.ordinal"
  | none => .ok (t.insertOrIgnore row)

/-- The rows of a list of metrics: each is numbered among those of its memory. -/
def metricRows (metrics : List IngestMetric) : List MetricRow :=
  metrics.zipIdx.map fun (metric, index) =>
    { memoryId := metric.memoryId
      ordinal := ((metrics.take index).filter fun m => m.memoryId = metric.memoryId).length
      entityId := metric.entityId
      timestampMs := metric.timestamp.toInt64
      label := metric.label
      value := metric.value
      unit := metric.unit
      sourceText := metric.sourceText }

/-- `insert_metrics_tx` -/
def insertMetricsTx (S : TenantStore) (memoryIds : List String) (metrics : List IngestMetric) :
    Except String TenantStore := do
  -- The metrics of the memories are deleted first, also of those that have none now.
  let t ← (metricRows metrics).foldlM insertMetric
    (S.metrics.deleteWhere fun row => row.memoryId ∈ memoryIds)
  return { S with metrics := t }

/-- `insert_consolidation_tasks_tx` -/
def insertConsolidationTasksTx (S : TenantStore) (tasks : List IngestConsolidationTask) :
    TenantStore :=
  { S with
    consolidationQueue := tasks.foldl (fun t task => t.insertOrReplace
      ⟨task.memoryId, task.entityId, task.timestamp.toInt64, task.textualContent⟩)
      S.consolidationQueue }

/-! ## Session routers -/

/-- The routers a batch has merged so far, in the order in which their sessions first came. -/
abbrev MergedRouters := List ((String × String) × SessionRouterRecord)

/-- Enters the merged record of a session. -/
def MergedRouters.put (merged : MergedRouters) (key : String × String)
    (record : SessionRouterRecord) : MergedRouters :=
  if merged.any fun entry => entry.1 = key then
    merged.map fun entry => if entry.1 = key then (key, record) else entry
  else merged ++ [(key, record)]

/-- Merges one fragment: with what the batch has merged for its session, else with the stored
router, else it is the router itself. -/
def mergeFragment (stored : Table SessionRouterRow.primaryKey) (merged : MergedRouters)
    (record : SessionRouterRecord) : MergedRouters :=
  let key := (record.sessionId, record.entityId)
  merged.put key <| match merged.lookup key with
    -- What the batch has merged for the session started from the stored router.
    | some previous => mergeRouterRecords previous record
    | none => match stored.find? key with
      | some row => mergeRouterRecords row.record record
      | none => record

/-- The columns a merge writes over a stored router. -/
def setRouter (record : SessionRouterRecord) (updatedAtMs : UInt64) :
    Assignment SessionRouterRow.primaryKey where
  set r := { r with record := record, routerText := record.routerText, updatedAtMs := updatedAtMs }
  key_set _ := rfl

/-- `INSERT INTO session_router ... ON CONFLICT DO UPDATE`. -/
def upsertRouter (t : Table SessionRouterRow.primaryKey) (sessionId entityId : String)
    (record : SessionRouterRecord) (createdAtMs updatedAtMs : UInt64) :
    Table SessionRouterRow.primaryKey :=
  match t.find? (sessionId, entityId) with
  | some _ => t.updateWhere (fun r => r.sessionId = sessionId ∧ r.entityId = entityId)
      (setRouter record updatedAtMs)
  | none => t.insertOrIgnore
      ⟨sessionId, entityId, record, record.routerText, createdAtMs, updatedAtMs⟩

/-- The document of a router among the memories. -/
def routerDoc (entityId sessionId routerText : String) : FtsDoc :=
  ftsDoc (routerId entityId sessionId) entityId routerText

/-- `merge_router_records_tx` -/
def mergeRouterRecordsTx (now : UInt64) (S : TenantStore) (updates : List SessionRouterRecord) :
    TenantStore :=
  let merged := (updates.foldl (mergeFragment S.sessionRouter) []).map Prod.snd
  { S with
    -- A source keeps its fragment, so that the router can be rebuilt without it.
    sessionRouterSources := updates.foldl (fun t record =>
      record.sourceMemoryIds.foldl (fun t memoryId =>
        t.insertOrReplace ⟨record.sessionId, record.entityId, memoryId, record⟩) t)
      S.sessionRouterSources
    sessionRouter := merged.foldl (fun t record =>
      upsertRouter t record.sessionId record.entityId record (min record.createdAtMs now) now)
      S.sessionRouter
    ftsSessionRouter := merged.foldl (fun t record => t.insertOrReplace
      ⟨record.sessionId, record.entityId, record.routerText⟩) S.ftsSessionRouter
    -- A router has no row in `memories`, so no later pass could index it.
    ftsMemories := (merged.filter fun record => !record.routerText.isEmpty).foldl (fun t record =>
      t.insertOrReplace (routerDoc record.entityId record.sessionId record.routerText))
      S.ftsMemories }

/-! ## Neighbour embeddings -/

/-- A memory whose embedding was replaced because a neighbour of it arrived. -/
structure NeighbourVector where
  memoryId : String
  vectorId : ℕ
  entityId : String
  embedding : List ℚ
  deriving DecidableEq

/-- `SET embedding = ?1` -/
def setEmbedding (embedding : List ℚ) : Assignment VectorRow.vectorId where
  set v := { v with embedding := embedding }
  key_set _ := rfl

/-- `SET indexed = ?` -/
def setIndexed (indexed : Bool) : RowAssignment MemoryRow.memoryId MemoryRow.rowid where
  set r := { r with indexed := indexed }
  key_set _ := rfl
  rowid_set _ := rfl

/-- The updates whose memory has a vector. The loop changes embeddings only, so the vectors can
be looked up before it. -/
def neighbourVectors (t : Table VectorRow.vectorId) (updates : List (String × List ℚ)) :
    List NeighbourVector :=
  -- A memory without a vector is passed over.
  updates.filterMap fun update => (t.rows.find? fun v => v.memoryId = update.1).map fun v =>
    ⟨update.1, v.vectorId, v.entityId, update.2⟩

/-- `update_neighbour_embeddings_tx` -/
def updateNeighbourEmbeddingsTx (S : TenantStore) (updates : List (String × List ℚ)) :
    TenantStore × List NeighbourVector :=
  let applied := neighbourVectors S.vectorLookup updates
  ({ S with
    vectorLookup := applied.foldl (fun t n =>
      t.updateWhere (fun v => v.vectorId = n.vectorId) (setEmbedding n.embedding)) S.vectorLookup
    memories := applied.foldl (fun t n =>
      t.updateWhere (fun r => r.memoryId = n.memoryId) (setIndexed false)) S.memories }, applied)

/-! ## Predicates -/

/-- The group of predicates that a new one joins: the most similar one at or above the threshold,
the first of several. -/
def bestGroup (cosineSimilarity : List ℚ → List ℚ → ℚ) (tau : ℚ)
    (t : Table PredicateCanonRow.primaryKey) (entityId : String) (embedding : List ℚ) :
    Option (String × ℚ) :=
  -- A predicate is compared with those that stand for a group.
  (t.rows.filter fun r => r.entityId = entityId ∧ r.predicate = r.canonical).foldl (fun best r =>
    match r.embedding with
    | some other =>
      let similarity := cosineSimilarity embedding other
      -- A tie stays with the earlier group.
      if other.length = embedding.length ∧ tau ≤ similarity ∧ best.all (fun b => b.2 < similarity)
      then some (r.canonical, similarity) else best
    | none => best) none

/-- One predicate of `canonicalize_predicates_tx`. -/
def canonicalizePredicate (cosineSimilarity : List ℚ → List ℚ → ℚ) (tau : ℚ) (entityId : String)
    (s : Table PredicateCanonRow.primaryKey × List ((String × String) × String))
    (item : String × List ℚ) :
    Table PredicateCanonRow.primaryKey × List ((String × String) × String) :=
  let (predicate, embedding) := item
  match s.1.find? (entityId, predicate) with
  -- What was assigned before stays.
  | some row => (s.1, s.2 ++ [((entityId, predicate), row.canonical)])
  | none =>
    let canonical := ((bestGroup cosineSimilarity tau s.1 entityId embedding).map Prod.fst).getD
      predicate
    -- Only a predicate that stands for its group is compared with later ones.
    (s.1.insertOrReplace ⟨entityId, predicate, canonical,
        if canonical = predicate then some embedding else none⟩,
      s.2 ++ [((entityId, predicate), canonical)])

/-- `canonicalize_predicates_tx` for every entity of a batch: the table and the canonical form of
each predicate. -/
def canonicalizePredicatesTx (cosineSimilarity : List ℚ → List ℚ → ℚ) (tau : ℚ) (S : TenantStore)
    (batch : List (String × List (String × List ℚ))) :
    TenantStore × List ((String × String) × String) :=
  let (t, assigned) := batch.foldl (fun s entry =>
    entry.2.foldl (canonicalizePredicate cosineSimilarity tau entry.1) s) (S.predicateCanon, [])
  ({ S with predicateCanon := t }, assigned)

/-- A fact under the canonical form of its key, which it keeps as its predicate. -/
def canonicalFact (assigned : List ((String × String) × String))
    (fact : IngestFactRegistration) : IngestFactRegistration :=
  match (assigned.lookup (fact.entityId, fact.factKey)).filter fun c => c ≠ fact.factKey with
  | some canonical =>
    { fact with
      predicate := String.ofList (fact.factKey.toList.map fun c => if c = '_' then ' ' else c)
      factKey := canonical }
  | none => fact

/-! ## Facts and the graph -/

/-- An edge to be written for a registered fact. -/
structure IngestGraphEdge where
  memoryId : String
  subject : String
  predicate : String
  object : String
  status : FactStatus
  refInfo : Option (String × String)
  timestamp : UInt64
  deriving DecidableEq

/-- The changes of `is_latest` that the status of a registered fact asks for. -/
def latestUpdates (status : FactVersionStatus) (fact : IngestFactRegistration) :
    List (String × Bool × UInt64) :=
  match status with
  -- The card of the version that was replaced is no longer the latest.
  | .current (some (_, oldId)) =>
    [(oldId, false, fact.timestamp), (fact.memoryId, true, fact.timestamp)]
  | .stale _ => [(fact.memoryId, false, fact.timestamp)]
  | .current none => [(fact.memoryId, true, fact.timestamp)]
  -- Evidence changes no card.
  | .confirmed _ => []

/-- The edges that the status of a registered fact asks for. -/
def graphEntries (status : FactVersionStatus) (fact : IngestFactRegistration) :
    List IngestGraphEdge :=
  let edge (memoryId : String) (status : FactStatus) (refInfo : Option (String × String)) :
      IngestGraphEdge :=
    ⟨memoryId, fact.subject, fact.predicate, fact.object, status, refInfo, fact.timestamp⟩
  match status with
  | .current (some (_, oldId)) =>
    [edge fact.memoryId .current (some (EdgeType.supersedes.asStr, oldId)),
      -- The edge of the version that was replaced, with the fact that replaced it.
      edge oldId .stale (some (EdgeType.supersededBy.asStr, fact.memoryId))]
  | .stale (_, currentId) =>
    [edge fact.memoryId .stale (some (EdgeType.supersededBy.asStr, currentId))]
  | .current none => [edge fact.memoryId .current none]
  -- Evidence has no edge.
  | .confirmed _ => []

/-- The identifier of the edge of a fact. -/
def factEdgeId (memoryId subject predicate : String) : String :=
  "edge::" ++ memoryId ++ "::" ++ subject ++ "::" ++ predicate

/-- The row of an edge. -/
def IngestGraphEdge.row (entry : IngestGraphEdge) : EdgeRow where
  edgeId := factEdgeId entry.memoryId entry.subject entry.predicate
  source := entry.subject
  target := entry.object
  edgeType := entry.predicate
  label := entry.subject ++ " " ++ entry.predicate ++ " " ++ entry.object
  weight := (EdgeType.fromStr entry.predicate).defaultWeight
  status := entry.status
  refSource := entry.refInfo.map Prod.fst
  refTarget := entry.refInfo.map Prod.snd
  timestampMs := entry.timestamp.toInt64
  memoryId := entry.memoryId

/-- `insert_graph_entries_tx` -/
def insertGraphEntriesTx (t : Table EdgeRow.edgeId) (entries : List IngestGraphEdge) :
    Table EdgeRow.edgeId :=
  (entries.filter fun entry =>
    !(trim entry.subject.toList).isEmpty && !(trim entry.object.toList).isEmpty).foldl
      (fun t entry => t.insertOrReplace entry.row) t

/-- The facts of a batch by entity, in the order in which the groups are iterated. -/
def groupFacts (order : HashOrder) (facts : List IngestFactRegistration) :
    List (String × List IngestFactRegistration) :=
  (order.iterate (facts.map IngestFactRegistration.entityId).dedup).map fun entityId =>
    (entityId, facts.filter fun fact => fact.entityId = entityId)

/-- A fact as it is registered under its entity. -/
def IngestFactRegistration.registration (fact : IngestFactRegistration) : FactRegistration where
  factKey := fact.factKey
  timestamp := fact.timestamp
  memoryId := fact.memoryId
  subject := fact.subject
  predicate := fact.predicate
  object := fact.object

/-- Registers the facts of one entity: the tables, and each fact with what became of it. -/
def registerGroup (recordedAt : UInt64)
    (s : FactTables × List (FactVersionStatus × IngestFactRegistration))
    (group : String × List IngestFactRegistration) :
    Except String (FactTables × List (FactVersionStatus × IngestFactRegistration)) := do
  let (T, statuses) ← s.1.registerFactVersionsTx group.1
    (group.2.map IngestFactRegistration.registration) recordedAt
  return (T, s.2 ++ statuses.zip group.2)

/-- `register_facts_tx`: the store, and the changes of `is_latest` to make. -/
def registerFactsTx (order : HashOrder) (recordedAt : UInt64) (S : TenantStore)
    (facts : List IngestFactRegistration) :
    Except String (TenantStore × List (String × Bool × UInt64)) := do
  let (T, outcomes) ← (groupFacts order facts).foldlM (registerGroup recordedAt) (S.facts, [])
  return ({ S with
      facts := T
      edges := insertGraphEntriesTx S.edges (outcomes.flatMap fun x => graphEntries x.1 x.2) },
    outcomes.flatMap fun x => latestUpdates x.1 x.2)

/-- `SET is_latest = ?1, updated_at_ms = ?2` -/
def setLatest (isLatest : Bool) (timestamp : UInt64) : Assignment MemoryCard.cardId where
  set card := { card with isLatest := isLatest, updatedAtMs := timestamp }
  key_set _ := rfl

/-- `update_card_latest_tx` -/
def updateCardLatestTx (S : TenantStore) (updates : List (String × Bool × UInt64)) :
    TenantStore :=
  { S with
    memoryCards := updates.foldl (fun t update =>
      t.updateWhere (fun card => card.cardId = update.1) (setLatest update.2.1 update.2.2))
      S.memoryCards }

/-- The edge of a card or a fact that has none yet. -/
def plainEdge (memoryId subject predicate object : String) (timestamp : UInt64) : EdgeRow where
  edgeId := factEdgeId memoryId subject predicate
  source := subject
  target := object
  edgeType := predicate
  label := subject ++ " " ++ predicate ++ " " ++ object
  weight := 1
  status := .current
  refSource := none
  refTarget := none
  timestampMs := timestamp.toInt64
  memoryId := memoryId

/-- `insert_card_edges_tx` -/
def insertCardEdgesTx (S : TenantStore) (cards : List MemoryCard)
    (facts : List IngestFactRegistration) : TenantStore :=
  let rows := cards.map (fun card => plainEdge card.sourceMemoryId card.subject card.predicate
      card.object card.createdAtMs) ++
    facts.map fun fact => plainEdge fact.memoryId fact.subject fact.predicate fact.object
      fact.timestamp
  { S with
    edges := (rows.filter fun row =>
      !row.source.isEmpty && !row.edgeType.isEmpty && !row.target.isEmpty).foldl
        Table.insertOrIgnore S.edges }

/-! ## The commit -/

/-- The clock readings of a commit. -/
structure IngestClock where
  /-- The recording time of the memories. -/
  observations : UInt64
  /-- The time the routers are updated. -/
  routers : UInt64
  /-- The recording time of the facts. -/
  facts : UInt64

/-- What a commit hands to the steps after it. -/
structure CommitOutcome where
  vectorIds : List ℕ
  ftsBatch : List (String × String × String)
  /-- The vectors to insert into the index, each with its entity. -/
  vectorBatch : List (String × ℕ × List ℚ)
  indexedMemoryIds : List String
  deriving DecidableEq

/-- What the steps after a commit are to index. -/
def commitOutcome (b : IngestBatches) (vectorIds : List ℕ) (neighbours : List NeighbourVector) :
    CommitOutcome where
  vectorIds := vectorIds
  ftsBatch := b.ftsBatch
  vectorBatch :=
    ((b.observations.zip vectorIds).filter fun x => !x.1.2.2.embedding.isEmpty).map
      (fun x => (x.1.2.2.entityId, x.2, x.1.2.2.embedding)) ++
    neighbours.map fun n => (n.entityId, n.vectorId, n.embedding)
  indexedMemoryIds :=
    (orderBy id (b.observations.map (fun item => item.2.1) ++
      neighbours.map NeighbourVector.memoryId)).dedup

/-- `commit_ingest` -/
def TenantStore.commitIngest (cosineSimilarity : List ℚ → List ℚ → ℚ) (order : HashOrder)
    (clock : IngestClock) (S : TenantStore) (b : IngestBatches) :
    Except String (TenantStore × CommitOutcome) := do
  let (S, vectorIds) := insertObservationsTx clock.observations S b.observations
  let S := insertCardsTx S b.memoryCardBatch
  let S := mergeRouterRecordsTx clock.routers S b.sessionRouterUpdates
  let S := insertPreferencesTx S b.preferenceBatch
  let S := insertMemoryLinksTx S b.memoryLinksBatch
  let S ← insertMetricsTx S b.metricMemoryIds b.metricBatch
  let S := insertConsolidationTasksTx S b.consolidationTasks
  let (S, neighbours) := updateNeighbourEmbeddingsTx S b.neighbourEmbeddingUpdates
  let (S, assigned) := canonicalizePredicatesTx cosineSimilarity b.predicateCanonTau S
    b.predicateCanonBatch
  let facts := b.factBatch.map (canonicalFact assigned)
  let (S, factUpdates) ← registerFactsTx order clock.facts S facts
  let S := updateCardLatestTx S (b.memoryCardLatestUpdates ++ factUpdates)
  let S := insertCardEdgesTx S b.memoryCardBatch facts
  return (S, commitOutcome b vectorIds neighbours)

/-! ## After the commit -/

/-- `mark_indexed` -/
def TenantStore.markIndexed (S : TenantStore) (memoryIds : List String) : TenantStore :=
  { S with
    memories := memoryIds.foldl (fun t memoryId =>
      t.updateWhere (fun r => r.memoryId = memoryId) (setIndexed true)) S.memories }

/-- A memory that waits to be indexed, as a reindexing pass reads it. -/
structure PendingIndexRow where
  memoryId : String
  entityId : String
  content : String
  kind : MemoryKind
  contentHash : String
  sessionId : String
  vector : Option (ℕ × List ℚ)
  deriving DecidableEq

/-- `FROM memories m LEFT JOIN vector_lookup v ON v.memory_id = m.memory_id`, for the row of one
memory. -/
def pendingOf (S : TenantStore) (r : MemoryRow) : List PendingIndexRow :=
  let row (vector : Option (ℕ × List ℚ)) : PendingIndexRow :=
    ⟨r.memoryId, r.entityId, r.content, r.kind, r.contentHash, r.sessionId, vector⟩
  match S.vectorLookup.rows.filter fun v => v.memoryId = r.memoryId with
  | [] => [row none]
  | vectors => vectors.map fun v => row (some (v.vectorId, v.embedding))

/-- The rows `reindex_unindexed` reads. -/
def TenantStore.pendingRows (S : TenantStore) (limit : ℕ) : List PendingIndexRow :=
  ((S.memories.rows.filter fun r => !r.indexed).flatMap (pendingOf S)).take limit

/-- The largest number of values in one `IN (...)`. -/
def inChunk : ℕ := 500

/-- The rows `reindex_memory_ids` reads. -/
def TenantStore.pendingRowsOf (S : TenantStore) (memoryIds : List String) : List PendingIndexRow :=
  (memoryIds.toChunks inChunk).flatMap fun chunk =>
    (S.memories.rows.filter fun r => !r.indexed && decide (r.memoryId ∈ chunk)).flatMap
      (pendingOf S)

/-- The documents of a reindexing pass: those of its rows, and the routers of their sessions. -/
def TenantStore.reindexDocs (order : HashOrder) (S : TenantStore) (rows : List PendingIndexRow) :
    List (String × String × String) :=
  (rows.filterMap fun r =>
    (indexTextFor r.kind r.content).map fun text => (r.memoryId, r.entityId, text)) ++
  (order.iterate ((rows.filter fun r => !r.sessionId.isEmpty).map fun r =>
    (r.entityId, r.sessionId)).dedup).filterMap fun session =>
      (S.sessionRouter.find? (session.2, session.1)).map fun router =>
        (routerId session.1 session.2, session.1, router.routerText)

/-- The last step of a reindexing pass for one row: the memory is complete if it still has the
content that was read, else it is to be indexed again. -/
def finishRow (t : AutoTable MemoryRow.memoryId MemoryRow.rowid) (row : PendingIndexRow) :
    AutoTable MemoryRow.memoryId MemoryRow.rowid :=
  let finishes (r : MemoryRow) : Bool :=
    r.memoryId = row.memoryId ∧ r.contentHash = row.contentHash ∧ r.indexed = false
  if t.rows.any finishes then t.updateWhere finishes (setIndexed true)
  else t.updateWhere (fun r => r.memoryId = row.memoryId ∧ r.contentHash ≠ row.contentHash)
    (setIndexed false)

/-- The last step of a reindexing pass. -/
def TenantStore.finishReindex (S : TenantStore) (rows : List PendingIndexRow) : TenantStore :=
  { S with memories := rows.foldl finishRow S.memories }

end Tellodb
