import Tellodb.Storage.Ingest

/-!
# Deletion

`deleteObservation` of `storage/repo/memories.rs`: one transaction that removes a memory and
everything recorded under an identifier that extends its own, and rebuilds what was made from
several memories: the chains of the affected facts, the routers of the affected sessions and the
core profiles. -/

namespace Tellodb

open Relational

/-! ## The records of a memory -/

/-- What the identifiers of records derived from a memory start with. -/
def derivedPrefix (memoryId : String) : String :=
  memoryId ++ separator

/-- `substr(x, 1, length(?)) = ?`. The length of a text ends before its first `NUL`, so a text with
one is no prefix of anything. -/
def sqlHasPrefix (start x : String) : Bool :=
  start.toList.isPrefixOf x.toList && decide ('\x00' ∉ start.toList)

/-- `memory_id = ?1 OR substr(memory_id, 1, length(?2)) = ?2`: the memory itself, or a record whose
identifier extends its own. -/
def isOf (memoryId x : String) : Bool :=
  x = memoryId || sqlHasPrefix (derivedPrefix memoryId) x

/-- The same in memory, by `str::starts_with`. -/
def startsOf (memoryId x : String) : Bool :=
  x = memoryId || (derivedPrefix memoryId).toList.isPrefixOf x.toList

/-! ## Facts -/

/-- The columns that the rebuild of a chain sets on one of its versions. -/
def setRebuilt (timestampMs : Int64) (previous next : Option (String × Int64)) :
    RowAssignment FactVersion.primaryKey FactVersion.rowid where
  set v :=
    { v with
      -- The last version of the chain is the current one.
      status := if next.isNone then .current else .stale
      validFromMs := timestampMs
      validToMs := next.map Prod.snd
      supersededBy := next.map Prod.fst
      supersedes := previous.map Prod.fst }
  key_set _ := rfl
  rowid_set _ := rfl

/-- The updates of a rebuild: each version of the chain, between its neighbours. -/
def FactTables.relink (T : FactTables) (factKey entityId : String)
    (chain : List (String × Int64)) : FactTables :=
  (chain.zipIdx).foldl (fun T (version, index) =>
    T.updateVersions
      (fun v => v.factKey = factKey ∧ v.entityId = entityId ∧ v.memoryId = version.1)
      (setRebuilt version.2 (if index = 0 then none else chain[index - 1]?) chain[index + 1]?)) T

/-- The edge of a version as the rebuild of its chain writes it. -/
def rebuiltEdge (v : FactVersion) : EdgeRow where
  edgeId := factEdgeId v.memoryId v.subject v.predicate
  source := v.subject
  target := v.object
  edgeType := v.predicate
  label := v.subject ++ " " ++ v.predicate ++ " " ++ v.object
  weight := (EdgeType.fromStr v.predicate).defaultWeight
  status := v.status
  refSource :=
    if v.status = .current then v.supersedes.map fun _ => EdgeType.supersedes.asStr
    else v.supersededBy.map fun _ => EdgeType.supersededBy.asStr
  refTarget := if v.status = .current then v.supersedes else v.supersededBy
  timestampMs := v.timestampMs
  memoryId := v.memoryId

/-- `rebuild_fact_chain_after_delete` -/
def rebuildFactChainAfterDelete (s : FactTables × Table EdgeRow.edgeId)
    (fact : String × String) : FactTables × Table EdgeRow.edgeId :=
  let (factKey, entityId) := fact
  let T := s.1.relink factKey entityId
    ((s.1.timeline factKey entityId).map fun v => (v.memoryId, v.timestampMs))
  -- A version without a subject, a predicate or an object has no edge.
  (T, ((T.chain factKey entityId).filter fun v =>
    !v.subject.isEmpty && !v.predicate.isEmpty && !v.object.isEmpty).foldl
      (fun t v => t.insertOrReplace (rebuiltEdge v)) s.2)

/-- The facts that have a version of a memory. -/
def FactTables.affectedFacts (T : FactTables) (memoryId : String) : List (String × String) :=
  ((T.versions.rows.filter fun v => isOf memoryId v.memoryId).map fun v =>
    (v.factKey, v.entityId)).dedup

/-- The fact tables without the versions and the evidence of a memory. -/
def FactTables.without (T : FactTables) (memoryId : String) : FactTables where
  versions := T.versions.deleteWhere fun v => isOf memoryId v.memoryId
  evidence := T.evidence.deleteWhere fun e =>
    -- Evidence goes with the memory that gave it and with the version that it is for.
    isOf memoryId e.memoryId || isOf memoryId e.versionMemoryId

/-- The facts and the graph after the deletion of a memory. An edge goes with the memory that it
is recorded under or refers to. -/
def deleteFacts (memoryId : String) (T : FactTables) (edges : Table EdgeRow.edgeId) :
    FactTables × Table EdgeRow.edgeId :=
  (T.affectedFacts memoryId).foldl rebuildFactChainAfterDelete
    (T.without memoryId, edges.deleteWhere fun e =>
      isOf memoryId e.memoryId || e.refSource.any (isOf memoryId) ||
        e.refTarget.any (isOf memoryId))

/-! ## Session routers -/

/-- The sessions whose router a memory contributed to. -/
def TenantStore.affectedRouters (S : TenantStore) (memoryId : String) :
    List (String × String) :=
  ((S.sessionRouter.rows.filter fun r =>
      -- A router names its memories, and its sources do so once more.
      r.record.sourceMemoryIds.any (startsOf memoryId)).map SessionRouterRow.primaryKey ++
    (S.sessionRouterSources.rows.filter fun r => isOf memoryId r.memoryId).map fun r =>
      (r.sessionId, r.entityId)).dedup

/-- What is left of a router: the fragments of the other memories, merged in the order of their
identifiers. -/
def rebuiltRouter (sources : Table RouterSource.primaryKey) (sessionId entityId : String) :
    Option SessionRouterRecord :=
  match (orderBy RouterSource.memoryId (sources.rows.filter fun r =>
      r.sessionId = sessionId ∧ r.entityId = entityId)).map RouterSource.record with
  | [] => none
  | first :: rest =>
    let merged := rest.foldl mergeRouterRecords first
    some { merged with routerText := buildSessionRouterText merged }

/-- `rebuild_router_after_delete` -/
def rebuildRouterAfterDelete (S : TenantStore) (session : String × String) : TenantStore :=
  let (sessionId, entityId) := session
  match rebuiltRouter S.sessionRouterSources sessionId entityId with
  -- Nothing is left of the session, so its rows and its documents go.
  | none =>
    { S with
      ftsSessionRouter := S.ftsSessionRouter.deleteWhere fun d =>
        d.rowid = routerRowid entityId sessionId
      sessionRouter := S.sessionRouter.deleteWhere fun r =>
        r.sessionId = sessionId ∧ r.entityId = entityId
      ftsMemories := S.ftsMemories.deleteWhere fun d =>
        d.rowid = ftsRowid (routerId entityId sessionId) }
  | some merged =>
    { S with
      sessionRouter := upsertRouter S.sessionRouter sessionId entityId merged merged.createdAtMs
        merged.updatedAtMs
      ftsSessionRouter := S.ftsSessionRouter.insertOrReplace
        ⟨sessionId, entityId, merged.routerText⟩
      ftsMemories := S.ftsMemories.insertOrReplace
        (routerDoc entityId sessionId merged.routerText) }

/-! ## Core profiles -/

/-- A profile without the facts of a memory. A fact that names no memory stays. -/
def CoreProfile.without (p : CoreProfile) (memoryId : String) : CoreProfile :=
  { p with facts := p.facts.filter fun f => !f.memoryId.any (startsOf memoryId) }

/-- `SET profile_json = ?1, updated_at_ms = ?2`, for a profile that loses facts. -/
def setProfileWithout (memoryId : String) (now : UInt64) : Assignment CoreProfileRow.entityId where
  set r := { r with profile := r.profile.without memoryId, updatedAtMs := now }
  key_set _ := rfl

/-- `remove_deleted_from_core_profiles` -/
def removeDeletedFromCoreProfiles (t : Table CoreProfileRow.entityId) (memoryId : String)
    (now : UInt64) : Table CoreProfileRow.entityId :=
  t.updateWhere (fun r => r.profile.facts.any fun f => f.memoryId.any (startsOf memoryId))
    (setProfileWithout memoryId now)

/-! ## The deletion -/

/-- What a deletion reports. -/
structure DeletedObservation where
  vectorId : Option ℕ
  /-- Vectors of chunk memories removed along with the parent. -/
  chunkVectorIds : List ℕ
  entityId : String
  tombstone : DeletionTombstone
  ftsRemoved : ℕ
  graphEdgesRemoved : ℕ
  deriving DecidableEq

/-- The record of a deletion. -/
def tombstone (memoryId reason : String) (now : UInt64) : DeletionTombstone where
  tombstoneId := "tombstone::" ++ memoryId
  scope := "memory"
  targetId := memoryId
  deletedAtMs := now
  reason := reason
  cascadeCount := 0
  proofHash := ""

/-- The memories that go with the deleted one, each with its vector if it has one. -/
def TenantStore.chunksOf (S : TenantStore) (memoryId : String) : List (String × Option ℕ) :=
  -- The prefix is that of derived records, whatever entity they are of.
  (S.memories.rows.filter fun r => sqlHasPrefix (derivedPrefix memoryId) r.memoryId).flatMap
    fun r => match S.vectorLookup.rows.filter fun v => v.memoryId = r.memoryId with
      | [] => [(r.memoryId, none)]
      | vectors => vectors.map fun v => (r.memoryId, some v.vectorId)

/-- Removes one of the memories that go with the deleted one. -/
def deleteChunk (S : TenantStore) (chunkId : String) : TenantStore :=
  { S with
    ftsMemories := S.ftsMemories.deleteWhere fun d => d.rowid = ftsRowid chunkId
    vectorLookup := S.vectorLookup.deleteWhere fun v => v.memoryId = chunkId
    memories := S.memories.deleteWhere fun r => r.memoryId = chunkId }

/-- The deletes of `delete_observation` that come before any rebuild, with the facts and the
graph. -/
def deleteRecords (now : UInt64) (S : TenantStore) (memoryId reason : String) : TenantStore :=
  -- Without the memory itself, before the cascade is read.
  let vectorLookup := S.vectorLookup.deleteWhere fun v => v.memoryId = memoryId
  let facts := deleteFacts memoryId S.facts S.edges
  { S with
    deletionTombstones := S.deletionTombstones.insertOrReplace (tombstone memoryId reason now)
    memories := S.memories.deleteWhere fun r => r.memoryId = memoryId
    metrics := S.metrics.deleteWhere fun r => isOf memoryId r.memoryId
    ftsMemories := S.ftsMemories.deleteWhere fun d => d.rowid = ftsRowid memoryId
    negativeCentroids := S.negativeCentroids.deleteWhere fun r => isOf memoryId r.memoryId
    disambiguationVectors := S.disambiguationVectors.deleteWhere fun r => isOf memoryId r.memoryId
    vectorLookup := vectorLookup
    memoryCards := S.memoryCards.deleteWhere fun card =>
      card.sourceMemoryId = memoryId || isOf memoryId card.cardId
    memoryLinks := S.memoryLinks.deleteWhere fun link =>
      isOf memoryId link.sourceMemoryId || isOf memoryId link.targetMemoryId
    preferences := S.preferences.deleteWhere fun r => isOf memoryId r.memoryId
    consolidationQueue := S.consolidationQueue.deleteWhere fun r => isOf memoryId r.memoryId
    facts := facts.1
    edges := facts.2
    sessionRouterSources := S.sessionRouterSources.deleteWhere fun r => isOf memoryId r.memoryId
    coreProfiles := removeDeletedFromCoreProfiles S.coreProfiles memoryId now }

/-- `delete_observation` -/
def TenantStore.deleteObservation (order : HashOrder) (now : UInt64) (S : TenantStore)
    (memoryId reason : String) : TenantStore × DeletedObservation :=
  -- The chunks are read before anything is deleted.
  let chunks := S.chunksOf memoryId
  let S₁ := deleteRecords now S memoryId reason
  -- Sessions come in the order of a hash set.
  let S₂ := (order.iterate (S.affectedRouters memoryId)).foldl rebuildRouterAfterDelete S₁
  let S₃ := (chunks.map Prod.fst).foldl deleteChunk S₂
  (S₃,
    { vectorId := (S.vectorLookup.rows.find? fun v => v.memoryId = memoryId).map VectorRow.vectorId
      chunkVectorIds := chunks.filterMap Prod.snd
      entityId := ((S.memories.find? memoryId).map MemoryRow.entityId).getD ""
      tombstone := tombstone memoryId reason now
      ftsRemoved :=
        (S.ftsMemories.rows.length - S₁.ftsMemories.rows.length) +
          (S₂.ftsMemories.rows.length - S₃.ftsMemories.rows.length)
      graphEdgesRemoved := S.edges.rows.length - (S.edges.deleteWhere fun e =>
        isOf memoryId e.memoryId || e.refSource.any (isOf memoryId) ||
          e.refTarget.any (isOf memoryId)).rows.length })

/-! ## What a deletion leaves alone -/

/-- The removal of chunks writes their documents, their vectors and their rows. -/
theorem foldl_deleteChunk_frame (chunkIds : List String) (S : TenantStore) :
    ∃ ftsMemories vectorLookup memories, chunkIds.foldl deleteChunk S =
      { S with ftsMemories := ftsMemories, vectorLookup := vectorLookup, memories := memories } := by
  induction chunkIds generalizing S with
  | nil => exact ⟨S.ftsMemories, S.vectorLookup, S.memories, rfl⟩
  | cons chunkId chunkIds ih =>
    obtain ⟨ftsMemories, vectorLookup, memories, h⟩ := ih (deleteChunk S chunkId)
    exact ⟨ftsMemories, vectorLookup, memories, h⟩

/-- The rebuild of routers writes these and their documents. -/
theorem foldl_rebuildRouter_frame (sessions : List (String × String)) (S : TenantStore) :
    ∃ ftsMemories sessionRouter ftsSessionRouter, sessions.foldl rebuildRouterAfterDelete S =
      { S with
        ftsMemories := ftsMemories
        sessionRouter := sessionRouter
        ftsSessionRouter := ftsSessionRouter } := by
  induction sessions generalizing S with
  | nil => exact ⟨S.ftsMemories, S.sessionRouter, S.ftsSessionRouter, rfl⟩
  | cons session sessions ih =>
    obtain ⟨sessionId, entityId⟩ := session
    obtain ⟨ftsMemories, sessionRouter, ftsSessionRouter, h⟩ :=
      ih (rebuildRouterAfterDelete S (sessionId, entityId))
    refine ⟨ftsMemories, sessionRouter, ftsSessionRouter, h.trans ?_⟩
    cases hrouter : rebuiltRouter S.sessionRouterSources sessionId entityId <;>
      simp only [rebuildRouterAfterDelete, hrouter]

/-- A deletion leaves what its deletes leave, but for the routers, the memories, their vectors and
the documents. -/
theorem deleteObservation_frame (order : HashOrder) (now : UInt64) (S : TenantStore)
    (memoryId reason : String) :
    ∃ memories vectorLookup ftsMemories sessionRouter ftsSessionRouter,
      (S.deleteObservation order now memoryId reason).1 =
        { deleteRecords now S memoryId reason with
          memories := memories
          vectorLookup := vectorLookup
          ftsMemories := ftsMemories
          sessionRouter := sessionRouter
          ftsSessionRouter := ftsSessionRouter } := by
  obtain ⟨docs, sessionRouter, ftsSessionRouter, hrouters⟩ := foldl_rebuildRouter_frame
    (order.iterate (S.affectedRouters memoryId)) (deleteRecords now S memoryId reason)
  obtain ⟨ftsMemories, vectorLookup, memories, hchunks⟩ := foldl_deleteChunk_frame
    ((S.chunksOf memoryId).map Prod.fst)
    ((order.iterate (S.affectedRouters memoryId)).foldl rebuildRouterAfterDelete
      (deleteRecords now S memoryId reason))
  refine ⟨memories, vectorLookup, ftsMemories, sessionRouter, ftsSessionRouter, hchunks.trans ?_⟩
  rw [hrouters]

end Tellodb
