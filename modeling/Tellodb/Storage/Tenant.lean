import Tellodb.Storage.Facts
import Tellodb.Storage.Types

/-!
# The store of a tenant

The tables of `storage/repo/schema.rs` that ingestion and deletion touch, one structure for the
rows of each, and the store that holds them. Columns that hold JSON are modelled by the record they
encode. The search tables are keyed by row identifier alone, which `ftsRowid` derives from the
document's name. -/

namespace Tellodb

open Relational

/-! ## Rows -/

/-- A row of `memories`. -/
structure MemoryRow where
  rowid : ℕ
  memoryId : String
  entityId : String
  content : String
  kind : MemoryKind
  contentHash : String
  createdAtMs : Int64
  recordedAtMs : Int64
  expiresAtMs : Option Int64
  sessionId : String
  turnIndex : UInt32
  role : String
  parentMemoryId : Option String
  /-- Whether the search indexes are known to hold the row. -/
  indexed : Bool
  deriving DecidableEq

/-- A row of `vector_lookup`. -/
structure VectorRow where
  vectorId : ℕ
  memoryId : String
  entityId : String
  timestampMs : Int64
  embedding : List ℚ
  deriving DecidableEq

/-- A document of `fts_memories`, on the row that its identifier hashes to. -/
structure FtsDoc where
  memoryId : String
  entityId : String
  /-- The token that stands for the entity in a search. -/
  entityTok : String
  content : String
  deriving DecidableEq

/-- A document of `fts_session_router`, on the row that its session hashes to. -/
structure RouterDoc where
  sessionId : String
  entityId : String
  routerText : String
  deriving DecidableEq

/-- A row of `session_router`. -/
structure SessionRouterRow where
  sessionId : String
  entityId : String
  /-- `record_json` -/
  record : SessionRouterRecord
  routerText : String
  createdAtMs : UInt64
  updatedAtMs : UInt64
  deriving DecidableEq

/-- A row of `session_router_sources`: what one memory contributed to a router. -/
structure RouterSource where
  sessionId : String
  entityId : String
  memoryId : String
  /-- `record_json` -/
  record : SessionRouterRecord
  deriving DecidableEq

/-- A row of `edges`. -/
structure EdgeRow where
  edgeId : String
  source : String
  target : String
  edgeType : String
  label : String
  weight : ℚ
  status : FactStatus
  refSource : Option String
  refTarget : Option String
  timestampMs : Int64
  memoryId : String
  deriving DecidableEq

/-- A row of `preferences`. -/
structure PreferenceRow where
  entityId : String
  memoryId : String
  strength : ℚ
  deriving DecidableEq

/-- A row of `memory_links`. -/
structure MemoryLinkRow where
  sourceMemoryId : String
  targetMemoryId : String
  linkType : String
  deriving DecidableEq

/-- A row of `metrics`. -/
structure MetricRow where
  memoryId : String
  ordinal : ℕ
  entityId : String
  timestampMs : Int64
  label : String
  value : ℚ
  unit : String
  sourceText : String
  deriving DecidableEq

/-- A row of `consolidation_queue`. -/
structure ConsolidationRow where
  memoryId : String
  entityId : String
  timestampMs : Int64
  textualContent : String
  deriving DecidableEq

/-- A row of `predicate_canon`. -/
structure PredicateCanonRow where
  entityId : String
  predicate : String
  canonical : String
  embedding : Option (List ℚ)
  deriving DecidableEq

/-- A fact of a core profile. -/
structure ProfileFact where
  memoryId : Option String
  timestampMs : Option UInt64
  text : String
  deriving DecidableEq

/-- The record in `core_profiles.profile_json`. -/
structure CoreProfile where
  entityId : String
  facts : List ProfileFact
  updatedAtMs : UInt64
  deriving DecidableEq

/-- A row of `core_profiles`. -/
structure CoreProfileRow where
  entityId : String
  /-- `profile_json` -/
  profile : CoreProfile
  updatedAtMs : UInt64
  deriving DecidableEq

/-- A row of `negative_centroids` or `disambiguation_vectors`. -/
structure MemoryVectorRow where
  entityId : String
  memoryId : String
  vector : List ℚ
  deriving DecidableEq

/-- A row of `deletion_tombstones`, with the record in `tombstone_json`. -/
structure DeletionTombstone where
  tombstoneId : String
  scope : String
  targetId : String
  deletedAtMs : UInt64
  reason : String
  cascadeCount : ℕ
  proofHash : String
  deriving DecidableEq

/-! ## Keys -/

/-- `PRIMARY KEY(session_id, entity_id)`. -/
def SessionRouterRow.primaryKey (r : SessionRouterRow) : String × String :=
  (r.sessionId, r.entityId)

/-- `PRIMARY KEY(session_id, entity_id, memory_id)`. -/
def RouterSource.primaryKey (r : RouterSource) : String × String × String :=
  (r.sessionId, r.entityId, r.memoryId)

/-- `PRIMARY KEY(entity_id, memory_id)`. -/
def PreferenceRow.primaryKey (r : PreferenceRow) : String × String :=
  (r.entityId, r.memoryId)

/-- `PRIMARY KEY(source_memory_id, target_memory_id, link_type)`. -/
def MemoryLinkRow.primaryKey (r : MemoryLinkRow) : String × String × String :=
  (r.sourceMemoryId, r.targetMemoryId, r.linkType)

/-- `PRIMARY KEY(memory_id, ordinal)`. -/
def MetricRow.primaryKey (r : MetricRow) : String × ℕ :=
  (r.memoryId, r.ordinal)

/-- `PRIMARY KEY(entity_id, predicate)`. -/
def PredicateCanonRow.primaryKey (r : PredicateCanonRow) : String × String :=
  (r.entityId, r.predicate)

/-- `PRIMARY KEY(entity_id, memory_id)`. -/
def MemoryVectorRow.primaryKey (r : MemoryVectorRow) : String × String :=
  (r.entityId, r.memoryId)

/-- The UTF-8 bytes of a text. -/
def utf8Bytes (text : String) : List UInt8 :=
  text.toList.flatMap String.utf8EncodeChar

/-- The byte that ends a string is no byte of one. -/
theorem notMem_utf8Bytes (text : String) : (0xff : UInt8) ∉ utf8Bytes text := by
  unfold utf8Bytes
  rw [List.mem_flatMap]
  rintro ⟨c, -, hmem⟩
  have hbyte : ∀ n, n < 255 → (0xff : UInt8) ≠ UInt8.ofNat n := by
    intro n hn heq
    have hnat := congrArg UInt8.toNat heq
    rw [UInt8.toNat_ofNat'] at hnat
    simp at hnat
    omega
  unfold String.utf8EncodeChar at hmem
  dsimp only at hmem
  split at hmem
  · exact hbyte _ (by omega) (List.mem_singleton.mp hmem)
  · split at hmem
    · simp only [List.mem_cons, List.not_mem_nil, or_false] at hmem
      rcases hmem with h | h
      all_goals exact hbyte _ (by omega) h
    · split at hmem
      · simp only [List.mem_cons, List.not_mem_nil, or_false] at hmem
        rcases hmem with h | h | h
        all_goals exact hbyte _ (by omega) h
      · simp only [List.mem_cons, List.not_mem_nil, or_false] at hmem
        rcases hmem with h | h | h | h
        all_goals exact hbyte _ (by omega) h

/-- The bytes of a text are its own. -/
theorem utf8Bytes_injective : Function.Injective utf8Bytes := by
  intro a b h
  have hencode : a.toList.utf8Encode = b.toList.utf8Encode := congrArg List.toByteArray h
  have ha := @List.utf8Decode?_utf8Encode a.toList
  have hb := @List.utf8Decode?_utf8Encode b.toList
  rw [hencode, hb] at ha
  have harray := Option.some.inj ha
  exact String.toList_injective (by simpa using harray.symm)

/-- The row identifier of a document: a 64-bit hash of its name, made positive and odd. -/
def ftsRowid (key : String) : ℕ :=
  let hash := (utf8Bytes key).foldl
    (fun (hash : UInt64) byte => (hash ^^^ byte.toUInt64) * 0x100000001b3) 0xcbf29ce484222325
  ((hash >>> 1) ||| 1).toNat

/-- The row of a document. Every statement that writes `fts_memories` puts a document there. -/
def FtsDoc.rowid (d : FtsDoc) : ℕ :=
  ftsRowid d.memoryId

/-- The row identifier of the document of a session router in `fts_session_router`. -/
def routerRowid (entityId sessionId : String) : ℕ :=
  ftsRowid ("router::" ++ entityId ++ "::" ++ sessionId)

/-- The row of a router's document. -/
def RouterDoc.rowid (d : RouterDoc) : ℕ :=
  routerRowid d.entityId d.sessionId

/-! ## The store -/

/-- The tables of a tenant. -/
structure TenantStore where
  memories : AutoTable MemoryRow.memoryId MemoryRow.rowid
  vectorLookup : Table VectorRow.vectorId
  ftsMemories : Table FtsDoc.rowid
  memoryCards : Table MemoryCard.cardId
  memoryLinks : Table MemoryLinkRow.primaryKey
  edges : Table EdgeRow.edgeId
  facts : FactTables
  sessionRouter : Table SessionRouterRow.primaryKey
  sessionRouterSources : Table RouterSource.primaryKey
  ftsSessionRouter : Table RouterDoc.rowid
  preferences : Table PreferenceRow.primaryKey
  metrics : Table MetricRow.primaryKey
  consolidationQueue : Table ConsolidationRow.memoryId
  predicateCanon : Table PredicateCanonRow.primaryKey
  coreProfiles : Table CoreProfileRow.entityId
  negativeCentroids : Table MemoryVectorRow.primaryKey
  disambiguationVectors : Table MemoryVectorRow.primaryKey
  deletionTombstones : Table DeletionTombstone.tombstoneId

/-- The source turn of a memory, if it is derived: `parent_memory_id`. -/
def TenantStore.parentOf (S : TenantStore) (memoryId : String) : Option String :=
  (S.memories.find? memoryId).bind MemoryRow.parentMemoryId

/-- A new store. -/
def TenantStore.empty : TenantStore where
  memories := AutoTable.empty _ _
  vectorLookup := Table.empty _
  ftsMemories := Table.empty _
  memoryCards := Table.empty _
  memoryLinks := Table.empty _
  edges := Table.empty _
  facts := FactTables.empty
  sessionRouter := Table.empty _
  sessionRouterSources := Table.empty _
  ftsSessionRouter := Table.empty _
  preferences := Table.empty _
  metrics := Table.empty _
  consolidationQueue := Table.empty _
  predicateCanon := Table.empty _
  coreProfiles := Table.empty _
  negativeCentroids := Table.empty _
  disambiguationVectors := Table.empty _
  deletionTombstones := Table.empty _

/-- The order in which a hash map or set built inside a transaction is iterated. -/
structure HashOrder where
  /-- The elements in the order of the iteration. -/
  iterate : {α : Type} → List α → List α
  /-- Every element comes up once. -/
  iterate_perm : ∀ {α : Type} (l : List α), (iterate l).Perm l

/-- Iteration in the order of insertion. -/
def HashOrder.insertion : HashOrder := ⟨id, fun _ => List.Perm.refl _⟩

/-! ## The text index -/

/-- The search token that stands for an entity: `e` and its bytes in hexadecimal. -/
def ftsEntityTok (entityId : String) : String :=
  String.ofList ('e' :: (utf8Bytes entityId).flatMap fun byte =>
    [Nat.digitChar (byte.toNat / 16), Nat.digitChar (byte.toNat % 16)])

/-- The document under which a text is indexed. -/
def ftsDoc (memoryId entityId content : String) : FtsDoc where
  memoryId := memoryId
  entityId := entityId
  entityTok := ftsEntityTok entityId
  content := content

/-- One document of a batch, refused if another memory's document is in its place. -/
def ftsIndexDoc (t : Table FtsDoc.rowid) (document : String × String × String) :
    Except String (Table FtsDoc.rowid) :=
  if ∃ existing ∈ t.find? (ftsRowid document.1), existing.memoryId ≠ document.1 then
    .error ("FTS rowid collision for memory " ++ document.1)
  else .ok (t.insertOrReplace (ftsDoc document.1 document.2.1 document.2.2))

/-- Indexes a batch of documents, all of them or none. -/
def TenantStore.ftsIndexBatch (S : TenantStore) (batch : List (String × String × String)) :
    Except String TenantStore := do
  let t ← batch.foldlM ftsIndexDoc S.ftsMemories
  return { S with ftsMemories := t }

example : ftsEntityTok "al" = "e616c" := by decide +kernel

end Tellodb
