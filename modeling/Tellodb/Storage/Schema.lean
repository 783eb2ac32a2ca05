import Tellodb.Relational.Schema
import Tellodb.Relational.OrderBy
import Tellodb.Storage.Tenant

/-!
# Opening a database

`initSchema` of `storage/repo/schema.rs`, statement by statement: the tables and indexes of the
current version, created where they do not exist, and `migrate`, which adds the columns that came
later, rewrites what older versions stored differently and sets the version. The statements name
columns only; their types and constraints are not modelled, since nothing here inserts rows but the
rebuild of the router index, whose row identifiers are unique. -/

namespace Tellodb

open Relational Database

/-! ## Kinds and hashes of memories -/

/-- `MemoryKind::as_str` -/
def MemoryKind.asStr : MemoryKind → String
  | .conversational => "conversational"
  | .decision => "decision"
  | .lesson => "lesson"
  | .preference => "preference"
  | .sessionSummary => "session_summary"
  | .fact => "fact"
  | .syntheticQuery => "synthetic_query"

/-- `MemoryKind::parse` -/
def MemoryKind.parse (s : String) : MemoryKind :=
  let normalized := String.ofList ((trim s.toList).map Char.toLower)
  if normalized = "decision" then .decision
  else if normalized = "lesson" then .lesson
  else if normalized = "preference" then .preference
  else if normalized ∈ ["session_summary", "session-summary", "sessionsummary"] then .sessionSummary
  else if normalized = "fact" then .fact
  else if normalized ∈ ["synthetic_query", "synthetic-query", "syntheticquery"] then .syntheticQuery
  else .conversational

/-- A kind is read back from its text. -/
theorem MemoryKind.parse_asStr (kind : MemoryKind) : MemoryKind.parse kind.asStr = kind := by
  cases kind <;> decide

/-- `content_hash`, over the hexadecimal digest of a text. -/
def contentHash (sha256 : String → String) (text entityId : String) (kind : MemoryKind) : String :=
  sha256 (text ++ "::" ++ entityId ++ "::" ++ kind.asStr)

/-! ## The schema -/

/-- `SCHEMA_VERSION` -/
def schemaVersion : ℤ := 8

/-- The columns of `fts_memories`, with its row identifier. -/
def ftsMemoriesColumns : List String :=
  ["rowid", "memory_id", "entity_id", "entity_tok", "content"]

/-- The first batch of `init_schema`. -/
def schemaStatements : List Statement := [
  .createTable "memories" ["rowid", "memory_id", "entity_id", "content", "kind", "content_hash",
    "created_at_ms", "recorded_at_ms", "expires_at_ms", "session_id", "turn_index", "role",
    "parent_memory_id", "indexed"],
  .createIndex "idx_memories_entity" "memories" ["entity_id"],
  .createIndex "idx_memories_memory_id" "memories" ["memory_id"],
  .createTable "memory_cards" ["card_id", "entity_id", "user_id", "source_memory_id",
    "source_session_id", "subject", "predicate", "object", "memory_text", "card_type",
    "confidence", "is_latest", "is_static", "is_inference", "expires_at", "root_card_id",
    "parent_card_id", "lifecycle", "created_at_ms", "updated_at_ms", "source_turn_index",
    "document_time", "conversation_time", "event_time"],
  .createIndex "idx_memory_cards_entity" "memory_cards" ["entity_id"],
  .createIndex "idx_memory_cards_session" "memory_cards" ["source_session_id"],
  .createIndex "idx_memory_cards_source" "memory_cards" ["source_memory_id"],
  .createIndex "idx_memory_cards_entity_latest" "memory_cards"
    ["entity_id", "is_latest", "expires_at"],
  .createTable "edges" ["edge_id", "source", "target", "edge_type", "label", "weight", "status",
    "ref_source", "ref_target", "timestamp_ms", "memory_id"],
  .createIndex "idx_edges_source" "edges" ["source"],
  .createIndex "idx_edges_target" "edges" ["target"],
  .createIndex "idx_edges_memory" "edges" ["memory_id"],
  .createIndex "idx_edges_source_type" "edges" ["source", "edge_type"],
  .createIndex "idx_edges_target_type" "edges" ["target", "edge_type"],
  .createIndex "idx_edges_label" "edges" ["label"],
  .createTable "fts_memories" ftsMemoriesColumns,
  .createTable "vector_lookup" ["vector_id", "memory_id", "entity_id", "timestamp_ms",
    "embedding"],
  .createIndex "idx_vector_lookup_memory" "vector_lookup" ["memory_id"],
  .createIndex "idx_vector_lookup_entity" "vector_lookup" ["entity_id"],
  .createTable "session_router" ["session_id", "entity_id", "record_json", "router_text",
    "created_at_ms", "updated_at_ms"],
  .createIndex "idx_router_entity" "session_router" ["entity_id"],
  .createTable "session_router_sources" ["session_id", "entity_id", "memory_id", "record_json"],
  .createIndex "idx_router_sources_memory" "session_router_sources" ["memory_id"],
  .createTable "fts_session_router" ["rowid", "session_id", "entity_id", "router_text"],
  .createTable "aliases" ["entity_id", "alias"],
  .createIndex "idx_aliases_alias" "aliases" ["alias"],
  .createTable "preferences" ["entity_id", "memory_id", "strength"],
  .createIndex "idx_prefs_entity" "preferences" ["entity_id"],
  .createTable "memory_links" ["source_memory_id", "target_memory_id", "link_type"],
  .createIndex "idx_links_source" "memory_links" ["source_memory_id"],
  .createIndex "idx_links_target" "memory_links" ["target_memory_id"],
  .createTable "fact_versions" ["fact_key", "memory_id", "entity_id", "subject", "predicate",
    "object", "status", "timestamp_ms", "superseded_by", "supersedes", "valid_from_ms",
    "valid_to_ms", "recorded_at_ms"],
  .createIndex "idx_fact_entity" "fact_versions" ["entity_id"],
  .createIndex "idx_fact_versions_lookup" "fact_versions" ["fact_key", "entity_id", "status"],
  .createIndex "idx_fact_versions_order" "fact_versions"
    ["fact_key", "entity_id", "timestamp_ms", "recorded_at_ms"],
  .createTable "fact_evidence" ["fact_key", "entity_id", "version_memory_id", "memory_id",
    "timestamp_ms"],
  .createIndex "idx_fact_evidence_version" "fact_evidence"
    ["entity_id", "fact_key", "version_memory_id"],
  .createTable "predicate_canon" ["entity_id", "predicate", "canonical", "embedding"],
  .createIndex "idx_predicate_canon_canonical" "predicate_canon" ["entity_id", "canonical"],
  .createTable "core_profiles" ["entity_id", "profile_json", "updated_at_ms"],
  .createTable "consolidation_queue" ["memory_id", "entity_id", "timestamp_ms",
    "textual_content"],
  .createTable "entity_embeddings" ["entity_id", "embedding_blob", "updated_at_ms"],
  .createTable "deletion_tombstones" ["tombstone_id", "target_memory_id", "reason",
    "timestamp_ms", "tombstone_json"],
  .createIndex "idx_tombstone_target" "deletion_tombstones" ["target_memory_id"],
  .createTable "negative_centroids" ["entity_id", "memory_id", "centroid_blob"],
  .createIndex "idx_neg_centroids_entity" "negative_centroids" ["entity_id"],
  .createTable "disambiguation_vectors" ["entity_id", "memory_id", "vector_blob"],
  .createIndex "idx_disambiguation_entity" "disambiguation_vectors" ["entity_id"],
  .createTable "entity_registry" ["entity_id", "canonical_name", "soundex_key", "updated_at_ms"],
  .createIndex "idx_registry_soundex" "entity_registry" ["entity_id", "soundex_key"],
  .createTable "name_embeddings" ["entity_id", "canonical_name", "embedding_blob", "dim",
    "updated_at_ms"],
  .createTable "merge_proposals" ["proposal_id", "entity_id", "from_name", "to_name", "tier",
    "confidence", "status", "created_at_ms", "resolved_at_ms"],
  .createIndex "idx_proposals_entity" "merge_proposals" ["entity_id"],
  .createIndex "idx_proposals_status" "merge_proposals" ["status"]]

/-- `METRICS_DDL` -/
def metricsDdl : List Statement := [
  .createTable "metrics" ["memory_id", "ordinal", "entity_id", "timestamp_ms", "label", "value",
    "unit", "source_text"],
  .createIndex "idx_metrics_entity_label" "metrics" ["entity_id", "label", "timestamp_ms"]]

/-- Tables that were written on ingest but never read by retrieval. -/
def retiredTables : List String :=
  ["temporal_events", "fts_temporal_events", "shadow_questions", "fts_shadow_questions",
    "facet_postings", "mem_cells", "mem_scenes", "profile_facts", "card_relations", "ledger_turns",
    "memory_artifacts", "artifact_versions"]

/-! ## Steps of the migration -/

/-- `UPDATE memories SET recorded_at_ms = created_at_ms WHERE recorded_at_ms = 0` -/
def recordWhenCreated (r : Row) : Row :=
  if r "recorded_at_ms" = .integer 0 then Function.update r "recorded_at_ms" (r "created_at_ms")
  else r

/-- `UPDATE memories SET indexed = 1` -/
def markRow (r : Row) : Row :=
  Function.update r "indexed" (.integer 1)

/-- `UPDATE fact_versions SET recorded_at_ms = timestamp_ms WHERE recorded_at_ms IS NULL` -/
def recordWhenStated (r : Row) : Row :=
  if r "recorded_at_ms" = .null then Function.update r "recorded_at_ms" (r "timestamp_ms") else r

/-- `row.get::<_, String>` -/
def getText (r : Row) (column : String) : Except String String :=
  match r column with
  | .text s => .ok s
  | _ => .error ("Invalid column type: " ++ column)

/-- The row identifier of a memory, which is always an integer. -/
def memoryRowid (r : Row) : ℤ :=
  match r "rowid" with
  | .integer n => n
  | _ => 0

/-- A memory as the migration reads it: its row identifier and its new hash. -/
def readHash (sha256 : String → String) (r : Row) : Except String (ℤ × String) := do
  let content ← getText r "content"
  let entityId ← getText r "entity_id"
  let kind ← getText r "kind"
  -- A kind that is unknown is read as the default one.
  return (memoryRowid r, contentHash sha256 content entityId (MemoryKind.parse kind))

/-- `UPDATE memories SET content_hash = ?1 WHERE rowid = ?2` -/
def setHash (rows : List Row) (update : ℤ × String) : List Row :=
  rows.map fun r =>
    if memoryRowid r = update.1 then Function.update r "content_hash" (.text update.2) else r

/-- The number of memories that are hashed at a time. -/
def hashBatch : ℕ := 10000

/-- The loop that hashes all memories again, batch by batch in the order of their row identifiers.
Each round but the last takes at least one memory, so one round more than there are memories is
enough (`rehash_ok`). -/
def rehash (sha256 : String → String) : ℕ → ℤ → List Row → Except String (List Row)
  | 0, _, rows => .ok rows
  | rounds + 1, lastRowid, rows => do
    -- The batch starts behind the last row of the one before.
    let batch ← ((orderBy memoryRowid (rows.filter fun r =>
      lastRowid < memoryRowid r)).take hashBatch).mapM (readHash sha256)
    match batch.getLast? with
    | none => .ok rows
    | some newest => rehash sha256 rounds newest.1 (batch.foldl setHash rows)

/-- Hashes all memories again. -/
def rehashMemories (sha256 : String → String) (db : Database) : Except String Database :=
  match db.tables "memories" with
  | none => .error "no such table: memories"
  | some t => do
    let rows ← rehash sha256 (t.rows.length + 1) 0 t.rows
    return db.setTable "memories" (some { t with rows := rows })

/-- The row identifier of a router's document, as a cell. -/
def routerDocRowid (entityId sessionId : String) : Value :=
  .integer (routerRowid entityId sessionId)

/-- Inserts the document of a router, unless its row identifier is taken. -/
def insertRouterDoc (docs : List Row) (r : Row) : Except String (List Row) := do
  let session ← getText r "session_id"
  let entity ← getText r "entity_id"
  let text ← getText r "router_text"
  -- Two routers of one row identifier fail the migration.
  if docs.any fun d => d "rowid" = routerDocRowid entity session then .error "constraint failed"
  else return docs ++ [fun column =>
    if column = "rowid" then routerDocRowid entity session
    else if column = "session_id" then .text session
    else if column = "entity_id" then .text entity
    else if column = "router_text" then .text text
    else .null]

/-- Creates the index of the memories anew, without documents. -/
def dropMemoryIndex (db : Database) : Except String Database :=
  executeBatch db [.dropTable "fts_memories", .createTable "fts_memories" ftsMemoriesColumns]

/-- Writes the index of the session routers anew, and the version that has it. -/
def rebuildRouterIndex (db : Database) : Except String Database :=
  match db.tables "session_router", db.tables "fts_session_router" with
  | some routers, some index => do
    let docs ← routers.rows.foldlM insertRouterDoc []
    return { db.setTable "fts_session_router" (some { index with rows := docs }) with
      userVersion := 8 }
  | _, _ => .error "no such table: session_router"

/-! ## The migration -/

/-- The columns of memories that came after the first version, but for the hash. -/
def memoryColumns : List (String × Value) :=
  [("session_id", .text ""), ("turn_index", .integer 0), ("role", .text ""),
    ("parent_memory_id", .null), ("indexed", .integer 0), ("recorded_at_ms", .integer 0),
    ("expires_at_ms", .null)]

/-- The columns of cards that came after the first version. -/
def cardColumns : List (String × Value) :=
  [("source_turn_index", .integer 0), ("document_time", .integer 0),
    ("conversation_time", .integer 0), ("event_time", .null)]

/-- `migrate`, the memories. -/
def migrateMemories (db : Database) : Except String Database := do
  let db ← addMissing "memories" [("content_hash", .text "")] db
  let db ← executeBatch db
    [.createIndex "idx_memories_content_hash" "memories" ["content_hash"]]
  let db ← addMissing "memories" memoryColumns db
  let db := db.updateRows "memories" recordWhenCreated
  let db ← executeBatch db
    [.createIndex "idx_memories_recorded_at" "memories" ["recorded_at_ms"],
      .createIndex "idx_memories_expiry" "memories" ["expires_at_ms"]]
  let db := if db.userVersion < 4 then db.updateRows "memories" markRow else db
  executeBatch db
    [.createIndex "idx_memories_session_turn" "memories" ["entity_id", "session_id", "turn_index"],
      .createIndex "idx_memories_parent" "memories" ["parent_memory_id"]]

/-- The metrics of an older shape are dropped: ingest never wrote them. -/
def migrateMetrics (db : Database) : Except String Database :=
  if db.hasColumn "metrics" "memory_id" then .ok db
  else executeBatch db (.dropTable "metrics" :: metricsDdl)

/-- `migrate`, the other tables. -/
def migrateTables (db : Database) : Except String Database := do
  let db ← addMissing "vector_lookup" [("embedding", .null)] db
  let db ← migrateMetrics db
  let db ← addMissing "fact_versions" [("recorded_at_ms", .null)] db
  let db := db.updateRows "fact_versions" recordWhenStated
  let db ← addMissing "memory_cards" cardColumns db
  executeBatch db
    [.createIndex "idx_fact_versions_memory" "fact_versions" ["memory_id"],
      .createIndex "idx_fact_versions_order" "fact_versions"
        ["fact_key", "entity_id", "timestamp_ms", "recorded_at_ms"]]

/-- A step that is taken below a version only. -/
def below (limit version : ℤ) (step : Database → Except String Database) (db : Database) :
    Except String Database :=
  if version < limit then step db else .ok db

/-- `migrate`, what older versions stored differently. -/
def migrateContents (sha256 : String → String) (db : Database) : Except String Database := do
  let version := db.userVersion
  let db ← below 5 version (rehashMemories sha256) db
  let db ← executeBatch db (retiredTables.map .dropTable)
  let db ← below 3 version dropMemoryIndex db
  let db ← below 8 version rebuildRouterIndex db
  return if version < schemaVersion then { db with userVersion := schemaVersion } else db

/-- `migrate` -/
def migrate (sha256 : String → String) (db : Database) : Except String Database := do
  let db ← migrateMemories db
  let db ← migrateTables db
  migrateContents sha256 db

/-- `init_schema` -/
def initSchema (sha256 : String → String) (db : Database) : Except String Database := do
  if schemaVersion < db.userVersion then
    throw "database schema version is newer than supported version"
  let db ← executeBatch db schemaStatements
  let db ← executeBatch db metricsDdl
  migrate sha256 db

end Tellodb
