import Tellodb.Storage.Memories

/-!
# Reads of a store

What the handlers read of a tenant (`storage/repo/memories.rs`, `storage/repo/sessions.rs`,
`storage/repo/graph.rs`, `storage/repo/cards.rs`, `storage/repo/admin.rs`): a memory by its
identifier, the turn that a memory and its chunks make up, the turns around it, the edges at a node,
cards and the records of deletions. -/

namespace Tellodb

open Relational

/-! ## Memories -/

/-- `lookup_by_memory_id`: the event time of a memory, with its vector if it has one. -/
def TenantStore.lookupByMemoryId (S : TenantStore) (memoryId : String) :
    Option (UInt64 × Option ℕ) :=
  (S.memories.find? memoryId).map fun r => (r.createdAtMs.toUInt64,
    (S.vectorLookup.rows.find? fun v => v.memoryId = memoryId).map VectorRow.vectorId)

/-- A row of `memories` as `get_observations_batch` reads it: without embedding and hash. -/
def MemoryRow.observation (r : MemoryRow) : AgentObservation where
  entityId := r.entityId
  textualContent := r.content
  embedding := []
  kind := r.kind
  contentHash := ""
  expiresAtMs := r.expiresAtMs.map Int64.toUInt64
  sessionId := r.sessionId
  turnIndex := r.turnIndex
  role := r.role
  parentMemoryId := r.parentMemoryId

/-- `get_observations_batch` of one memory. The event time of the key is not looked at. -/
def TenantStore.getObservation (S : TenantStore) (memoryId : String) : Option AgentObservation :=
  (S.memories.find? memoryId).map MemoryRow.observation

/-- The event time of a vector and the commit time of its memory are within bounds. -/
def TenantStore.vectorInTime (S : TenantStore) (pointInTimeMs knownAsOfMs : Option UInt64)
    (v : VectorRow) : Bool :=
  (pointInTimeMs.all fun t => v.timestampMs ≤ t.toInt64) && S.memories.rows.any fun m =>
    m.memoryId = v.memoryId && knownAsOfMs.all fun t => m.recordedAtMs ≤ t.toInt64

/-- `lookup_by_vector_ids_batch_at`: the event times and the memories of some vectors. -/
def TenantStore.lookupByVectorIdsBatchAt (S : TenantStore)
    (pointInTimeMs knownAsOfMs : Option UInt64) (vectorIds : List ℕ) :
    List (Option (UInt64 × String)) :=
  let rows := (vectorIds.toChunks inChunk).flatMap fun chunk => S.vectorLookup.rows.filter fun v =>
    -- A vector of a memory that came too late counts as missing.
    decide (v.vectorId ∈ chunk) && S.vectorInTime pointInTimeMs knownAsOfMs v
  vectorIds.map fun vid =>
    (rows.find? fun v => v.vectorId = vid).map fun v => (v.timestampMs.toUInt64, v.memoryId)

/-! ## Turns -/

/-- A class of a `GLOB` pattern after its bracket: whether the character is in it, and the pattern
after the class. A bracket that ends no class matches nothing. -/
def globClass (c : Char) : List Char → Option (Bool × List Char)
  | ']' :: rest => some (false, rest)
  -- A dash at the end of a class is a character of it.
  | low :: '-' :: ']' :: rest => some (c = low ∨ c = '-', rest)
  | low :: '-' :: high :: rest =>
    (globClass c rest).map fun found => (found.1 || (low ≤ c && c ≤ high), found.2)
  | x :: rest => (globClass c rest).map fun found => (found.1 || x = c, found.2)
  | [] => none

/-- What follows the bracket of a `GLOB` pattern: a class, which a caret inverts. A bracket that
ends the class at once is one of its characters. -/
def globBracket (c : Char) : List Char → Option (Bool × List Char)
  | '^' :: ']' :: rest => (globClass c rest).map fun found => (!(found.1 || c = ']'), found.2)
  | '^' :: rest => (globClass c rest).map fun found => (!found.1, found.2)
  | ']' :: rest => (globClass c rest).map fun found => (found.1 || c = ']', found.2)
  | rest => globClass c rest

/-- `GLOB`, for at most as many steps as there are characters in the pattern. -/
def globMatch : ℕ → List Char → List Char → Bool
  | _, [], text => text.isEmpty
  | 0, _ :: _, _ => false
  -- A star takes up any part of the text.
  | steps + 1, '*' :: pattern, text => text.tails.any (globMatch steps pattern)
  | _ + 1, _ :: _, [] => false
  | steps + 1, '?' :: pattern, _ :: text => globMatch steps pattern text
  | steps + 1, '[' :: pattern, c :: text =>
    (globBracket c pattern).any fun found => found.1 && globMatch steps found.2 text
  | steps + 1, x :: pattern, c :: text => x = c && globMatch steps pattern text

/-- A text as a `GLOB` reads it, which ends before its first `NUL`. -/
def beforeNul (text : List Char) : List Char :=
  text.takeWhile (· ≠ '\x00')

/-- `text GLOB pattern` -/
def sqlGlob (text pattern : String) : Bool :=
  globMatch (beforeNul pattern.toList).length (beforeNul pattern.toList) (beforeNul text.toList)

/-- A turn as it is reported, with the chunks of its memory put together. -/
structure LedgerTurn where
  turnId : String
  entityId : String
  sessionId : String
  speaker : Option String
  turnIndex : UInt32
  rawText : String
  documentTimeMs : UInt64
  ingestTimeMs : UInt64
  sourceType : String
  sourceUri : Option String
  rawSha256 : String
  redactionState : String
  schemaVersion : UInt32
  deriving DecidableEq

/-- `memory_turn_row` -/
def MemoryRow.turn (r : MemoryRow) : LedgerTurn where
  turnId := r.parentMemoryId.getD r.memoryId
  entityId := r.entityId
  sessionId := r.sessionId
  speaker := if r.role.isEmpty then none else some r.role
  turnIndex := r.turnIndex
  rawText := r.content
  documentTimeMs := r.createdAtMs.toUInt64
  ingestTimeMs := r.createdAtMs.toUInt64
  sourceType := "memory"
  sourceUri := none
  rawSha256 := r.contentHash
  redactionState := "none"
  schemaVersion := 2

/-- `merge_turn`: one more row of the turn under a key. The turns stay in the order in which they
came up. -/
def mergeTurn (turns : List LedgerTurn) (key : String) (turn : LedgerTurn) : List LedgerTurn :=
  if turns.any fun t => t.turnId = key then
    turns.map fun t =>
      -- Another row of the turn adds its text only.
      if t.turnId = key then { t with rawText := t.rawText ++ "\n" ++ turn.rawText } else t
  else turns ++ [{ turn with turnId := key }]

/-- A row is a chunk of a memory: `memory_id GLOB parent_memory_id || '::c[0-9]*'`. -/
def MemoryRow.isChunkOf (r : MemoryRow) (parent : String) : Bool :=
  r.parentMemoryId = some parent && sqlGlob r.memoryId (parent ++ "::c[0-9]*")

/-- The rows that a query batch of `get_ledger_turns_batch` selects. -/
def TenantStore.turnRows (S : TenantStore) (turnIds : List String) : List MemoryRow :=
  orderBy MemoryRow.rowid (S.memories.rows.filter fun r =>
    r.memoryId ∈ turnIds || turnIds.any r.isChunkOf)

/-- The turn that a row is added to: its own if that is wanted, or else its parent's. -/
def MemoryRow.turnKey (r : MemoryRow) (wanted : List String) : Option String :=
  if r.memoryId ∈ wanted then some r.memoryId else r.parentMemoryId

/-- The wanted turns, from the rows of some query batches. -/
def TenantStore.mergeBatches (S : TenantStore) (wanted : List String)
    (batches : List (List String)) : List LedgerTurn :=
  (batches.flatMap S.turnRows).foldl (fun turns r =>
    (r.turnKey wanted).elim turns fun key => mergeTurn turns key r.turn) []

/-- `get_ledger_turns_batch` -/
def TenantStore.getLedgerTurnsBatch (S : TenantStore) (turnIds : List String) : List LedgerTurn :=
  S.mergeBatches turnIds (turnIds.toChunks inChunk)

/-- `get_ledger_turns_batch` of one turn. -/
def TenantStore.getLedgerTurn (S : TenantStore) (turnId : String) : Option LedgerTurn :=
  ((orderBy MemoryRow.rowid (S.memories.rows.filter fun r =>
    r.memoryId = turnId || r.isChunkOf turnId)).foldl
      (fun turns r => mergeTurn turns turnId r.turn) []).head?

/-- `get_turn_window` -/
def TenantStore.getTurnWindow (S : TenantStore) (entityId sessionId : String)
    (turnIndex radius : UInt32) : List LedgerTurn :=
  -- Chunks come in the order of their rows.
  (orderBy (fun r : MemoryRow => toLex (r.turnIndex.toNat, r.rowid)) (S.memories.rows.filter fun r =>
    r.entityId = entityId && r.sessionId = sessionId &&
      (turnIndex.toNat - radius.toNat ≤ r.turnIndex.toNat &&
        r.turnIndex.toNat ≤ turnIndex.toNat + radius.toNat) &&
      r.parentMemoryId.all r.isChunkOf)).foldl
    (fun turns r => mergeTurn turns (r.parentMemoryId.getD r.memoryId) r.turn) []

/-! ## Edges -/

/-- `graph::Direction` -/
inductive EdgeDirection where
  | inbound
  | outbound
  | both
  deriving DecidableEq

/-- `Direction::parse` -/
def EdgeDirection.parse (value : Option String) : EdgeDirection :=
  match value.map fun text => String.ofList ((trim text.toList).map Char.toLower) with
  | some "in" => .inbound
  | some "inbound" => .inbound
  | some "both" => .both
  -- Anything else is read as outbound.
  | _ => .outbound

/-- An edge as it is reported. -/
structure GraphEdge where
  edgeId : String
  source : String
  target : String
  edgeType : String
  label : String
  weight : ℚ
  timestampMs : UInt64
  memoryId : String
  deriving DecidableEq

/-- A row of `edges` as it is reported. -/
def EdgeRow.graphEdge (e : EdgeRow) : GraphEdge where
  edgeId := e.edgeId
  source := e.source
  target := e.target
  edgeType := e.edgeType
  label := e.label
  weight := e.weight
  timestampMs := e.timestampMs.toUInt64
  memoryId := e.memoryId

/-- The edges that a query of a node in a direction selects. -/
def EdgeDirection.selects (entity : String) (e : EdgeRow) : EdgeDirection → Bool
  | .inbound => e.target = entity
  -- In both directions, edges of the default type are left out.
  | .both => (e.source = entity || e.target = entity) && e.edgeType ≠ EdgeType.default.asStr
  | .outbound => e.source = entity

/-- `graph_query_edges` -/
def TenantStore.graphQueryEdges (S : TenantStore) (entity : String) (direction : EdgeDirection)
    (limit : ℕ) : List GraphEdge :=
  ((orderBy (fun e : EdgeRow => -e.timestampMs.toInt)
    (S.edges.rows.filter fun e => direction.selects entity e)).take limit).map EdgeRow.graphEdge

/-! ## Cards and deletions -/

/-- `get_memory_card` -/
def TenantStore.getMemoryCard (S : TenantStore) (cardId : String) : Option MemoryCard :=
  S.memoryCards.find? cardId

/-- `get_memory_card_by_source` -/
def TenantStore.getMemoryCardBySource (S : TenantStore) (sourceMemoryId : String) :
    Option MemoryCard :=
  firstBy (fun card : MemoryCard =>
      toLex (!card.isLatest, -(card.updatedAtMs.toNat : ℤ)))
    (S.memoryCards.rows.filter fun card => card.sourceMemoryId = sourceMemoryId)

/-- `get_deletion_tombstones_for_target` -/
def TenantStore.getDeletionTombstones (S : TenantStore) (memoryId : String) (limit : ℕ) :
    List DeletionTombstone :=
  (S.deletionTombstones.rows.filter fun t => t.targetId = memoryId).take limit

end Tellodb
