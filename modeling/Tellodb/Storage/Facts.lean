import Tellodb.Core.Text
import Tellodb.Relational.OrderBy
import Mathlib.Data.String.Basic

/-!
# Fact versions

The tables `fact_versions` and `fact_evidence` and the functions of `storage/repo/facts.rs` that
read and write them. A fact is stated under an entity and a key, and its versions form a chain
ordered by event time, recording time and row identifier. `registerFactVersionsTx` takes a batch
of statements: a statement of the value the chain already holds at its time becomes evidence for
that version, and any other becomes a version of its own, linked between its neighbours.

Timestamps enter and leave as `u64` and are stored as `i64` by `as` casts. The nullable text
columns `subject`, `predicate` and `object` and the column `valid_from_ms` are modelled without
`NULL`, since every statement of the store that writes them writes a value. -/

namespace Tellodb

open Relational

/-- The column `status` of a fact version. -/
inductive FactStatus where
  /-- No version has taken over. -/
  | current
  /-- A later version has taken over. -/
  | stale
  deriving DecidableEq, Repr

/-- A row of `fact_versions`. -/
structure FactVersion where
  /-- The hidden row identifier. -/
  rowid : ℕ
  factKey : String
  memoryId : String
  entityId : String
  subject : String
  predicate : String
  object : String
  status : FactStatus
  timestampMs : Int64
  supersededBy : Option String
  supersedes : Option String
  validFromMs : Int64
  validToMs : Option Int64
  recordedAtMs : Int64
  deriving DecidableEq

/-- A row of `fact_evidence`: `memoryId` states the value of the version of `versionMemoryId`. -/
structure FactEvidence where
  factKey : String
  entityId : String
  versionMemoryId : String
  memoryId : String
  timestampMs : Int64
  deriving DecidableEq

/-- `PRIMARY KEY(fact_key, memory_id)`, without the entity. -/
def FactVersion.primaryKey (v : FactVersion) : String × String :=
  (v.factKey, v.memoryId)

/-- `PRIMARY KEY(fact_key, entity_id, version_memory_id, memory_id)`. -/
def FactEvidence.primaryKey (e : FactEvidence) : String × String × String × String :=
  (e.factKey, e.entityId, e.versionMemoryId, e.memoryId)

/-- The order of a chain: event time, recording time, row identifier. -/
abbrev ChainKey := ℤ ×ₗ ℤ ×ₗ ℕ

/-- `ORDER BY timestamp_ms, recorded_at_ms, rowid`. -/
def FactVersion.chainKey (v : FactVersion) : ChainKey :=
  toLex (v.timestampMs.toInt, toLex (v.recordedAtMs.toInt, v.rowid))

/-- The two fact tables. -/
structure FactTables where
  /-- `fact_versions` -/
  versions : RowTable FactVersion.primaryKey FactVersion.rowid
  /-- `fact_evidence` -/
  evidence : Table FactEvidence.primaryKey

/-- The fact tables of a new store. -/
def FactTables.empty : FactTables :=
  ⟨RowTable.empty _ _, Table.empty _⟩

/-- One statement of a fact, as `register_fact_versions_tx` receives it. -/
structure FactRegistration where
  factKey : String
  timestamp : UInt64
  memoryId : String
  subject : String
  predicate : String
  object : String
  deriving DecidableEq

/-- What registering a statement did, as `register_fact_versions_tx` reports it. -/
inductive FactVersionStatus where
  /-- The statement is the latest version; it replaced the given one. -/
  | current (superseded : Option (UInt64 × String))
  /-- The statement is a version that was already replaced; the given one is current. -/
  | stale (current : UInt64 × String)
  /-- The statement restates the value of the given version and became evidence for it. -/
  | confirmed (version : UInt64 × String)
  deriving DecidableEq

/-- Where a version stands in its chain, as the neighbour queries return it. -/
structure FactPosition where
  memoryId : String
  timestamp : UInt64
  recordedAt : UInt64
  rowid : ℕ
  object : String
  deriving DecidableEq

/-- The columns the neighbour queries select. -/
def FactVersion.position (v : FactVersion) : FactPosition where
  memoryId := v.memoryId
  timestamp := v.timestampMs.toUInt64
  recordedAt := v.recordedAtMs.toUInt64
  rowid := v.rowid
  object := v.object

/-- The direction of an `ORDER BY`. -/
inductive Direction where
  /-- `ASC` -/
  | asc
  /-- `DESC` -/
  | desc
  deriving DecidableEq

/-- `ORDER BY key <direction> LIMIT 1`. -/
def Direction.limitOne {α κ : Type*} [LinearOrder κ] (d : Direction) (key : α → κ)
    (rows : List α) : Option α :=
  match d with
  | .asc => firstBy key rows
  | .desc => lastBy key rows

namespace FactTables

/-- The versions of one fact: `WHERE fact_key = ?1 AND entity_id = ?2`. -/
def chain (T : FactTables) (factKey entityId : String) : List FactVersion :=
  T.versions.rows.filter fun v => v.factKey = factKey ∧ v.entityId = entityId

/-- The versions of one fact in the order of their chain. -/
def timeline (T : FactTables) (factKey entityId : String) : List FactVersion :=
  orderBy FactVersion.chainKey (T.chain factKey entityId)

/-- The nearest version of a fact, in a direction, that meets a condition on the timestamp. -/
def factNeighbour (T : FactTables) (factKey entityId : String)
    (condition : FactVersion → Int64 → Bool) (ordering : Direction) (timestamp : UInt64) :
    Option FactPosition :=
  -- Times are compared as they are stored, with a sign.
  (ordering.limitOne FactVersion.chainKey ((T.chain factKey entityId).filter fun v =>
    condition v timestamp.toInt64)).map FactVersion.position

/-- The stored version of a memory under a key, whatever its entity. -/
def factVersion (T : FactTables) (factKey memoryId : String) : Except String FactPosition :=
  match T.versions.find? (factKey, memoryId) with
  | some v => .ok v.position
  | none => .error "Query returned no rows"

/-- The current version of a fact. -/
def currentFactVersion (T : FactTables) (factKey entityId : String) :
    Option (String × UInt64) :=
  (lastBy FactVersion.chainKey ((T.chain factKey entityId).filter fun v =>
    v.status = .current)).map fun v => (v.memoryId, v.timestampMs.toUInt64)

/-- The version of a fact just before or just after a place in its chain. -/
def orderedFactNeighbour (T : FactTables) (factKey entityId : String)
    (timestamp recordedAt : UInt64) (rowid : ℕ) (predecessor : Bool) : Option FactPosition :=
  let t := timestamp.toInt64
  let r := recordedAt.toInt64
  let rows := T.chain factKey entityId
  -- The order of a chain, spelled out column by column.
  if predecessor then
    (Direction.desc.limitOne FactVersion.chainKey (rows.filter fun v =>
      v.timestampMs < t ∨ (v.timestampMs = t ∧ v.recordedAtMs < r) ∨
        (v.timestampMs = t ∧ v.recordedAtMs = r ∧ v.rowid < rowid))).map FactVersion.position
  else
    (Direction.asc.limitOne FactVersion.chainKey (rows.filter fun v =>
      v.timestampMs > t ∨ (v.timestampMs = t ∧ v.recordedAtMs > r) ∨
        (v.timestampMs = t ∧ v.recordedAtMs = r ∧ v.rowid > rowid))).map FactVersion.position

/-- The version whose value a statement made at `timestamp` is compared with: the last one at or
before that time, or the first of all if there is none. -/
def covering (T : FactTables) (factKey entityId : String) (timestamp : UInt64) :
    Option FactPosition :=
  match T.factNeighbour factKey entityId (fun v t => v.timestampMs ≤ t) .desc timestamp with
  | some position => some position
  | none => T.factNeighbour factKey entityId (fun _ _ => true) .asc timestamp

/-- `INSERT OR IGNORE INTO fact_evidence`. -/
def insertEvidence (T : FactTables) (factKey entityId versionMemoryId memoryId : String)
    (timestamp : UInt64) : FactTables :=
  { T with
    -- A memory that is evidence already stays so with its first time.
    evidence := T.evidence.insertOrIgnore
      ⟨factKey, entityId, versionMemoryId, memoryId, timestamp.toInt64⟩ }

/-- `UPDATE fact_versions SET f WHERE p`. -/
def updateVersions (T : FactTables) (p : FactVersion → Bool)
    (f : RowAssignment FactVersion.primaryKey FactVersion.rowid) : FactTables :=
  { T with versions := T.versions.updateWhere p f }

/-- The row a registration inserts. -/
def newVersion (entityId : String) (recordedAt : UInt64) (f : FactRegistration) :
    NewRow FactVersion.rowid where
  withRowid rowid :=
    { rowid := rowid
      factKey := f.factKey
      memoryId := f.memoryId
      entityId := entityId
      subject := f.subject
      predicate := f.predicate
      object := f.object
      status := .current
      timestampMs := f.timestamp.toInt64
      supersededBy := none
      supersedes := none
      validFromMs := f.timestamp.toInt64
      validToMs := none
      recordedAtMs := recordedAt.toInt64 }
  rowid_withRowid _ := rfl

/-- `INSERT INTO fact_versions ... ON CONFLICT(fact_key, memory_id) DO NOTHING`. -/
def insertVersion (T : FactTables) (entityId : String) (recordedAt : UInt64)
    (f : FactRegistration) : FactTables :=
  { T with versions := T.versions.insertOrIgnore (newVersion entityId recordedAt f) }

/-- The tables after the two inserts of a registration: its version, unless the key and memory
already have one, and the memory as evidence for its own version. -/
def inserted (T : FactTables) (entityId : String) (recordedAt : UInt64) (f : FactRegistration) :
    FactTables :=
  (T.insertVersion entityId recordedAt f).insertEvidence f.factKey entityId f.memoryId f.memoryId
    f.timestamp

/-- `WHERE fact_key = ? AND memory_id = ?`. -/
def isVersion (factKey memoryId : String) (v : FactVersion) : Bool :=
  v.factKey = factKey ∧ v.memoryId = memoryId

/-- The columns a registration sets on its own version. -/
def setPlace (f : FactRegistration) (predecessor successor : Option FactPosition) :
    RowAssignment FactVersion.primaryKey FactVersion.rowid where
  set v :=
    { v with
      -- The last version of a chain is the current one.
      status := if successor.isNone then .current else .stale
      validFromMs := f.timestamp.toInt64
      validToMs := successor.map fun s => s.timestamp.toInt64
      supersededBy := successor.map fun s => s.memoryId
      supersedes := predecessor.map fun p => p.memoryId }
  key_set _ := rfl
  rowid_set _ := rfl

/-- The columns a registration sets on the predecessor it closes. -/
def setClosed (f : FactRegistration) : RowAssignment FactVersion.primaryKey FactVersion.rowid where
  set v :=
    { v with
      status := .stale
      validToMs := some f.timestamp.toInt64
      supersededBy := some f.memoryId }
  key_set _ := rfl
  rowid_set _ := rfl

/-- The column a registration sets on the successor it precedes. -/
def setPreceded (f : FactRegistration) :
    RowAssignment FactVersion.primaryKey FactVersion.rowid where
  set v := { v with supersedes := some f.memoryId }
  key_set _ := rfl
  rowid_set _ := rfl

/-- The three updates that link a version between its neighbours: the version itself, the
predecessor it closes and the successor it precedes. -/
def linkVersion (T : FactTables) (f : FactRegistration)
    (predecessor successor : Option FactPosition) : FactTables :=
  let T := T.updateVersions (isVersion f.factKey f.memoryId) (setPlace f predecessor successor)
  let T := match predecessor with
    | some p => T.updateVersions (isVersion f.factKey p.memoryId) (setClosed f)
    | none => T
  match successor with
  | some s => T.updateVersions (isVersion f.factKey s.memoryId) (setPreceded f)
  | none => T

/-- A batch in progress: the tables, the statuses so far, and the stale entries whose `current`
pointer is resolved after the loop. -/
structure Progress where
  /-- The tables after the registrations handled so far. -/
  tables : FactTables
  /-- One status for each registration handled so far. -/
  statuses : List FactVersionStatus
  /-- The position among the statuses, the key and the entity of each deferred entry. -/
  deferred : List (ℕ × String × String)

/-- One registration that does not restate its covering version. -/
def registerVersion (entityId : String) (recordedAt : UInt64) (s : Progress)
    (f : FactRegistration) : Except String Progress := do
  -- The current version is read before the new row is there.
  let previousLatest := s.tables.currentFactVersion f.factKey entityId
  let T := s.tables.inserted entityId recordedAt f
  -- The row is read back by its key and its memory, whoever wrote it.
  let stored ← T.factVersion f.factKey f.memoryId
  let predecessor := T.orderedFactNeighbour f.factKey entityId f.timestamp stored.recordedAt
    stored.rowid true
  let successor := T.orderedFactNeighbour f.factKey entityId f.timestamp stored.recordedAt
    stored.rowid false
  let T := T.linkVersion f predecessor successor
  if successor.isNone then
    -- A memory does not replace itself.
    let superseded := (previousLatest.filter fun p => p.1 ≠ f.memoryId).map fun p => (p.2, p.1)
    return { s with tables := T, statuses := s.statuses ++ [.current superseded] }
  else
    -- Later rows of the batch may still supersede each other: resolved after the loop.
    return {
      tables := T
      statuses := s.statuses ++ [.stale (0, "")]
      deferred := s.deferred ++ [(s.statuses.length, f.factKey, entityId)] }

/-- One round of the loop of `register_fact_versions_tx`. -/
def registerFact (entityId : String) (recordedAt : UInt64) (s : Progress)
    (f : FactRegistration) : Except String Progress :=
  match s.tables.covering f.factKey entityId f.timestamp with
  | some version =>
    -- A memory that states its own value again is a registration like any other.
    if version.memoryId ≠ f.memoryId ∧ sameFactObject version.object f.object then
      .ok { s with
        tables := s.tables.insertEvidence f.factKey entityId version.memoryId f.memoryId
          f.timestamp
        statuses := s.statuses ++ [.confirmed (version.timestamp, version.memoryId)] }
    else registerVersion entityId recordedAt s f
  | none => registerVersion entityId recordedAt s f

/-- The columns that the repair of a chain without a current version sets. -/
def setPromoted : RowAssignment FactVersion.primaryKey FactVersion.rowid where
  set v := { v with status := .current, validToMs := none, supersededBy := none }
  key_set _ := rfl
  rowid_set _ := rfl

/-- Marks the newest version of a fact current and clears its supersession pointers. -/
def promoteNewestToCurrent (T : FactTables) (factKey entityId : String) : FactTables :=
  match lastBy FactVersion.chainKey (T.chain factKey entityId) with
  | some newest =>
    T.updateVersions
      (fun v => v.factKey = factKey ∧ v.entityId = entityId ∧ v.memoryId = newest.memoryId)
      setPromoted
  | none => T

/-- The current version of a fact after a batch, promoting the newest if the chain came out
without one. -/
def settleCurrent (T : FactTables) (factKey entityId : String) :
    Except String (FactTables × String × UInt64) :=
  match T.currentFactVersion factKey entityId with
  | some found => .ok (T, found)
  | none =>
    let T := T.promoteNewestToCurrent factKey entityId
    match T.currentFactVersion factKey entityId with
    | some found => .ok (T, found)
    | none => .error ("fact chain for " ++ factKey ++ " (entity " ++ entityId ++
        ") has no versions at all, yet a version in this batch was marked superseded")

/-- The loop over the deferred entries. -/
def resolveDeferred (T : FactTables) (statuses : List FactVersionStatus) :
    List (ℕ × String × String) → Except String (FactTables × List FactVersionStatus)
  | [] => .ok (T, statuses)
  | (index, factKey, entityId) :: rest => do
    let (T, current) ← T.settleCurrent factKey entityId
    resolveDeferred T (statuses.set index (.stale (current.2, current.1))) rest

/-- Registers a batch of statements about one entity. -/
def registerFactVersionsTx (T : FactTables) (entityId : String)
    (registrations : List FactRegistration) (recordedAt : UInt64) :
    Except String (FactTables × List FactVersionStatus) := do
  let s ← registrations.foldlM (registerFact entityId recordedAt) ⟨T, [], []⟩
  resolveDeferred s.tables s.statuses s.deferred

/-- The condition under which `invalidated_set_at_time` reports a version's memory. -/
def invalidatedAtTime (pointInTimeMs : UInt64) (v : FactVersion) : Bool :=
  (v.validToMs.any fun validTo => validTo ≤ pointInTimeMs.toInt64) ||
    v.validFromMs > pointInTimeMs.toInt64

/-- The value of the current version of a fact. -/
def getCurrentFactValue (T : FactTables) (entityId factKey : String) : Option String :=
  (lastBy (fun v : FactVersion => v.timestampMs.toInt) ((T.chain factKey entityId).filter fun v =>
    v.status = .current)).map FactVersion.object

end FactTables

/-- One version in a fact's history. -/
structure FactHistoryEntry where
  /-- The memory that stated this value (the source turn where there is one). -/
  memoryId : String
  object : String
  isCurrent : Bool
  validFromMs : UInt64
  /-- When the next version took over; `none` while this one holds. -/
  validToMs : Option UInt64
  /-- Memories stating this same value, newest first. -/
  evidence : List String
  deriving DecidableEq

namespace FactTables

/-- The memories that state the value of a version, newest first, each under its source turn. -/
def evidenceFor (T : FactTables) (parentOf : String → Option String)
    (entityId factKey versionId : String) : List String :=
  (orderBy (fun e : FactEvidence => toLex (-e.timestampMs.toInt, e.memoryId))
    (T.evidence.rows.filter fun e =>
      e.entityId = entityId ∧ e.factKey = factKey ∧ e.versionMemoryId = versionId)).map
    fun e => (parentOf e.memoryId).getD e.memoryId

/-- A version as `fact_history` reports it. `parentOf` is the column `parent_memory_id` of the
memory's row in `memories`, `none` where there is no row or no parent. -/
def historyEntry (T : FactTables) (parentOf : String → Option String)
    (entityId factKey : String) (v : FactVersion) : FactHistoryEntry where
  memoryId := (parentOf v.memoryId).getD v.memoryId
  object := v.object
  isCurrent := v.status = .current
  validFromMs := v.validFromMs.toUInt64
  validToMs := v.validToMs.map Int64.toUInt64
  evidence := T.evidenceFor parentOf entityId factKey v.memoryId

/-- Every version of a fact, oldest first. -/
def factHistory (T : FactTables) (parentOf : String → Option String) (entityId factKey : String) :
    List FactHistoryEntry :=
  (orderBy (fun v : FactVersion => toLex (v.validFromMs.toInt, v.memoryId))
    (T.chain factKey entityId)).map (T.historyEntry parentOf entityId factKey)

/-- The value a fact held at `asOfMs` (`Engine::fact_as_of`). -/
def factAsOf (T : FactTables) (parentOf : String → Option String) (entityId factKey : String)
    (asOfMs : UInt64) : Option FactHistoryEntry :=
  (T.factHistory parentOf entityId factKey).reverse.find? fun v =>
    v.validFromMs ≤ asOfMs && v.validToMs.all fun validTo => asOfMs < validTo

end FactTables

end Tellodb
