import Tellodb.Core.Text
import Tellodb.Core.MemoryId
import Mathlib.Data.Rat.Defs

/-!
# Records

The records that ingestion hands to the store (`storage/types.rs`, `storage/repo/ingest.rs`) and
the pure functions on them: the merge of session routers and the types of graph edges. Scores and
embeddings are `f32` in the source and rational numbers here; nothing modelled here computes with
them but comparisons. The lifecycle of a card is kept as the text that is stored. -/

namespace Tellodb

/-- The kind of a memory. -/
inductive MemoryKind where
  | conversational
  | decision
  | lesson
  | preference
  | sessionSummary
  | fact
  | syntheticQuery
  deriving DecidableEq, Repr

/-- The text a memory is indexed under. Synthetic queries are not indexed. -/
def indexTextFor (kind : MemoryKind) (content : String) : Option String :=
  if kind ≠ .syntheticQuery then some (contentForIndex content) else none

/-- A memory as ingestion hands it to the store. -/
structure AgentObservation where
  entityId : String
  textualContent : String
  embedding : List ℚ
  kind : MemoryKind
  contentHash : String
  expiresAtMs : Option UInt64
  sessionId : String
  turnIndex : UInt32
  role : String
  /-- Source memory for derived records; `none` for memories ingested as sent. -/
  parentMemoryId : Option String
  deriving DecidableEq

/-- A memory card. -/
structure MemoryCard where
  cardId : String
  entityId : String
  userId : String
  sourceMemoryId : String
  sourceSessionId : String
  sourceTurnIndex : UInt64
  documentTime : UInt64
  conversationTime : UInt64
  eventTime : Option UInt64
  subject : String
  predicate : String
  object : String
  memoryText : String
  cardType : String
  confidence : ℚ
  isLatest : Bool
  isStatic : Bool
  isInference : Bool
  expiresAt : Option UInt64
  rootCardId : Option String
  parentCardId : Option String
  lifecycle : String
  createdAtMs : UInt64
  updatedAtMs : UInt64
  deriving DecidableEq

/-- The router of a session: what its memories are about. -/
structure SessionRouterRecord where
  sessionId : String
  entityId : String
  sessionDate : String
  documentTimeMs : UInt64
  speakers : List String
  persons : List String
  sessionFocus : String
  canonicalFacts : List String
  events : List String
  objects : List String
  places : List String
  activities : List String
  preferenceSignals : List String
  salientTerms : List String
  sourceMemoryIds : List String
  routerText : String
  createdAtMs : UInt64
  updatedAtMs : UInt64
  deriving DecidableEq

/-- A line of the router text, unless its part is empty. -/
def routerPart (label : String) (part : String) (isEmpty : Bool) : List String :=
  if isEmpty then [] else [label ++ " " ++ part]

/-- The text a router is indexed under. -/
def buildSessionRouterText (record : SessionRouterRecord) : String :=
  "\n".intercalate (["session " ++ record.sessionId] ++
    routerPart "date" record.sessionDate record.sessionDate.isEmpty ++
    routerPart "focus" record.sessionFocus record.sessionFocus.isEmpty ++
    routerPart "speakers" (" ".intercalate record.speakers) record.speakers.isEmpty ++
    routerPart "people" (" ".intercalate record.persons) record.persons.isEmpty ++
    routerPart "facts" (" | ".intercalate record.canonicalFacts) record.canonicalFacts.isEmpty ++
    routerPart "events" (" | ".intercalate record.events) record.events.isEmpty ++
    routerPart "objects" (" ".intercalate record.objects) record.objects.isEmpty ++
    routerPart "places" (" ".intercalate record.places) record.places.isEmpty ++
    routerPart "activities" (" ".intercalate record.activities) record.activities.isEmpty ++
    routerPart "preferences" (" | ".intercalate record.preferenceSignals)
      record.preferenceSignals.isEmpty ++
    routerPart "keywords" (" ".intercalate record.salientTerms) record.salientTerms.isEmpty)

/-- The base followed by those items of `extra` that are not there yet. -/
def dedupeAppend (base extra : List String) : List String :=
  extra.foldl (fun result item => if item ∈ result then result else result ++ [item]) base

/-- The router of a session after one more fragment. The text is built before the focus and the
date are taken over. -/
def mergeRouterRecords (existing incoming : SessionRouterRecord) : SessionRouterRecord :=
  let merged :=
    { existing with
      canonicalFacts := dedupeAppend existing.canonicalFacts incoming.canonicalFacts
      events := dedupeAppend existing.events incoming.events
      sourceMemoryIds := dedupeAppend existing.sourceMemoryIds incoming.sourceMemoryIds
      persons := dedupeAppend existing.persons incoming.persons
      speakers := dedupeAppend existing.speakers incoming.speakers
      salientTerms := dedupeAppend existing.salientTerms incoming.salientTerms
      objects := dedupeAppend existing.objects incoming.objects
      places := dedupeAppend existing.places incoming.places
      activities := dedupeAppend existing.activities incoming.activities
      preferenceSignals := dedupeAppend existing.preferenceSignals incoming.preferenceSignals }
  { merged with
    routerText := buildSessionRouterText merged
    updatedAtMs := max merged.updatedAtMs incoming.updatedAtMs
    sessionFocus :=
      if incoming.sessionFocus.isEmpty then merged.sessionFocus else incoming.sessionFocus
    sessionDate :=
      if incoming.sessionDate.isEmpty || incoming.sessionDate == "unknown" then merged.sessionDate
      else incoming.sessionDate }

/-- The type of a graph edge. -/
inductive EdgeType where
  | derivedFrom
  | derivedVariant
  | supersedes
  | supersededBy
  | supports
  | derives
  | updates
  | prefers
  | worksAt
  | livesIn
  | causedBy
  | leadsTo
  | default
  deriving DecidableEq, Repr

namespace EdgeType

/-- The stored name of an edge type. -/
def asStr : EdgeType → String
  | .derivedFrom => "derived_from"
  | .derivedVariant => "derived_variant"
  | .supersedes => "supersedes"
  | .supersededBy => "superseded_by"
  | .supports => "supports"
  | .derives => "derives"
  | .updates => "updates"
  | .prefers => "prefers"
  | .worksAt => "works_at"
  | .livesIn => "lives_in"
  | .causedBy => "caused_by"
  | .leadsTo => "leads_to"
  | .default => "default"

/-- The edge type a predicate names, whatever its ASCII case. -/
def fromStr (s : String) : EdgeType :=
  match String.ofList (s.toList.map Char.toLower) with
  | "derived_from" => .derivedFrom
  | "derived_variant" => .derivedVariant
  | "supersedes" => .supersedes
  | "supersede" => .supersedes
  | "superseded_by" => .supersededBy
  | "supports" => .supports
  | "derives" => .derives
  | "updates" => .updates
  | "prefers" => .prefers
  | "works_at" => .worksAt
  | "lives_in" => .livesIn
  | "caused_by" => .causedBy
  | "leads_to" => .leadsTo
  | _ => .default

/-- The weight of an edge type, the nearest `f32` to the number in the source. -/
def defaultWeight : EdgeType → ℚ
  | .causedBy => 11744051 / 8388608
  | .supersedes => 5033165 / 16777216
  | .prefers => 5033165 / 4194304
  | .derivedFrom => 11744051 / 16777216
  | _ => 1

end EdgeType

/-- One fact of an ingest batch. -/
structure IngestFactRegistration where
  entityId : String
  factKey : String
  timestamp : UInt64
  memoryId : String
  subject : String
  predicate : String
  object : String
  deriving DecidableEq

/-- One numeric value of an ingest batch. -/
structure IngestMetric where
  entityId : String
  memoryId : String
  timestamp : UInt64
  label : String
  value : ℚ
  unit : String
  sourceText : String
  deriving DecidableEq

/-- One memory whose text is to join the core profile of its entity. -/
structure IngestConsolidationTask where
  entityId : String
  memoryId : String
  timestamp : UInt64
  textualContent : String
  deriving DecidableEq

/-- What one ingest writes. The two maps by entity are lists in the order in which they are
iterated. -/
structure IngestBatches where
  /-- Each memory with its event time and identifier. -/
  observations : List (UInt64 × String × AgentObservation) := []
  /-- The documents to index: memory, entity and text. -/
  ftsBatch : List (String × String × String) := []
  memoryCardBatch : List MemoryCard := []
  memoryCardLatestUpdates : List (String × Bool × UInt64) := []
  sessionRouterUpdates : List SessionRouterRecord := []
  preferenceBatch : List (String × List (String × ℚ)) := []
  memoryLinksBatch : List (String × String × String) := []
  predicateCanonBatch : List (String × List (String × List ℚ)) := []
  predicateCanonTau : ℚ := 0
  factBatch : List IngestFactRegistration := []
  metricBatch : List IngestMetric := []
  metricMemoryIds : List String := []
  neighbourEmbeddingUpdates : List (String × List ℚ) := []
  consolidationTasks : List IngestConsolidationTask := []
  deriving DecidableEq

end Tellodb
