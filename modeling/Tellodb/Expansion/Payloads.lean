import Tellodb.Expansion.Chunks
import Tellodb.Lifecycle.Retention
import Mathlib.Data.List.DropRight

/-!
# Expansion of a batch

The first stage of an ingest, `expand_and_enrich_payloads` of `handlers/ingest.rs` before the
context of a payload is added. A payload with a long text is replaced by its chunks, and each of
these is followed by the companions that are mined from it (`companion.rs`, `fact.rs`). What is
mined is up to the extractors (`MiningRules`); the identifiers are not. -/

namespace Tellodb

/-! ## Extractors -/

/-- `ExtractedFact` -/
structure ExtractedFact where
  subject : String
  speaker : String
  predicate : Option String
  object : String
  factKey : Option String
  confidence : ℚ
  isPreference : Bool

/-- What is mined from a text. -/
structure MiningRules where
  /-- `extract_companion_texts`: a gist of the dialogue, and the messages that are like facts. -/
  companionTexts : String → Option String × List String
  /-- `build_keyword_companion_text` -/
  keywordText : String → Option String
  /-- `infer_fact_key_with_profile` -/
  inferFactKey : String → Option String
  /-- `build_event_companion_text` -/
  eventText : String → Option String
  /-- `Extractor::extract`, of a text in the context of an entity, a time and relations. -/
  extract : String → String → UInt64 → List (String × String × String) → List ExtractedFact

/-- The features that the expansion asks for. -/
inductive Feature where
  | chunks
  | gist
  | keywords
  | factCompanions
  | atomicCards
  | eventCompanions
  | relationCompanions
  deriving DecidableEq

/-- `Feature::for_companion_tag` -/
def Feature.forCompanionTag (tag : String) : Option Feature :=
  let stem := String.ofList (tag.toList.rdropWhile Char.isDigit)
  if stem = "gist" then some .gist
  else if stem = "kw" then some .keywords
  else if stem = "fact" then some .factCompanions
  else if stem = "card" then some .atomicCards
  else if stem = "event" then some .eventCompanions
  else if stem = "rel" then some .relationCompanions
  else none

/-- `str::strip_prefix` -/
def stripStart (start text : String) : Option String :=
  if start.toList.isPrefixOf text.toList then
    some (String.ofList (text.toList.drop start.toList.length))
  else none

/-- The value of a header line, if it is of the label. -/
def headerValue (label : String) (line : List Char) : Option String :=
  let trimmed := trim line
  if (("[" ++ toAsciiLowercase label ++ ":").toList.isPrefixOf (trimmed.map Char.toLower)) &&
      trimmed.getLast? = some ']' then
    let value := trim ((trim ((trimmed.dropWhile (· ≠ ':')).drop 1)).rdropWhile (· = ']'))
    if value.isEmpty then none else some (String.ofList value)
  else none

/-- `extract_bracketed_header_value` -/
def extractBracketedHeaderValue (text label : String) : Option String :=
  (lines text.toList).findSome? (headerValue label)

namespace IngestPayload

/-! ## Chunks -/

/-- `infer_content_type` -/
def inferContentType (payload : IngestPayload) : String :=
  let text := payload.textualContent.toList
  let lower := toAsciiLowercase payload.textualContent
  match payload.contentType with
  | some contentType => toAsciiLowercase (String.ofList (trim contentType.toList))
  | none =>
    -- The order of the tests decides.
    if containsText lower "```" || containsText lower "fn " || containsText lower "class " then
      "code"
    else if (lines text).any isHeading then "markdown"
    else if containsText lower "from:" && containsText lower "subject:" then "email"
    else if ((lines text).take 8).any fun line => line.contains '|' || line.contains ',' then
      "table"
    else if containsText lower "user:" || containsText lower "assistant:" then "chat"
    else "plain"

/-- `build_chunk_memory_id` -/
def buildChunkMemoryId (payload : IngestPayload) (idx : ℕ) : String :=
  MemoryId.derivedFrom payload.memoryId ("c" ++ toString idx)

/-- A chunk of a payload. -/
def chunkPayload (payload : IngestPayload) (idx : ℕ) (chunk : List Char) : IngestPayload :=
  { payload with
    textualContent := String.ofList chunk
    sourceMemoryId := some payload.memoryId
    memoryId := payload.buildChunkMemoryId idx }

/-- The chunks of a payload's text. -/
def chunks (payload : IngestPayload) : List (List Char) :=
  (Chunker.ofContentType payload.inferContentType).chunk payload.textualContent.toList

/-- `expand_payload_for_content_type` -/
def expandPayloadForContentType (payload : IngestPayload) : List IngestPayload :=
  -- A text of one chunk keeps its identifier.
  if payload.chunks.length ≤ 1 then [payload] else payload.chunks.mapIdx payload.chunkPayload

/-! ## Companions -/

/-- A companion that sums up a part of a session. -/
def summaryCompanion (payload : IngestPayload) (tag text : String) (indexSemantic : Bool) :
    IngestPayload :=
  { IngestPayload.default with
    entityId := payload.entityId
    memoryId := MemoryId.derivedFrom payload.memoryId tag
    timestamp := payload.timestamp
    textualContent := text
    relations := payload.relations
    kind := some "session_summary"
    sourceMemoryId := some payload.memoryId
    indexSemantic := some indexSemantic
    enableSemanticDedup := some false
    enableConsolidation := some false
    contentType := payload.contentType }

/-- The gist companion. -/
def gistCompanion (payload : IngestPayload) (text : String) : IngestPayload :=
  payload.summaryCompanion "gist" text true

/-- The keyword companion. -/
def keywordCompanion (payload : IngestPayload) (text : String) : IngestPayload :=
  payload.summaryCompanion "kw" text false

/-- The event companion. -/
def eventCompanion (payload : IngestPayload) (text : String) : IngestPayload :=
  { payload.summaryCompanion "event" text true with
    enableMining := some false
    sessionId := payload.sessionId
    turnIndex := payload.turnIndex
    role := payload.role }

/-- A card of `build_cards_from_facts`. -/
def atomicMemoryCard (payload : IngestPayload) (cardIdx : ℕ) (fact : ExtractedFact) :
    IngestPayload :=
  { IngestPayload.default with
    entityId := payload.entityId
    memoryId := MemoryId.derivedFrom payload.memoryId ("card" ++ toString cardIdx)
    timestamp := payload.timestamp
    textualContent :=
      if toAsciiLowercase fact.speaker = "memory" then "Atomic memory card: " ++ fact.object
      else "Atomic memory card: " ++ fact.speaker ++ " said " ++ fact.object
    relations := payload.relations
    kind := some (if fact.isPreference then "preference" else "fact")
    factKey := fact.factKey
    sourceMemoryId := some payload.memoryId
    indexSemantic := some true
    enableSemanticDedup := some true
    enableConsolidation := some false
    contentType := payload.contentType
    factOperation := some "derive"
    factConfidence := some fact.confidence
    factSubject := some fact.subject
    factPredicate := fact.predicate
    factObject := some fact.object }

variable (R : MiningRules)

/-- The companions of the first turn of a session. -/
def sessionCompanions (payload : IngestPayload) : List IngestPayload :=
  let sessionFocus := extractBracketedHeaderValue payload.textualContent "Session Focus"
  let source := match sessionFocus with
    | some focus => focus ++ "\n" ++ payload.textualContent
    | none => payload.textualContent
  let gist := (sessionFocus.map fun focus => "Session gist: " ++ focus).or
    (R.companionTexts payload.textualContent).1
  gist.toList.map payload.gistCompanion ++
    (R.keywordText source).toList.map payload.keywordCompanion

/-- `build_companion_payloads_with_profile`: a memory outside a session has no companions. -/
def buildCompanionPayloads (payload : IngestPayload) : List IngestPayload :=
  if (payload.sessionId.getD "").isEmpty then []
  else
    -- The companions of a session come from its first turn.
    (if payload.turnIndex.getD 0 = 0 then payload.sessionCompanions R else []) ++
    (R.companionTexts payload.textualContent).2.mapIdx
      (fun idx text => payload.factCompanion idx (R.inferFactKey text) text) ++
    (R.extract payload.textualContent payload.entityId payload.timestamp payload.relations).mapIdx
      payload.atomicMemoryCard ++
    (R.eventText payload.textualContent).toList.map payload.eventCompanion ++
    payload.relations.mapIdx payload.relationCompanion

/-! ## A batch -/

/-- A payload with the session and the turn of its identifier, where it has none of its own. -/
def withIdentity (payload : IngestPayload) : IngestPayload :=
  match MemoryId.parse payload.memoryId with
  | .ok identity =>
    -- An identifier under another entity says nothing about the payload.
    if identity.structured && identity.entity = payload.entityId then
      { payload with
        sessionId :=
          if (payload.sessionId.getD "").isEmpty then some identity.session else payload.sessionId
        turnIndex := payload.turnIndex.or (some identity.turn) }
    else payload
  | .error _ => payload

/-- What is written in front of a text that has an image. -/
def visualHeader (payload : IngestPayload) : String :=
  let description := payload.visualDescription.getD ""
  let query := payload.visualQuery.getD ""
  (if description.isEmpty then "" else "[Visual: " ++ description ++ "] ") ++
    -- The query is written once if it is the description.
    if query.isEmpty || payload.visualDescription = some query then ""
    else "[Context: " ++ query ++ "] "

/-- A payload as the expansion takes it. -/
def prepared (payload : IngestPayload) : IngestPayload :=
  { payload.withIdentity with
    textualContent := payload.withIdentity.visualHeader ++ payload.withIdentity.textualContent }

variable (enabled : Feature → Bool)

/-- The payload itself, or its chunks. -/
def units (payload : IngestPayload) : List IngestPayload :=
  if enabled .chunks then payload.expandPayloadForContentType else [payload]

/-- The feature that a companion belongs to is on, if it is of one. -/
def allowsCompanion (part companion : IngestPayload) : Bool :=
  -- A companion of no feature is always made.
  (((stripStart (part.memoryId ++ separator) companion.memoryId).bind
    Feature.forCompanionTag).map enabled).getD true

/-- A derived record belongs to the session and the turn of its source. -/
def inSession (payload companion : IngestPayload) : IngestPayload :=
  { companion with
    sessionId := payload.sessionId
    turnIndex := payload.turnIndex
    role := payload.role }

/-- A part of a payload and its companions. -/
def withCompanions (payload part : IngestPayload) : List IngestPayload :=
  -- Companions are made of each part, not of the whole.
  part :: if payload.enableMining.getD true then
    ((part.buildCompanionPayloads R).filter (allowsCompanion enabled part)).map payload.inSession
  else []

/-- A payload's parts with their companions. -/
def expand (payload : IngestPayload) : List IngestPayload :=
  (payload.prepared.units enabled).flatMap (payload.prepared.withCompanions R enabled)

/-- The expansion of a batch. -/
def expandPayloads (payloads : List IngestPayload) : List IngestPayload :=
  payloads.flatMap (expand R enabled)

end IngestPayload

/-- The expansion takes a payload with its identifier. -/
theorem memoryId_prepared (payload : IngestPayload) :
    payload.prepared.memoryId = payload.memoryId := by
  unfold IngestPayload.prepared IngestPayload.withIdentity
  split
  · split <;> rfl
  · rfl

/-- The expansion takes a payload with its source. -/
theorem sourceMemoryId_prepared (payload : IngestPayload) :
    payload.prepared.sourceMemoryId = payload.sourceMemoryId := by
  unfold IngestPayload.prepared IngestPayload.withIdentity
  split
  · split <;> rfl
  · rfl

end Tellodb
