import Tellodb.Api.Types
import Tellodb.Storage.Reads
import Mathlib.Algebra.Order.Ring.Unbundled.Rat

/-!
# The response to a query

The end of `execute_query_pipeline`: the candidates are read back and filtered by the scope of the
query (`score_hydrate`), each becomes evidence under the identifier of its source (`score_loop`),
and the evidence that is selected becomes rows, with the text that is stored under that identifier
(`score_build_response`). Rows made of a fact, of a card and, by `query_handler`, of the entity's
profile and graph join them.

How candidates are found, fused, scored and selected is a computation with floating-point numbers,
which a `QueryEngine` stands for. -/

namespace Tellodb

open Relational FactTables

/-! ## Evidence and rows as data -/

/-- `ResultOrigin` -/
inductive ResultOrigin where
  | stored
  | synthesizedFact
  | synthesizedCard
  | synthesizedObservationBlock
  deriving DecidableEq

/-- `EvidenceCard`, without the signals of the scoring. -/
structure EvidenceCard where
  claimText : String
  sourceMemoryId : String
  sourceSessionId : String
  cardId : Option String
  isLatest : Bool
  finalScore : ℚ
  internalKind : MemoryKind
  createdAtMs : UInt64
  entityId : String
  sourceTurnIndex : ℕ
  deriving DecidableEq

/-- `QueryResult`, without the fact fields and the proof packet. -/
structure QueryResult where
  memoryId : String
  entityId : String
  sessionId : String
  turnIndex : ℕ
  createdAtMs : UInt64
  similarity : ℚ
  textualContent : String
  conflictFlag : Option Bool
  origin : ResultOrigin
  deriving DecidableEq

/-- What a query computes with floating-point numbers or from its text alone. -/
structure QueryEngine where
  /-- The candidates of all lanes after the fusion, with their event times. -/
  fusedItems : TenantStore → QueryPayload → List (String × UInt64)
  /-- `plan.fact_key` -/
  planFactKey : TenantStore → QueryPayload → Option String
  /-- Whether `lifecycle_rank_adjustment` keeps a candidate. -/
  lifecycleKeeps : MemoryRow → Option MemoryCard → UInt64 → Bool
  /-- The score of a candidate after the loop. -/
  finalScore : TenantStore → QueryPayload → String → ℚ
  /-- `select_candidates_with_session_head` -/
  selectCandidates : TenantStore → QueryPayload → List EvidenceCard → ℕ → List EvidenceCard
  /-- What is selected is some of the evidence. -/
  selectCandidates_subset : ∀ S payload cards limit,
    selectCandidates S payload cards limit ⊆ cards
  /-- `extract_named_phrases` -/
  namedPhrases : String → List String
  /-- A profile as JSON text, clipped by `clip_profile_to_budget`. -/
  renderProfile : CoreProfile → String
  /-- `Feature::Facts` -/
  factsEnabled : Bool

/-- `now_ms` of the pipeline. -/
def QueryPayload.now (payload : QueryPayload) (clock : UInt64) : UInt64 :=
  (payload.pointInTimeMs.or payload.referenceTimeMs).getD clock

/-- `MemoryId::parse(id).ok().is_some_and(|id| id.tags().contains(&Tag::SyntheticQuery))` -/
def hasSyntheticTag (memoryId : String) : Bool :=
  match MemoryId.parse memoryId with
  | .ok id => id.tags.contains .syntheticQuery
  | .error _ => false

/-- The identifier of a row made of a fact or of a card. -/
def syntheticId (entityId name : String) : String :=
  (((MemoryId.new entityId "synthetic" 0).derived .syntheticQuery).derived (.named name)).rendered

/-! ## Evidence -/

section

variable (Q : QueryEngine) (clock : UInt64) (S : TenantStore) (payload : QueryPayload)

/-- Whether a candidate is in the scope of a query: its memory is, or its card if no memory is
stored. -/
def TenantStore.inScope (scope : String) (memoryId : String) : Bool :=
  match S.memories.find? memoryId with
  | some r => r.entityId = scope
  -- A card without a memory counts with its own entity.
  | none => (S.memoryCards.find? memoryId).any fun card => card.entityId = scope

/-- `score_hydrate`: the candidates that are left. -/
def scoreHydrate : List (String × UInt64) :=
  match payload.entityId with
  | some scope => (Q.fusedItems S payload).filter fun item => S.inScope scope item.1
  | none => Q.fusedItems S payload

/-- The event time of a candidate. -/
def MemoryRow.eventTime (r : MemoryRow) (ts : UInt64) : UInt64 :=
  if r.createdAtMs.toUInt64 > 0 then r.createdAtMs.toUInt64 else ts

/-- A candidate is known at the times that a query asks about. -/
def MemoryRow.knownAt (payload : QueryPayload) (r : MemoryRow) (ts : UInt64) : Bool :=
  (payload.pointInTimeMs.all fun pit => r.eventTime ts ≤ pit) &&
    payload.knownAsOfMs.all fun known => r.recordedAtMs.toUInt64 ≤ known

/-- The memory and the session that a candidate stands for: those of its card, if it has one. -/
def MemoryRow.source (r : MemoryRow) (card : Option MemoryCard) : String × String :=
  match card with
  | some card =>
    if card.sourceMemoryId = r.memoryId then (r.memoryId, r.sessionId)
    -- The scope was checked for the memory itself, not for the one that its card names.
    else (card.sourceMemoryId, card.sourceSessionId)
  | none => (r.memoryId, r.sessionId)

/-- The evidence of a stored candidate. -/
def MemoryRow.evidence (r : MemoryRow) (card : Option MemoryCard) (ts : UInt64) (score : ℚ) :
    EvidenceCard where
  claimText := r.content
  sourceMemoryId := (r.source card).1
  sourceSessionId := (r.source card).2
  cardId := card.map fun _ => r.memoryId
  isLatest := false
  finalScore := score
  internalKind := r.kind
  createdAtMs := r.eventTime ts
  entityId := r.entityId
  sourceTurnIndex := r.turnIndex.toNat

/-- One round of `score_loop`. -/
def scoreItem (item : String × UInt64) : Option EvidenceCard :=
  -- The records of the engine itself are no candidates.
  if hasSyntheticTag item.1 then none
  else match S.memories.find? item.1 with
    | none => none
    | some r =>
      let card := S.memoryCards.find? item.1
      if r.knownAt payload item.2 && Q.lifecycleKeeps r card (payload.now clock) then
        some (r.evidence card item.2 (Q.finalScore S payload item.1))
      else none

/-- `score_loop` -/
def scoreLoop : List EvidenceCard :=
  (scoreHydrate Q S payload).filterMap (scoreItem Q clock S payload)

/-- The evidence made of the current value of the fact that the query asks for. -/
def factEvidence : List EvidenceCard :=
  match Q.planFactKey S payload, payload.entityId with
  | some factKey, some entityId =>
    match if Q.factsEnabled then S.facts.getCurrentFactValue entityId factKey else none with
    | some value =>
      [{ claimText := String.ofList (factKey.toList.map fun c => if c = '_' then ' ' else c) ++
            ": " ++ value
         sourceMemoryId := syntheticId entityId "fact"
         sourceSessionId := ""
         cardId := some (syntheticId entityId "fact")
         isLatest := true
         -- A fixed score, which is to come first.
         finalScore := 1000000000
         internalKind := .fact
         createdAtMs := payload.now clock
         entityId := entityId
         sourceTurnIndex := 0 }]
    | none => []
  | _, _ => []

/-! ## Rows -/

/-- `sort_results_by_similarity_desc` -/
def sortResults (rows : List QueryResult) : List QueryResult :=
  orderBy (fun row => toLex (-row.similarity, row.memoryId)) rows

/-- All evidence, the best first. -/
def sortedEvidence : List EvidenceCard :=
  orderBy (fun card => toLex (-card.finalScore, card.sourceMemoryId))
    (scoreLoop Q clock S payload ++ factEvidence Q clock S payload)

/-- The rows made of facts are extra context and take no slots. -/
def rowBudget : ℕ :=
  max payload.limit 1 +
    ((sortedEvidence Q clock S payload).filter fun card => hasSyntheticTag card.sourceMemoryId).length

/-- The evidence that is selected. -/
def selectedEvidence : List EvidenceCard :=
  Q.selectCandidates S payload (sortedEvidence Q clock S payload) (rowBudget Q clock S payload)

/-- The row of selected evidence, with the text that is stored under its source. -/
def EvidenceCard.row (card : EvidenceCard) : QueryResult where
  memoryId := card.sourceMemoryId
  entityId := card.entityId
  sessionId := card.sourceSessionId
  turnIndex := card.sourceTurnIndex
  createdAtMs := card.createdAtMs
  similarity := card.finalScore
  textualContent := ((S.memories.find? card.sourceMemoryId).map MemoryRow.content).getD card.claimText
  conflictFlag := some !card.isLatest
  origin := if hasSyntheticTag card.sourceMemoryId then .synthesizedFact else .stored

/-- The rows of the selected evidence. -/
def evidenceRows : List QueryResult :=
  sortResults ((selectedEvidence Q clock S payload).map (EvidenceCard.row S))

/-- The row made of a card of the best memory. -/
def MemoryCard.row (card : MemoryCard) (top : QueryResult) : QueryResult where
  memoryId := syntheticId card.entityId "card"
  entityId := card.entityId
  sessionId := card.sourceSessionId
  turnIndex := top.turnIndex
  createdAtMs := top.createdAtMs
  similarity := 1
  textualContent := card.subject ++ ": " ++ card.object
  conflictFlag := some false
  origin := .synthesizedCard

/-- The row of the card of the first memory, if that is stored and its card is latest and sure. -/
def cardRow (rows : List QueryResult) : Option QueryResult :=
  (rows.head?.filter fun top => top.origin = .stored).bind fun top =>
    ((S.getMemoryCardBySource top.memoryId).filter fun card =>
      card.isLatest && card.confidence ≥ 70 / 100).map fun card => card.row top

/-- `score_build_response` -/
def scoreBuildResponse : List QueryResult :=
  let rows := evidenceRows Q clock S payload
  sortResults <| match cardRow S rows with
    -- A full list gives up its last row for the card.
    | some row =>
      row :: if rows.length ≥ rowBudget Q clock S payload then rows.dropLast else rows
    | none => rows

/-! ## The observation block -/

/-- The condition under which a version is reported as invalid: `invalidated_set_at_time`, or
`invalidated_set` without a time. -/
def invalidAt (pointInTimeMs : Option UInt64) (v : FactVersion) : Bool :=
  match pointInTimeMs with
  | some pit => invalidatedAtTime pit v
  | none => v.status = .stale

/-- A fact of a profile is left out: another value replaced it, or it lies in the future. -/
def ProfileFact.hidden (pointInTimeMs : Option UInt64) (fact : ProfileFact) : Bool :=
  -- A version of any entity counts, if the memory has stated it.
  (fact.memoryId.any fun memoryId => S.facts.versions.rows.any fun v =>
      v.memoryId = memoryId && invalidAt pointInTimeMs v) ||
    pointInTimeMs.any fun pit => fact.timestampMs.any fun ts => pit < ts

/-- `current_core_profile` -/
def currentCoreProfile (entityId : String) (pointInTimeMs : Option UInt64) : Option CoreProfile :=
  (S.coreProfiles.find? entityId).map fun row =>
    { row.profile with
      facts := orderBy (fun fact => -((fact.timestampMs.getD 0).toNat : ℤ))
        (row.profile.facts.filter fun fact => !fact.hidden S pointInTimeMs) }

/-- `LIKE`: `%` stands for any text and `_` for a character, and the case of letters is ignored. -/
def likeMatch : List Char → List Char → Bool
  | [], text => text.isEmpty
  | '%' :: pattern, text => text.tails.any (likeMatch pattern)
  | _ :: _, [] => false
  | c :: pattern, d :: text => (c = '_' || c.toLower = d.toLower) && likeMatch pattern text

/-- `graph_edge_summaries_for_label` -/
def TenantStore.edgeSummaries (entityId label : String) (limit : ℕ) : List String :=
  ((S.edges.rows.filter fun e => (e.source = entityId || e.target = entityId) &&
    likeMatch ('%' :: label.toList ++ ['%']) e.label.toList).take limit).map EdgeRow.label

/-- The lines on the phrases of a query. -/
def sceneLines (entityId : String) : List (List String) :=
  ((Q.namedPhrases payload.textualQuery).map fun phrase => S.edgeSummaries entityId phrase 5).filter
    fun lines => !lines.isEmpty

/-- `build_observation_block` -/
def buildObservationBlock (profile : Option String) (scenes topChunks : List String) : String :=
  let listed (title : String) (lines : List String) : String :=
    if lines.isEmpty then "" else title ++ String.join (lines.map fun line => "- " ++ line ++ "\n")
  "## [TELLODB MEMORY CONTEXT]\n" ++
    (profile.elim "" fun profile => "### Core State\n" ++ profile ++ "\n") ++
    listed "### Knowledge Graph Scenes\n" scenes ++ listed "### Relevant Memories\n" topChunks

/-- The row with the context of an entity. -/
def observationBlock (entityId : String) (rows : List QueryResult) : QueryResult where
  memoryId := "observation_block"
  entityId := entityId
  sessionId := "system"
  turnIndex := 0
  createdAtMs := 0
  similarity := 1
  textualContent := buildObservationBlock
    ((currentCoreProfile S entityId payload.pointInTimeMs).map Q.renderProfile)
    ((sceneLines Q S payload entityId).map fun lines => String.intercalate "; " lines)
    ((rows.take 5).map QueryResult.textualContent)
  conflictFlag := none
  origin := .synthesizedObservationBlock

/-- The rows that `query_handler` answers with. -/
def queryHandler : List QueryResult :=
  let rows := scoreBuildResponse Q clock S payload
  (payload.entityId.map fun entityId => observationBlock Q S payload entityId rows).toList ++ rows

/-- The stored hits of `Engine::query`. -/
def storedHits : List QueryResult :=
  (scoreBuildResponse Q clock S payload).filter fun row => row.origin = .stored

end

end Tellodb
