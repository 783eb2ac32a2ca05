import Tellodb.Facts.Commit
import Tellodb.Facts.Delete
import Tellodb.Lifecycle.Retention
import Tellodb.Storage.Consolidation
import Tellodb.Storage.Steps

/-!
# Expiry of cards

`evaluate_lifecycle` decides when a record expires, `build_memory_card_from_payload` puts its card
together, and `expire_records` marks the cards that have expired. The expiry is in the metadata of a
card and has a column as well, which the card of a payload leaves empty. The sweep reads the column:
so it marks no card of a store that is filled by ingests, whatever its metadata say
(`expireRecords_of_unswept`), and does what it is there for exactly as long as no card is due
(`expireRecords_iff`). -/

namespace Tellodb

open Relational

/-! ## Metadata -/

/-- `LifecycleState` -/
inductive LifecycleState where
  | observed
  | admitted
  | indexed
  | expired
  | invalidated
  | tombstoned
  deriving DecidableEq

/-- `SensitivityClass` -/
inductive SensitivityClass where
  | public_
  | personal
  | sensitive
  | restricted
  deriving DecidableEq

/-- `LifecycleMetadata` -/
structure LifecycleMetadata where
  policyVersion : String
  lifecycleState : LifecycleState
  admissionScore : ℚ
  salienceScore : ℚ
  noveltyScore : ℚ
  confidenceScore : ℚ
  stabilityScore : ℚ
  specificityScore : ℚ
  temporalScore : ℚ
  utilityScore : ℚ
  sensitivityClass : SensitivityClass
  retentionClass : RetentionClass
  indexFts : Bool
  indexVector : Bool
  promoteToProfile : Bool
  isInference : Bool
  expiresAtMs : Option UInt64
  reasons : List String
  deriving DecidableEq

/-- The words that `sensitivity_class` looks for after the restricted ones. -/
def sensitiveWords : List String :=
  ["health", "diagnosed", "allergy", "medical", "therapy", "salary", "bank", "financial",
    "religion", "political", "pregnant"]

/-- The words that `sensitivity_class` looks for last. -/
def personalWords : List String :=
  ["family", "spouse", "children", "address", "lives", "birthday", "relationship"]

/-- `sensitivity_class` -/
def sensitivityClass (lower : String) : SensitivityClass :=
  if isRestricted lower then .restricted
  else if sensitiveWords.any (containsText lower) then .sensitive
  else if personalWords.any (containsText lower) then .personal
  else .public_

/-- The scores that `evaluate_lifecycle` computes in `f32` besides salience and stability, with its
reasons. -/
structure LifecycleScores where
  admission : ℚ
  novelty : ℚ
  confidence : ℚ
  specificity : ℚ
  temporal : ℚ
  utility : ℚ
  reasons : List String
  deriving DecidableEq

/-- `evaluate_lifecycle` -/
def evaluateLifecycle (scores : LifecycleScores) (text : String) (kind : MemoryKind)
    (timestampMs : UInt64) (isInference : Bool) : LifecycleMetadata :=
  let lower := toAsciiLowercase text
  let salience := salienceScore lower kind
  let stability := stabilityScore lower kind isInference
  let sensitivity := sensitivityClass lower
  let retention := retentionClass kind (sensitivity = .restricted) salience stability isInference
  { policyVersion := "lifecycle-v1-deterministic"
    lifecycleState :=
      if scores.admission ≥ 50 / 100 then .indexed
      else if scores.admission ≥ 30 / 100 then .admitted
      else .observed
    admissionScore := scores.admission
    salienceScore := salience
    noveltyScore := scores.novelty
    confidenceScore := scores.confidence
    stabilityScore := stability
    specificityScore := scores.specificity
    temporalScore := scores.temporal
    utilityScore := scores.utility
    sensitivityClass := sensitivity
    retentionClass := retention
    indexFts := true
    indexVector := scores.admission ≥ 34 / 100 && retention ≠ .ephemeral
    promoteToProfile := (kind = .preference || kind = .decision || kind = .fact) &&
      stability ≥ 55 / 100 && scores.confidence ≥ 70 / 100 && sensitivity ≠ .restricted
    isInference := isInference
    expiresAtMs := expiresAtFor retention timestampMs isInference
    reasons := scores.reasons }

/-- How metadata are written to a text and read back. -/
structure LifecycleFormat where
  render : LifecycleMetadata → String
  parse : String → Option LifecycleMetadata

/-! ## The card of a payload -/

/-- What `build_memory_card_from_payload` reads off a text. -/
structure CardRules where
  documentTimeMs : String → UInt64 → UInt64
  eventTimeMs : String → UInt64 → Option UInt64
  namedPhrases : List String → List String
  temporalTerms : String → List String

/-- `card_type_for_kind` -/
def cardTypeForKind (rules : CardRules) (kind : MemoryKind) (text : String) : String :=
  match kind with
  | .preference => "preference"
  | .decision => "decision"
  | .fact => "fact"
  | .lesson => "inference"
  | .sessionSummary =>
    if containsText (toAsciiLowercase text) "canonical event memory" ||
      !(rules.temporalTerms text).isEmpty then "event" else "episode"
  | .conversational => "episode"
  | .syntheticQuery => "episode"

/-- `is_static_profile_card` -/
def isStaticProfileCard (predicate text : String) (kind : MemoryKind) : Bool :=
  kind = .preference || kind = .decision ||
    ["identity", "occupation", "job", "works at", "family", "married", "spouse", "children",
      "lives in", "health", "allergy", "prefers", "favorite"].any
        (containsText (toAsciiLowercase (predicate ++ " " ++ text)))

/-- The predicate of a card without one. -/
def defaultPredicate : MemoryKind → String
  | .preference => "prefers"
  | .decision => "decided"
  | .sessionSummary => "summarizes"
  | .lesson => "learned"
  | .fact => "states"
  | .conversational => "mentions"
  | .syntheticQuery => "mentions"

/-- The confidence of a card without one. -/
def defaultConfidence : MemoryKind → ℚ
  | .conversational => 78 / 100
  | .syntheticQuery => 78 / 100
  | .sessionSummary => 84 / 100
  | .fact => 92 / 100
  | .preference => 92 / 100
  | .decision => 92 / 100
  | .lesson => 86 / 100

/-- `build_memory_card_from_payload` -/
def buildMemoryCardFromPayload (rules : CardRules) (format : LifecycleFormat)
    (payload : IngestPayload) (kind : MemoryKind) (lifecycle : LifecycleMetadata) :
    Option MemoryCard :=
  let sourceMemoryId := payload.sourceMemoryId.getD payload.memoryId
  let parsedSourceId := (MemoryId.parse sourceMemoryId).toOption.filter MemoryId.structured
  let documentTime := rules.documentTimeMs payload.textualContent payload.timestamp
  let memoryText := normalizeFactText payload.textualContent
  let operation := toAsciiLowercase (payload.factOperation.getD "")
  let predicate := ((payload.factPredicate).or
    (payload.factKey.map IngestPayload.spaced)).getD (defaultPredicate kind)
  if memoryText.isEmpty then none
  else some
    { cardId := payload.memoryId
      entityId := payload.entityId
      userId := payload.entityId
      sourceMemoryId := sourceMemoryId
      sourceSessionId := ((payload.sessionId.filter fun s => !s.isEmpty).or
        (parsedSourceId.map MemoryId.session)).getD ""
      sourceTurnIndex := ((payload.turnIndex.map UInt32.toUInt64).or
        (parsedSourceId.map fun id => id.turn.toUInt64)).getD 0
      documentTime := documentTime
      conversationTime := documentTime
      eventTime := rules.eventTimeMs payload.textualContent documentTime
      subject := (payload.factSubject.or
        (rules.namedPhrases [payload.textualContent]).head?).getD payload.entityId
      predicate := predicate
      object := payload.factObject.getD (truncateRouterValue memoryText 320)
      memoryText := memoryText
      cardType := cardTypeForKind rules kind memoryText
      confidence := max 0 (min 1 (payload.factConfidence.getD (defaultConfidence kind)))
      isLatest := true
      isStatic := isStaticProfileCard predicate memoryText kind
      isInference := operation = "derive" || operation = "infer"
      expiresAt := none
      rootCardId := payload.sourceMemoryId
      parentCardId := payload.sourceMemoryId
      lifecycle := format.render lifecycle
      createdAtMs := payload.timestamp
      updatedAtMs := payload.timestamp }

/-! ## The sweep -/

/-- `SET lifecycle = ?1, updated_at_ms = ?2` -/
def setLifecycle (lifecycle : String) (now : UInt64) : Assignment MemoryCard.cardId where
  set card := { card with lifecycle := lifecycle, updatedAtMs := now }
  key_set _ := rfl

/-- The retention classes that the sweep is for. -/
def LifecycleMetadata.isShortLived (lifecycle : LifecycleMetadata) : Bool :=
  lifecycle.retentionClass = .ephemeral || lifecycle.retentionClass = .working

/-- The cards whose column is at most the time, with new metadata where they are to be marked. -/
def TenantStore.expiryUpdates (format : LifecycleFormat) (S : TenantStore) (now : UInt64) :
    List (String × String) :=
  (S.memoryCards.rows.filter fun card =>
    card.expiresAt.any fun time => time.toInt64 ≤ now.toInt64).filterMap fun card =>
      ((format.parse card.lifecycle).filter fun lifecycle =>
        lifecycle.lifecycleState ≠ .expired && lifecycle.isShortLived).map fun lifecycle =>
          (card.cardId, format.render { lifecycle with lifecycleState := .expired })

/-- `expire_records` -/
def TenantStore.expireRecords (format : LifecycleFormat) (S : TenantStore) (now : UInt64) :
    TenantStore × ℕ :=
  let updates := S.expiryUpdates format now
  ({ S with
      memoryCards := updates.foldl (fun t update =>
        t.updateWhere (fun card => card.cardId = update.1) (setLifecycle update.2 now))
        S.memoryCards },
    updates.length)

/-! ## What the sweep is for -/

/-- The expiry in the metadata of a card that is kept for a short time is at most the time. -/
def MemoryCard.isDue (format : LifecycleFormat) (now : UInt64) (card : MemoryCard) : Bool :=
  (format.parse card.lifecycle).any fun lifecycle =>
    lifecycle.isShortLived && lifecycle.expiresAtMs.any fun time => time ≤ now

/-- A card is marked as expired. -/
def MemoryCard.isExpired (format : LifecycleFormat) (card : MemoryCard) : Bool :=
  (format.parse card.lifecycle).any fun lifecycle => lifecycle.lifecycleState = .expired

/-- The cards that are due are marked, and the others are as before. -/
structure Swept (format : LifecycleFormat) (now : UInt64) (cards cards' : List MemoryCard) :
    Prop where
  same : cards'.map MemoryCard.cardId = cards.map MemoryCard.cardId
  marked : ∀ card ∈ cards', card.isDue format now = true → card.isExpired format = true
  unchanged : ∀ card ∈ cards, card.isDue format now = false → card ∈ cards'

/-! ## Stores filled by ingests -/

/-- The card of a payload whose metadata are read back as they were written. -/
def IngestedCard (rules : CardRules) (format : LifecycleFormat) (card : MemoryCard) : Prop :=
  ∃ payload kind scores timestampMs isInference,
    buildMemoryCardFromPayload rules format payload kind
        (evaluateLifecycle scores payload.textualContent kind timestampMs isInference) =
      some card ∧
    format.parse (format.render
        (evaluateLifecycle scores payload.textualContent kind timestampMs isInference)) =
      some (evaluateLifecycle scores payload.textualContent kind timestampMs isInference)

/-- A transaction on the store, or a sweep. -/
inductive SweptStep where
  | store (a : StoreStep)
  | expire (now : UInt64)

/-- The store after such a step. -/
def TenantStore.sweptStep (cosineSimilarity : List ℚ → List ℚ → ℚ) (format : LifecycleFormat)
    (S : TenantStore) : SweptStep → TenantStore
  | .store a => S.step cosineSimilarity a
  | .expire now => (S.expireRecords format now).1

/-- The cards of a commit are built from payloads. -/
def SweptStep.Ingests (rules : CardRules) (format : LifecycleFormat) : SweptStep → Prop
  | .store (.commit _ _ b) => ∀ card ∈ b.memoryCardBatch, IngestedCard rules format card
  | .store (.delete _ _ _ _) => True
  | .expire _ => True

/-- The column of a card is empty, and its metadata do not mark it. -/
def MemoryCard.Unswept (format : LifecycleFormat) (card : MemoryCard) : Prop :=
  card.expiresAt = none ∧ card.isExpired format = false

variable {rules : CardRules} {format : LifecycleFormat}
  {cosineSimilarity : List ℚ → List ℚ → ℚ}

/-- No metadata are evaluated as expired. -/
theorem lifecycleState_evaluateLifecycle (scores : LifecycleScores) (text : String)
    (kind : MemoryKind) (timestampMs : UInt64) (isInference : Bool) :
    (evaluateLifecycle scores text kind timestampMs isInference).lifecycleState ≠ .expired := by
  unfold evaluateLifecycle
  dsimp only
  split_ifs <;> decide

/-- A card as it is ingested has not been swept. -/
theorem IngestedCard.unswept {card : MemoryCard} (h : IngestedCard rules format card) :
    card.Unswept format := by
  obtain ⟨payload, kind, scores, timestampMs, isInference, hbuild, hread⟩ := h
  unfold buildMemoryCardFromPayload at hbuild
  dsimp only at hbuild
  split at hbuild
  · exact absurd hbuild (by simp)
  · obtain rfl := Option.some.inj hbuild
    refine ⟨rfl, ?_⟩
    unfold MemoryCard.isExpired
    dsimp only
    rw [hread, Option.any_some, decide_eq_false_iff_not]
    exact lifecycleState_evaluateLifecycle _ _ _ _ _

/-- Changes of `is_latest` leave the column and the metadata alone. -/
theorem forall_updateCardLatestTx {S : TenantStore} (updates : List (String × Bool × UInt64))
    (h : ∀ card ∈ S.memoryCards.rows, card.Unswept format) :
    ∀ card ∈ (updateCardLatestTx S updates).memoryCards.rows, card.Unswept format := by
  unfold updateCardLatestTx
  dsimp only
  generalize S.memoryCards = t at h
  induction updates generalizing t with
  | nil => exact h
  | cons update rest ih =>
    refine ih _ fun card hcard => ?_
    obtain ⟨old, hold, rfl⟩ := List.mem_map.mp hcard
    have hunswept := h old hold
    unfold Assignment.on
    split
    · exact hunswept
    · exact hunswept

/-- The sweep leaves a store alone whose cards have an empty column. -/
theorem expireRecords_of_unswept {S : TenantStore} (now : UInt64)
    (h : ∀ card ∈ S.memoryCards.rows, card.Unswept format) :
    S.expireRecords format now = (S, 0) := by
  have hnone : S.expiryUpdates format now = [] := by
    unfold TenantStore.expiryUpdates
    have hfilter : (S.memoryCards.rows.filter fun card =>
        card.expiresAt.any fun time => time.toInt64 ≤ now.toInt64) = [] := by
      refine List.filter_eq_nil_iff.mpr fun card hcard => ?_
      rw [(h card hcard).1]
      exact Bool.false_ne_true
    rw [hfilter, List.filterMap_nil]
  unfold TenantStore.expireRecords
  rw [hnone]
  rfl

/-- A step keeps the columns of all cards empty and marks none. -/
theorem unswept_sweptStep {S : TenantStore} {a : SweptStep} (ha : a.Ingests rules format)
    (h : ∀ card ∈ S.memoryCards.rows, card.Unswept format) :
    ∀ card ∈ (S.sweptStep cosineSimilarity format a).memoryCards.rows, card.Unswept format := by
  cases a with
  -- Nothing is due, so the sweep does nothing.
  | expire now =>
    change ∀ card ∈ (S.expireRecords format now).1.memoryCards.rows, card.Unswept format
    rw [expireRecords_of_unswept now h]
    exact h
  | store a =>
    cases a with
    | delete order now memoryId reason =>
      intro card hcard
      change card ∈ (S.deleteObservation order now memoryId reason).1.memoryCards.rows at hcard
      rw [(deleteObservation_parts order now S memoryId reason).2, Table.mem_deleteWhere] at hcard
      exact h card hcard.1
    | commit order clock b =>
      change ∀ card ∈ (S.step cosineSimilarity (.commit order clock b)).memoryCards.rows, _
      cases hcommit : S.commitIngest cosineSimilarity order clock b with
      | error e =>
        rw [TenantStore.step_commit_of_error hcommit]
        exact h
      | ok result =>
        rw [TenantStore.step_commit_of_ok hcommit]
        obtain ⟨S₁, updates, hinsert, hcards⟩ := commitIngest_cards hcommit
        rw [hcards]
        -- The cards of the batch are unswept as they are built.
        refine forall_updateCardLatestTx updates fun card hcard => ?_
        rw [hinsert] at hcard
        have hrows := @Table.mem_of_mem_foldl_insertOrReplace _ _ _ _ _ id _ _ _ hcard
        rcases hrows with hold | ⟨built, hbuilt, rfl⟩
        · exact h card hold
        · exact (ha built hbuilt).unswept

/-- In every store that ingests, deletions and sweeps lead to, a sweep does what it is for if and
only if no card is due. -/
theorem expireRecords_iff {run : List SweptStep} (h : ∀ a ∈ run, a.Ingests rules format)
    (now : UInt64) :
    Swept format now
        (run.foldl (TenantStore.sweptStep cosineSimilarity format)
          TenantStore.empty).memoryCards.rows
        ((run.foldl (TenantStore.sweptStep cosineSimilarity format)
          TenantStore.empty).expireRecords format now).1.memoryCards.rows ↔
      ∀ card ∈ (run.foldl (TenantStore.sweptStep cosineSimilarity format)
        TenantStore.empty).memoryCards.rows, card.isDue format now = false := by
  -- No step writes a card that has been swept.
  have hunswept : ∀ card ∈ (run.foldl (TenantStore.sweptStep cosineSimilarity format)
      TenantStore.empty).memoryCards.rows, card.Unswept format := by
    induction run using List.reverseRecOn with
    | nil => exact fun card hcard => absurd hcard List.not_mem_nil
    | append_singleton run a ih =>
      rw [List.foldl_append]
      exact unswept_sweptStep (h a (List.mem_append_right _ List.mem_cons_self))
        (ih fun b hb => h b (List.mem_append_left _ hb))
  generalize run.foldl (TenantStore.sweptStep cosineSimilarity format) TenantStore.empty = S
    at hunswept
  rw [expireRecords_of_unswept now hunswept]
  -- The sweep marks the cards that are due, and the cards that there are bear no mark.
  constructor
  · intro hswept card hcard
    by_contra hdue
    have hmarked := hswept.marked card hcard (Bool.of_not_eq_false hdue)
    rw [(hunswept card hcard).2] at hmarked
    exact Bool.false_ne_true hmarked
  · intro hnone
    refine ⟨rfl, fun card hcard hdue => ?_, fun card hcard _ => hcard⟩
    rw [hnone card hcard] at hdue
    exact absurd hdue Bool.false_ne_true

/-! ## A card that is due -/

/-- What is read off a text without names and dates. -/
private def undatedRules : CardRules where
  documentTimeMs _ fallback := fallback
  eventTimeMs _ _ := none
  namedPhrases _ := []
  temporalTerms _ := []

/-- The metadata of a fact that is derived from a turn at the start of time. -/
private def derivedMetadata : LifecycleMetadata :=
  evaluateLifecycle ⟨40 / 100, 35 / 100, 52 / 100, 28 / 100, 20 / 100, 66 / 100, []⟩
    "Ann likes tea" .fact 0 true

/-- These metadata as a text, before and after they are marked. -/
private def derivedText (state : String) : String :=
  "\x7b\"lifecycle_state\":\"" ++ state ++
    "\",\"retention_class\":\"Ephemeral\",\"expires_at_ms\":2592000000\x7d"

/-- How they are written and read. -/
private def derivedFormat : LifecycleFormat where
  render lifecycle :=
    if lifecycle.lifecycleState = .expired then derivedText "Expired" else derivedText "Admitted"
  parse text :=
    if text = derivedText "Admitted" then some derivedMetadata
    else if text = derivedText "Expired" then
      some { derivedMetadata with lifecycleState := .expired }
    else none

/-- The payload of that fact. -/
private def derivedPayload : IngestPayload :=
  { IngestPayload.default with
    entityId := "ann"
    memoryId := "m1::fact0"
    textualContent := "Ann likes tea"
    kind := some "fact"
    sourceMemoryId := some "m1"
    factOperation := some "derive" }

/-- Its ingest. -/
private def derivedIngest : SweptStep :=
  .store (.commit .insertion ⟨0, 0, 0⟩
    { memoryCardBatch := (buildMemoryCardFromPayload undatedRules derivedFormat derivedPayload .fact
        derivedMetadata).toList })

/-- The request of the example is an ingest. -/
private theorem derivedIngest_ingests : derivedIngest.Ingests undatedRules derivedFormat := by
  intro card hcard
  exact ⟨derivedPayload, .fact, _, 0, true, Option.mem_toList.mp hcard, by decide +kernel⟩

/-- A sweep at the time of the ingest, after another one. -/
theorem expireRecords_iff_derived :
    Swept derivedFormat 0
        ([derivedIngest, .expire 0].foldl (TenantStore.sweptStep (fun _ _ => 0) derivedFormat)
          TenantStore.empty).memoryCards.rows
        (([derivedIngest, .expire 0].foldl (TenantStore.sweptStep (fun _ _ => 0) derivedFormat)
          TenantStore.empty).expireRecords derivedFormat 0).1.memoryCards.rows ↔
      ∀ card ∈ ([derivedIngest, .expire 0].foldl
        (TenantStore.sweptStep (fun _ _ => 0) derivedFormat) TenantStore.empty).memoryCards.rows,
          card.isDue derivedFormat 0 = false :=
  expireRecords_iff (fun a ha => by
    rcases List.mem_cons.mp ha with rfl | hrest
    · exact derivedIngest_ingests
    · rw [List.mem_singleton.mp hrest]
      trivial) 0

/-- A derived fact is due after thirty days, and the sweep leaves its card as it is. -/
theorem expireRecords_leaves :
    derivedIngest.Ingests undatedRules derivedFormat ∧
      ¬ Swept derivedFormat 2592000000
        (TenantStore.empty.sweptStep (fun _ _ => 0) derivedFormat derivedIngest).memoryCards.rows
        ((TenantStore.empty.sweptStep (fun _ _ => 0) derivedFormat derivedIngest).expireRecords
          derivedFormat 2592000000).1.memoryCards.rows := by
  refine ⟨derivedIngest_ingests, fun hswept => ?_⟩
  have hmarked := hswept.marked
  revert hmarked
  decide +kernel

end Tellodb
