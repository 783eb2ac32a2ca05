import Tellodb.Api.Types
import Tellodb.Core.MemoryId
import Tellodb.Storage.Schema
import Mathlib.Algebra.Order.Ring.Unbundled.Rat

/-!
# Retention

How long a memory is kept, as `evaluate_lifecycle` of `lifecycle.rs` decides it from its text, its
kind and whether it is inferred, and `build_observations` of `ingest.rs` asks it for each payload. A
record that is derived from a turn as a fact counts as inferred, and the turn does not: so it ends
before the turn does, unless one of them is never to expire (`endsBy_companion_iff`). -/

namespace Tellodb

/-! ## The code -/

/-- `str::contains` -/
def containsText (text needle : String) : Bool :=
  text.toList.tails.any fun rest => needle.toList.isPrefixOf rest

/-- `str::to_ascii_lowercase` -/
def toAsciiLowercase (text : String) : String :=
  String.ofList (text.toList.map Char.toLower)

/-- The words that make a memory salient. -/
def salientWords : List String :=
  ["adopted", "married", "moved", "graduated", "started", "joined", "won", "lost", "diagnosed",
    "allergy", "health", "family", "children", "dog", "pet", "job", "career", "degree", "favorite",
    "prefers", "decided", "plan", "goal", "trip", "visited"]

/-- `salience_score` before the words of the text. -/
def salienceOfKind : MemoryKind → ℚ
  | .decision => 88 / 100
  | .preference => 78 / 100
  | .fact => 72 / 100
  | .lesson => 70 / 100
  | .sessionSummary => 56 / 100
  | .conversational => 42 / 100
  | .syntheticQuery => 42 / 100

/-- `salience_score` -/
def salienceScore (lower : String) (kind : MemoryKind) : ℚ :=
  let hits := (salientWords.filter (containsText lower)).length
  max 0 (min 1 (salienceOfKind kind + min ((hits : ℚ) * (35 / 1000)) (18 / 100)))

/-- The words of a state that passes. -/
def temporaryWords : List String :=
  ["today", "currently", "right now", "lately", "recently", "this week", "this month", "feeling",
    "mood"]

/-- `stability_score` -/
def stabilityScore (lower : String) (kind : MemoryKind) (isInference : Bool) : ℚ :=
  if isInference then 32 / 100
  else if temporaryWords.any (containsText lower) then 34 / 100
  else
    match kind with
    | .preference => 78 / 100
    | .decision => 78 / 100
    | .fact => 78 / 100
    | .lesson => 62 / 100
    | .sessionSummary => 50 / 100
    | .conversational => 44 / 100
    | .syntheticQuery => 44 / 100

/-- The words that `sensitivity_class` looks for first. -/
def restrictedWords : List String :=
  ["password", "secret key", "api key", "token", "private key", "ssn", "social security",
    "credit card"]

/-- Whether `sensitivity_class` is `Restricted`. -/
def isRestricted (lower : String) : Bool :=
  restrictedWords.any (containsText lower)

/-- `RetentionClass` -/
inductive RetentionClass where
  | ephemeral
  | working
  | episodic
  | longTerm
  | archive
  | complianceSensitive
  deriving DecidableEq

/-- `retention_class` -/
def retentionClass (kind : MemoryKind) (restricted : Bool) (salience stability : ℚ)
    (isInference : Bool) : RetentionClass :=
  if restricted then .complianceSensitive
  else if isInference && stability < 45 / 100 then .ephemeral
  else if salience ≥ 75 / 100 || stability ≥ 72 / 100 then .longTerm
  else
    match kind with
    | .preference => .longTerm
    | .decision => .longTerm
    | .fact => .longTerm
    | .lesson => .archive
    | .sessionSummary => .episodic
    | .conversational => .episodic
    | .syntheticQuery => .episodic

/-- The milliseconds of some days. -/
def dayMs (days : ℕ) : ℕ := days * 86400000

/-- `u64::saturating_add` -/
def saturatingAdd (a : UInt64) (b : ℕ) : UInt64 :=
  UInt64.ofNat (min (a.toNat + b) (2^64 - 1))

/-- `expires_at_for` -/
def expiresAtFor (retention : RetentionClass) (timestampMs : UInt64) (isInference : Bool) :
    Option UInt64 :=
  match retention with
  | .ephemeral => some (saturatingAdd timestampMs (if isInference then dayMs 30 else dayMs 14))
  | .working => some (saturatingAdd timestampMs (dayMs 90))
  | .episodic => some (saturatingAdd timestampMs (dayMs 730))
  | .longTerm => none
  | .archive => none
  | .complianceSensitive => none

/-- The expiry that `evaluate_lifecycle` sets. -/
def evaluateExpiry (text : String) (kind : MemoryKind) (timestampMs : UInt64)
    (isInference : Bool) : Option UInt64 :=
  let lower := toAsciiLowercase text
  expiresAtFor (retentionClass kind (isRestricted lower) (salienceScore lower kind)
    (stabilityScore lower kind isInference) isInference) timestampMs isInference

namespace IngestPayload

/-- Whether `build_observations` takes a payload as inferred. -/
def isInference (payload : IngestPayload) : Bool :=
  match payload.factOperation with
  | some operation => toAsciiLowercase operation = "derive" || toAsciiLowercase operation = "infer"
  | none => MemoryKind.parse (payload.kind.getD "") = .lesson

/-- The expiry of a payload that is stored at some time. -/
def expiresAt (now : UInt64) (payload : IngestPayload) : Option UInt64 :=
  evaluateExpiry payload.textualContent (MemoryKind.parse (payload.kind.getD ""))
    (max now payload.timestamp) payload.isInference

/-- A text with blanks for its underscores. -/
def spaced (text : String) : String :=
  String.ofList (text.toList.map fun c => if c = '_' then ' ' else c)

/-- A relation companion of `build_relation_companion_payloads`. -/
def relationCompanion (payload : IngestPayload) (idx : ℕ) (relation : String × String × String) :
    IngestPayload :=
  { IngestPayload.default with
    entityId := payload.entityId
    memoryId := MemoryId.derivedFrom payload.memoryId ("rel" ++ toString idx)
    timestamp := payload.timestamp
    textualContent := "Canonical relation: " ++ relation.1 ++ " " ++ spaced relation.2.1 ++ " " ++
      relation.2.2
    relations := payload.relations
    kind := some "fact"
    factKey := some ("relation_" ++
      String.ofList (relation.2.1.toList.map fun c => if c = ' ' then '_' else c))
    sourceMemoryId := some payload.memoryId
    indexSemantic := some false
    enableSemanticDedup := some false
    enableConsolidation := some false
    contentType := payload.contentType
    factOperation := some "derive"
    factConfidence := some (90 / 100)
    factSubject := some relation.1
    factPredicate := some (spaced relation.2.1)
    factObject := some relation.2.2 }

/-- A fact companion of `build_companion_payloads_with_profile`. -/
def factCompanion (payload : IngestPayload) (idx : ℕ) (factKey : Option String)
    (factText : String) : IngestPayload :=
  { IngestPayload.default with
    entityId := payload.entityId
    memoryId := MemoryId.derivedFrom payload.memoryId ("fact" ++ toString idx)
    timestamp := payload.timestamp
    textualContent :=
      match factKey with
      | some slotKey => "Canonical fact about " ++ spaced slotKey ++ ": " ++ factText
      | none => "Canonical fact: " ++ factText
    relations := payload.relations
    kind := some "fact"
    factKey := factKey
    sourceMemoryId := some payload.memoryId
    indexSemantic := some true
    enableSemanticDedup := some true
    enableConsolidation := some false
    enableMining := some false
    contentType := payload.contentType
    factOperation := some "derive"
    factConfidence := some (92 / 100)
    factSubject := some payload.entityId
    sessionId := payload.sessionId
    turnIndex := payload.turnIndex
    role := payload.role }

end IngestPayload

/-! ## What ends first -/

/-- A record ends by the time that another one does; one without an expiry never ends. -/
def endsBy {τ : Type*} [LE τ] [DecidableLE τ] (record other : Option τ) : Bool :=
  other.all fun t => record.any fun t' => t' ≤ t

/-- Every record ends by no time at all. -/
@[simp]
theorem endsBy_none_right {τ : Type*} [LE τ] [DecidableLE τ] (record : Option τ) :
    endsBy record none = true := by
  unfold endsBy
  rfl

/-- A record without an end does not end by a time. -/
@[simp]
theorem endsBy_none_left {τ : Type*} [LE τ] [DecidableLE τ] (t : τ) :
    endsBy none (some t) = false := by
  unfold endsBy
  rfl

/-- A record ends by the times from its end on. -/
@[simp]
theorem endsBy_some_some {τ : Type*} [LE τ] [DecidableLE τ] (t' t : τ) :
    endsBy (some t') (some t) = decide (t' ≤ t) := by
  unfold endsBy
  rfl

/-- An inferred record is kept for thirty days, unless its text is restricted. -/
theorem evaluateExpiry_of_isInference (text : String) (kind : MemoryKind) (timestampMs : UInt64) :
    evaluateExpiry text kind timestampMs true =
      if isRestricted (toAsciiLowercase text) then none
      else some (saturatingAdd timestampMs (dayMs 30)) := by
  unfold evaluateExpiry retentionClass stabilityScore
  dsimp only
  cases isRestricted (toAsciiLowercase text) with
  | true => rfl
  | false =>
    rw [if_neg Bool.false_ne_true, if_pos rfl, if_pos (by decide +kernel)]
    rfl

/-- Another record is kept for two years, or has no expiry. -/
theorem evaluateExpiry_of_direct (text : String) (kind : MemoryKind) (timestampMs : UInt64) :
    evaluateExpiry text kind timestampMs false = none ∨
      evaluateExpiry text kind timestampMs false = some (saturatingAdd timestampMs (dayMs 730)) := by
  unfold evaluateExpiry retentionClass
  dsimp only
  split
  · exact .inl rfl
  rw [Bool.false_and, if_neg Bool.false_ne_true]
  split
  · exact .inl rfl
  cases kind with
  | sessionSummary => exact .inr rfl
  | conversational => exact .inr rfl
  | syntheticQuery => exact .inr rfl
  | _ => exact .inl rfl

/-- Of two times from one start the later one is later, as long as it does not saturate. -/
theorem saturatingAdd_lt {a : UInt64} {m n : ℕ} (hlt : m < n) (h : a.toNat + n < 2^64) :
    saturatingAdd a m < saturatingAdd a n := by
  have hbelow : ∀ k ≤ n, (saturatingAdd a k).toNat = a.toNat + k := by
    intro k hk
    have hmin : min (a.toNat + k) (2^64 - 1) = a.toNat + k := by omega
    have hmod : (a.toNat + k) % 2^64 = a.toNat + k := Nat.mod_eq_of_lt (by omega)
    unfold saturatingAdd
    rw [hmin, UInt64.toNat_ofNat', hmod]
  rw [UInt64.lt_iff_toNat_lt, hbelow m (Nat.le_of_lt hlt), hbelow n (Nat.le_refl n)]
  omega

/-- A payload that derives its fact is inferred. -/
theorem isInference_of_derive {payload : IngestPayload}
    (h : payload.factOperation = some "derive") : payload.isInference = true := by
  have hlower : toAsciiLowercase "derive" = "derive" := by decide +kernel
  unfold IngestPayload.isInference
  rw [h]
  dsimp only
  rw [hlower, decide_eq_true rfl, Bool.true_or]

/-- A turn that is not inferred does not end by thirty days from its time. -/
theorem endsBy_of_direct {text : String} {kind : MemoryKind} {start : UInt64}
    (htime : start.toNat + dayMs 730 < 2^64) :
    endsBy (evaluateExpiry text kind start false) (some (saturatingAdd start (dayMs 30))) =
      false := by
  have hdays : dayMs 30 < dayMs 730 := by
    unfold dayMs
    omega
  -- Two years are more than thirty days, as long as neither saturates.
  have hnot : ¬ saturatingAdd start (dayMs 730) ≤ saturatingAdd start (dayMs 30) :=
    UInt64.not_le.mpr (saturatingAdd_lt hdays htime)
  rcases evaluateExpiry_of_direct text kind start with h | h
  · rw [h, endsBy_none_left]
  · rw [h, endsBy_some_some, decide_eq_false hnot]

/-- A turn ends by the time that a companion does which is stored with it and derives its fact, if
and only if the companion is restricted, or the turn is inferred as well and is not. -/
theorem endsBy_companion_iff {now : UInt64} {payload companion : IngestPayload}
    (hderive : companion.factOperation = some "derive")
    (htimestamp : companion.timestamp = payload.timestamp)
    (htime : (max now payload.timestamp).toNat + dayMs 730 < 2^64) :
    endsBy (payload.expiresAt now) (companion.expiresAt now) = true ↔
      isRestricted (toAsciiLowercase companion.textualContent) = true ∨
        (payload.isInference = true ∧
          isRestricted (toAsciiLowercase payload.textualContent) = false) := by
  -- A companion is an inference, so it expires after thirty days unless it is restricted.
  have hexpires : companion.expiresAt now =
      if isRestricted (toAsciiLowercase companion.textualContent) then none
      else some (saturatingAdd (max now payload.timestamp) (dayMs 30)) := by
    unfold IngestPayload.expiresAt
    rw [isInference_of_derive hderive, htimestamp, evaluateExpiry_of_isInference]
  rw [hexpires]
  -- The cases are whether the companion and the payload are restricted, and how the payload was
  -- made.
  cases isRestricted (toAsciiLowercase companion.textualContent) with
  | true =>
    rw [if_pos rfl, endsBy_none_right]
    simp only [true_or]
  | false =>
    rw [if_neg Bool.false_ne_true]
    unfold IngestPayload.expiresAt
    cases payload.isInference with
    | true =>
      rw [evaluateExpiry_of_isInference]
      cases isRestricted (toAsciiLowercase payload.textualContent) with
      | true =>
        rw [if_pos rfl, endsBy_none_left]
        simp only [Bool.false_eq_true, Bool.true_eq_false, and_false, or_false]
      | false =>
        rw [if_neg Bool.false_ne_true, endsBy_some_some, decide_eq_true (UInt64.le_refl _)]
        simp only [and_self, or_true]
    | false =>
      rw [endsBy_of_direct htime]
      simp only [Bool.false_eq_true, false_and, or_false]

end Tellodb
