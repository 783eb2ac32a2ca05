import Tellodb.Embedding.Window
import Tellodb.Storage.Pipeline
import Tellodb.Storage.Schema
import Tellodb.Vectors.Stored
import Tellodb.Relational.Run

/-!
# Batches of turns

`execute_ingest_pipeline` after the expansion of the payloads: the texts of a batch are built, turns
that are stored already are dropped, the rest is embedded and committed with new embeddings of the
stored neighbours. A turn that is sent again is a turn of the batch when the neighbours are
chosen and is dropped afterwards, so it keeps its old embedding next to a new turn (`turn_resent`).
`windows_run` is what holds when no turn that is dropped has a new turn of its batch in its
window. -/

namespace Tellodb

open Relational Collections

/-! ## The pipeline -/

/-- What is decided about a payload besides its text. -/
structure Admission where
  /-- `expires_at_ms` of `evaluate_lifecycle`. -/
  expiresAtMs : IngestPayload → Option UInt64
  /-- `index_vector` of `evaluate_lifecycle`. -/
  indexVector : IngestPayload → Bool
  /-- Whether the embedding is that of a stored or an earlier memory. -/
  duplicate : IngestPayload → Bool

/-- The kind of a payload. -/
def IngestPayload.memoryKind (payload : IngestPayload) : MemoryKind :=
  MemoryKind.parse (payload.kind.getD "")

/-- The observation of a payload with its embedding text. -/
def observationOf (embed : String → List ℚ) (sha256 : String → String) (admission : Admission)
    (payload : IngestPayload) (text : String) : AgentObservation where
  entityId := payload.entityId
  textualContent := payload.textualContent
  embedding :=
    if payload.indexSemantic.getD true && admission.indexVector payload then embed text else []
  kind := payload.memoryKind
  contentHash := contentHash sha256 payload.textualContent payload.entityId payload.memoryKind
  expiresAtMs := admission.expiresAtMs payload
  sessionId := payload.sessionId.getD ""
  turnIndex := payload.turnIndex.getD 0
  role := payload.role.getD ""
  parentMemoryId := payload.sourceMemoryId

/-- `build_observations` for one payload, unless it is dropped as a duplicate. -/
def buildObservation (embed : String → List ℚ) (sha256 : String → String) (admission : Admission)
    (semanticDedup : Bool) (payload : IngestPayload) (text : String) :
    Option (UInt64 × String × AgentObservation) :=
  if payload.indexSemantic.getD true && admission.indexVector payload &&
      payload.enableSemanticDedup.getD true && semanticDedup &&
      (payload.memoryKind = .fact || payload.memoryKind = .decision) &&
      admission.duplicate payload then none
  else some (payload.timestamp, payload.memoryId,
    observationOf embed sha256 admission payload text)

/-- The semantic engine and the settings of a server. -/
structure EmbedSettings where
  embed : String → List ℚ
  sha256 : String → String
  cosineSimilarity : List ℚ → List ℚ → ℚ
  config : EmbedTextConfig
  /-- `Feature::SemanticDedup` -/
  semanticDedup : Bool

/-- A request whose payloads are expanded. -/
structure Arrival where
  payloads : List IngestPayload
  /-- The texts with context headers, for the mode `legacy`. -/
  enriched : List String
  admission : Admission
  order : HashOrder
  clock : IngestClock
  /-- The other records that `build_artifacts` makes of the batch. -/
  artifacts : IngestBatches
  faults : VectorFaults

section

variable (E : EmbedSettings) (S : TenantStore) (a : Arrival)

/-- The texts of a request, with the neighbours that are to be embedded again. -/
def embedTexts : ContextTexts :=
  if E.config.mode = .legacy then ⟨a.enriched, []⟩
  else buildEmbedTexts a.order S a.payloads E.config

/-- The payloads that are not dropped as stored already, with their texts. -/
def keptTexts : List (IngestPayload × String) :=
  (a.payloads.zip (embedTexts E S a).texts).filter fun x =>
    shouldKeepPayload (S.storedContentState x.1.memoryId)
      (contentHash E.sha256 x.1.textualContent x.1.entityId x.1.memoryKind)

/-- The batch that is committed. -/
def batchOf : IngestBatches :=
  { a.artifacts with
    observations := (keptTexts E S a).filterMap fun x =>
      buildObservation E.embed E.sha256 a.admission E.semanticDedup x.1 x.2
    neighbourEmbeddingUpdates := (embedTexts E S a).neighbourUpdates.map fun x =>
      (x.1, E.embed x.2) }

/-- `execute_ingest_pipeline` -/
def executeIngest : TenantStore :=
  match S.commitIngest E.cosineSimilarity a.order a.clock (batchOf E S a) with
  | .ok (S, outcome) => S.indexCommitted a.order a.faults outcome
  | .error _ => S

end

/-! ## Conversations -/

/-- The turns of a session as they are sent: conversational, none chunked, each with its own
identifier and turn. -/
structure Conversation where
  entityId : String
  sessionId : String
  turns : List IngestPayload
  sessionId_ne : sessionId.isEmpty = false
  sent : ∀ p ∈ turns, p.entityId = entityId ∧ p.sessionId = some sessionId ∧
    p.turnIndex.isSome ∧ p.sourceMemoryId = none ∧ p.kind ≠ some "synthetic_query" ∧
      p.memoryKind = .conversational ∧ p.indexSemantic ≠ some false
  ids : (turns.map IngestPayload.memoryId).Nodup
  turnIndexes : (turns.map IngestPayload.turnIndex).Nodup

namespace Conversation

variable (c : Conversation)

/-- A row is read as a turn of the session. -/
def Reads (r : MemoryRow) : Prop :=
  r.entityId = c.entityId ∧ r.sessionId = c.sessionId ∧
    (r.parentMemoryId.all fun parent => r.memoryId = parent ++ "::c0") = true

/-- A payload is no turn of the session, and takes the place of none. -/
def Apart (p : IngestPayload) : Prop :=
  (∀ q ∈ c.turns, p.memoryId ≠ q.memoryId) ∧
    ¬ (p.entityId = c.entityId ∧ p.sessionId = some c.sessionId ∧
      (p.sourceMemoryId.all fun parent => p.memoryId = parent ++ "::c0") = true)

/-- The number of a turn. -/
def turnOf (p : IngestPayload) : ℕ :=
  (p.turnIndex.getD 0).toNat

/-- The lines of some turns. -/
def lines (turns : List IngestPayload) : SortedMap ℕ String :=
  enterLines (.empty ℕ String) (turns.map fun p => (turnOf p, payloadLine p))

/-- The turns of the conversation that are stored. -/
def stored (S : TenantStore) : List IngestPayload :=
  c.turns.filter fun p => (S.memories.find? p.memoryId).isSome

/-- The stored embedding of a turn. -/
def embeddingOf (S : TenantStore) (p : IngestPayload) : Option (List ℚ) :=
  (S.memories.find? p.memoryId).bind fun r =>
    storedCode (⟨id, 0⟩ : VectorConfig (List ℚ)) S.vectorLookup c.entityId r.rowid

/-- A batch brings turns of the conversation and payloads apart from it. Each turn is indexed by its
vector. -/
structure Brings (a : Arrival) : Prop where
  payloads : ∀ p ∈ a.payloads, p ∈ c.turns ∨ c.Apart p
  indexVector : ∀ p ∈ c.turns, p ∈ a.payloads → a.admission.indexVector p = true

/-- No turn that is dropped has a new turn of its batch in its window. -/
def NoneMissed (E : EmbedSettings) (S : TenantStore) (a : Arrival) : Prop :=
  ∀ p ∈ c.turns, p ∈ a.payloads →
    shouldKeepPayload (S.storedContentState p.memoryId)
      (contentHash E.sha256 p.textualContent p.entityId p.memoryKind) = false →
    ∀ q ∈ c.turns, q ∈ a.payloads → (S.memories.find? q.memoryId).isSome = false →
      inWindow (turnOf p) E.config.window.toNat (turnOf q) = false

instance (p : IngestPayload) : Decidable (c.Apart p) :=
  inferInstanceAs (Decidable (_ ∧ ¬ (_ ∧ _)))

instance (a : Arrival) : Decidable (c.Brings a) :=
  decidable_of_iff (_ ∧ _) ⟨fun ⟨h, h'⟩ => ⟨h, h'⟩, fun ⟨h, h'⟩ => ⟨h, h'⟩⟩

instance (E : EmbedSettings) (S : TenantStore) (a : Arrival) : Decidable (c.NoneMissed E S a) :=
  inferInstanceAs (Decidable (∀ p ∈ c.turns, _))

/-! ## Turns of a batch -/

/-- The turns that are stored or come with a batch. -/
def arrived (S : TenantStore) (payloads : List IngestPayload) : List IngestPayload :=
  c.turns.filter fun p => (S.memories.find? p.memoryId).isSome || decide (p ∈ payloads)

/-- A row is that of a turn. -/
structure RowOf (p : IngestPayload) (r : MemoryRow) : Prop where
  memoryId : r.memoryId = p.memoryId
  entityId : r.entityId = p.entityId
  sessionId : r.sessionId = p.sessionId.getD ""
  turnIndex : r.turnIndex = p.turnIndex.getD 0
  role : r.role = p.role.getD ""
  content : r.content = p.textualContent
  parentMemoryId : r.parentMemoryId = p.sourceMemoryId

/-- What is read as a turn of the session, or has the identifier of one, is the row of a turn. -/
def Rows (S : TenantStore) : Prop :=
  ∀ r ∈ S.memories.rows, ((∃ p ∈ c.turns, r.memoryId = p.memoryId) ∨ c.Reads r) →
    ∃ p ∈ c.turns, RowOf p r

section

variable {c : Conversation} {S : TenantStore} {payloads : List IngestPayload} {p q : IngestPayload}

/-- Turns with the same identifier are the same. -/
theorem eq_of_memoryId (hp : p ∈ c.turns) (hq : q ∈ c.turns) (h : p.memoryId = q.memoryId) :
    p = q :=
  List.inj_on_of_nodup_map c.ids hp hq h

/-- Turns with the same number are the same. -/
theorem eq_of_turnOf (hp : p ∈ c.turns) (hq : q ∈ c.turns) (h : turnOf p = turnOf q) : p = q := by
  obtain ⟨-, -, hpsome, -⟩ := c.sent p hp
  obtain ⟨-, -, hqsome, -⟩ := c.sent q hq
  obtain ⟨t, ht⟩ := Option.isSome_iff_exists.mp hpsome
  obtain ⟨u, hu⟩ := Option.isSome_iff_exists.mp hqsome
  refine List.inj_on_of_nodup_map c.turnIndexes hp hq ?_
  unfold turnOf at h
  rw [ht, hu] at h ⊢
  exact congrArg some (UInt32.toNat_inj.mp h)

/-- A turn is grouped under its session. -/
theorem sessionTurn_of_turn (hp : p ∈ c.turns) :
    sessionTurn p = some ((c.entityId, c.sessionId), turnOf p) := by
  obtain ⟨hentity, hsession, hsome, hsource, hkind, -⟩ := c.sent p hp
  obtain ⟨t, ht⟩ := Option.isSome_iff_exists.mp hsome
  have hturn : isSourceTurn p = true := by
    unfold isSourceTurn
    rw [hsource]
    simp [hkind]
  unfold sessionTurn turnOf
  rw [hsession, ht]
  simp [c.sessionId_ne, hturn, hentity]

/-- A payload that is apart is grouped under another session. -/
theorem sessionTurn_of_apart (hp : c.Apart p) {turn : ℕ} :
    sessionTurn p ≠ some ((c.entityId, c.sessionId), turn) := by
  intro h
  unfold sessionTurn at h
  split at h
  · rename_i session t hsession ht
    split at h
    · exact absurd h (by simp)
    · rename_i hsource
      obtain ⟨hgroup, -⟩ := Prod.mk.inj (Option.some.inj h)
      obtain ⟨hentity, hs⟩ := Prod.mk.inj hgroup
      refine hp.2 ⟨hentity, by rw [hsession, hs], ?_⟩
      have hturn : session ≠ "" ∧ isSourceTurn p = true := by simpa using hsource
      exact (Bool.and_eq_true_iff.mp hturn.2).2
  · exact absurd h (by simp)

/-- The members of the session in a batch are the turns of the conversation. -/
theorem mem_membersOf (hpayloads : ∀ p ∈ payloads, p ∈ c.turns ∨ c.Apart p)
    {x : IngestPayload × ℕ} : x ∈ membersOf payloads (c.entityId, c.sessionId) ↔
      x.1 ∈ payloads ∧ x.1 ∈ c.turns ∧ x.2 = turnOf x.1 := by
  unfold membersOf
  rw [List.mem_filterMap]
  constructor
  · rintro ⟨p, hp, hx⟩
    obtain ⟨y, hy, rfl⟩ := Option.map_eq_some_iff.mp hx
    obtain ⟨hsession, hgroup⟩ := Option.filter_eq_some_iff.mp hy
    obtain ⟨g, turn⟩ := y
    obtain rfl : g = (c.entityId, c.sessionId) := of_decide_eq_true hgroup
    rcases hpayloads p hp with hturn | hapart
    · rw [sessionTurn_of_turn hturn] at hsession
      exact ⟨hp, hturn, (Prod.mk.inj (Option.some.inj hsession)).2.symm⟩
    · exact absurd hsession (sessionTurn_of_apart hapart)
  · obtain ⟨p, turn⟩ := x
    rintro ⟨hp, hturn, hnumber⟩
    refine ⟨p, hp, ?_⟩
    dsimp only at hturn hnumber
    rw [sessionTurn_of_turn hturn, hnumber]
    simp

/-- What is found among the lines of some turns. -/
theorem find?_lines {turns : List IngestPayload} (hturns : ∀ p ∈ turns, p ∈ c.turns) {k : ℕ}
    {line : String} : (lines turns).find? k = some line ↔
      ∃ p ∈ turns, turnOf p = k ∧ payloadLine p = line := by
  unfold lines
  rw [find?_enterLines_eq_some]
  · rw [SortedMap.find?_empty]
    simp
  · intro a ha b hb hturn
    obtain ⟨p, hp, rfl⟩ := List.mem_map.mp ha
    obtain ⟨q, hq, rfl⟩ := List.mem_map.mp hb
    rw [eq_of_turnOf (hturns p hp) (hturns q hq) hturn]

/-- The turns of a batch are between the least and the greatest of them. -/
theorem between_turns {turns : List ℕ} {turn : ℕ} (h : turn ∈ turns) :
    turns.min?.getD 0 ≤ turn ∧ turn ≤ turns.max?.getD 0 := by
  cases hmin : turns.min? with
  | none => exact absurd h (by simp [List.min?_eq_none_iff.mp hmin])
  | some lo =>
    cases hmax : turns.max? with
    | none => exact absurd h (by simp [List.max?_eq_none_iff.mp hmax])
    | some hi =>
      exact ⟨(List.min?_eq_some_iff.mp hmin).2 turn h, (List.max?_eq_some_iff.mp hmax).2 turn h⟩

/-- The turns that are read around those of a batch. -/
theorem mem_storedTurns (hS : c.Rows S) {window : UInt32} {r : MemoryRow} :
    r ∈ storedTurns S payloads window (c.entityId, c.sessionId) ↔
      r ∈ S.memories.rows ∧ (∃ p ∈ c.turns, RowOf p r) ∧
        (((membersOf payloads (c.entityId, c.sessionId)).map Prod.snd).min?.getD 0) -
          (2 * window).toNat ≤ r.turnIndex.toNat ∧
        r.turnIndex.toNat ≤ min ((((membersOf payloads (c.entityId, c.sessionId)).map
          Prod.snd).max?.getD 0) + (2 * window).toNat) u32Max := by
  unfold storedTurns TenantStore.sessionTurnWindow
  rw [mem_orderBy, List.mem_filter]
  simp only [Bool.and_eq_true, decide_eq_true_eq]
  constructor
  · rintro ⟨hr, ⟨⟨⟨hentity, hsession⟩, hlo⟩, hhi⟩, hparent⟩
    exact ⟨hr, hS r hr (.inr ⟨hentity, hsession, hparent⟩), hlo, hhi⟩
  · rintro ⟨hr, ⟨p, hp, hrow⟩, hlo, hhi⟩
    obtain ⟨hentity, hsession, -, hsource, -⟩ := c.sent p hp
    refine ⟨hr, ⟨⟨⟨hrow.entityId.trans hentity, ?_⟩, hlo⟩, hhi⟩, ?_⟩
    · rw [hrow.sessionId, hsession]
      rfl
    · rw [hrow.parentMemoryId, hsource]
      rfl

/-- The row of a turn is found by its identifier. -/
theorem find?_of_rowOf {r : MemoryRow} (hr : r ∈ S.memories.rows) (hrow : RowOf p r) :
    S.memories.find? p.memoryId = some r :=
  Table.find?_eq_some.mpr ⟨hr, hrow.memoryId⟩

/-- Twice a window below `2^31` is computed without overflow. -/
theorem toNat_two_mul {window : UInt32} (hwindow : window.toNat < 2^31) :
    (2 * window).toNat = 2 * window.toNat := by
  have htwo : (2 : UInt32).toNat = 2 := rfl
  rw [UInt32.toNat_mul, htwo]
  omega

/-- The lines of the session in a window around a turn of the batch are those of the turns that are
stored or come with it. -/
theorem find?_sessionLines (hS : c.Rows S) (hpayloads : ∀ p ∈ payloads, p ∈ c.turns ∨ c.Apart p)
    {window : UInt32} (hwindow : window.toNat < 2^31) (hq : q ∈ c.turns) (hqp : q ∈ payloads)
    {k : ℕ} (hlo : turnOf q - 2 * window.toNat ≤ k) (hhi : k ≤ turnOf q + 2 * window.toNat)
    (hmax : k ≤ u32Max) :
    (sessionLines S payloads window (c.entityId, c.sessionId)).find? k =
      (lines (c.arrived S payloads)).find? k := by
  have htwice := toNat_two_mul hwindow
  have hq' : turnOf q ∈ (membersOf payloads (c.entityId, c.sessionId)).map Prod.snd :=
    List.mem_map.mpr ⟨(q, turnOf q), (mem_membersOf hpayloads).mpr ⟨hqp, hq, rfl⟩, rfl⟩
  obtain ⟨hmin, hmaximum⟩ := between_turns hq'
  have hsub : ∀ p ∈ c.arrived S payloads, p ∈ c.turns := fun p hp => (List.mem_filter.mp hp).1
  refine Option.ext fun line => ?_
  rw [find?_lines hsub]
  unfold sessionLines
  rw [find?_enterLines_eq_some, find?_enterLines_eq_some]
  -- The lines are those of the batch and of the rows that were read, the batch first.
  · constructor
    · rintro (hline | ⟨-, hline | hnone⟩)
      · obtain ⟨x, hx, heq⟩ := List.mem_map.mp hline
        obtain ⟨hxp, hxturn, hnumber⟩ := (mem_membersOf hpayloads).mp hx
        obtain ⟨hk, hpayload⟩ := Prod.mk.inj heq
        exact ⟨x.1, List.mem_filter.mpr ⟨hxturn, by simp [hxp]⟩, hnumber.symm.trans hk, hpayload⟩
      · obtain ⟨r, hr, heq⟩ := List.mem_map.mp hline
        obtain ⟨hr, ⟨p, hp, hrow⟩, -⟩ := (mem_storedTurns hS).mp hr
        obtain ⟨hk, hpayload⟩ := Prod.mk.inj heq
        refine ⟨p, List.mem_filter.mpr ⟨hp, by simp [find?_of_rowOf hr hrow]⟩, ?_, ?_⟩
        · rw [← hk, hrow.turnIndex]
          rfl
        · rw [← hpayload, hrow.role, hrow.content]
          rfl
      · exact absurd hnone.2 (by simp)
    · rintro ⟨p, hp, hk, hpayload⟩
      obtain ⟨hpturn, hcase⟩ := List.mem_filter.mp hp
      -- A turn of the batch has its line from it, and any other from its stored row.
      by_cases hbatch : p ∈ payloads
      · refine .inl (List.mem_map.mpr ⟨(p, turnOf p),
          (mem_membersOf hpayloads).mpr ⟨hbatch, hpturn, rfl⟩, ?_⟩)
        rw [← hk, ← hpayload]
      · refine .inr ⟨?_, .inl ?_⟩
        · intro turn hturn heq
          obtain ⟨x, hx, rfl⟩ := List.mem_map.mp hturn
          obtain ⟨hxp, hxturn, hnumber⟩ := (mem_membersOf hpayloads).mp hx
          refine hbatch ?_
          rw [eq_of_turnOf hpturn hxturn (hk.trans (heq.symm.trans hnumber))]
          exact hxp
        · have hstored : (S.memories.find? p.memoryId).isSome = true := by
            simpa [hbatch] using hcase
          obtain ⟨r, hfind⟩ := Option.isSome_iff_exists.mp hstored
          obtain ⟨hr, hid⟩ := Table.find?_eq_some.mp hfind
          obtain ⟨p', hp', hrow⟩ := hS r hr (.inl ⟨p, hpturn, hid⟩)
          obtain rfl := eq_of_memoryId hp' hpturn (hrow.memoryId.symm.trans hid)
          have hturn : r.turnIndex.toNat = k := by
            rw [hrow.turnIndex]
            exact hk
          refine List.mem_map.mpr ⟨r, (mem_storedTurns hS).mpr ⟨hr, ⟨p', hp', hrow⟩, ?_, ?_⟩, ?_⟩
          · rw [hturn]
            omega
          · rw [hturn]
            omega
          · rw [hturn, ← hpayload, hrow.role, hrow.content]
            rfl
  -- Two rows of one turn are rows of the same payload.
  · intro a ha b hb hturn
    obtain ⟨r, hr, rfl⟩ := List.mem_map.mp ha
    obtain ⟨r', hr', rfl⟩ := List.mem_map.mp hb
    obtain ⟨-, ⟨p, hp, hrow⟩, -⟩ := (mem_storedTurns hS).mp hr
    obtain ⟨-, ⟨p', hp', hrow'⟩, -⟩ := (mem_storedTurns hS).mp hr'
    have hsame : turnOf p = turnOf p' := by
      unfold turnOf
      rw [← hrow.turnIndex, ← hrow'.turnIndex]
      exact hturn
    obtain rfl := eq_of_turnOf hp hp' hsame
    rw [hrow.role, hrow.content, hrow'.role, hrow'.content]
  -- So are two members of the batch.
  · intro a ha b hb hturn
    obtain ⟨x, hx, rfl⟩ := List.mem_map.mp ha
    obtain ⟨y, hy, rfl⟩ := List.mem_map.mp hb
    obtain ⟨-, hxturn, hxnumber⟩ := (mem_membersOf hpayloads).mp hx
    obtain ⟨-, hyturn, hynumber⟩ := (mem_membersOf hpayloads).mp hy
    rw [eq_of_turnOf hxturn hyturn (hxnumber.symm.trans (hturn.trans hynumber))]

/-- A turn is a number of 32 bits. -/
theorem turnOf_le (p : IngestPayload) : turnOf p ≤ u32Max := by
  have hlt := (p.turnIndex.getD 0).toNat_lt
  unfold turnOf u32Max
  omega

section

variable {window : UInt32} {text : String}

/-- The text of a turn near a turn of the batch is that of its window over the turns that are
stored or come with it. -/
theorem windowText_sessionLines (hS : c.Rows S)
    (hpayloads : ∀ p ∈ payloads, p ∈ c.turns ∨ c.Apart p) (hwindow : window.toNat < 2^31)
    (hq : q ∈ c.turns) (hqp : q ∈ payloads)
    (hnear : inWindow (turnOf p) window.toNat (turnOf q) = true) :
    windowText (sessionLines S payloads window (c.entityId, c.sessionId)) (turnOf p) window.toNat =
      windowText (lines (c.arrived S payloads)) (turnOf p) window.toNat := by
  unfold inWindow at hnear
  simp only [Bool.and_eq_true, decide_eq_true_eq] at hnear
  refine windowText_congr (turnOf_le p) fun k hk => ?_
  unfold inWindow at hk
  simp only [Bool.and_eq_true, decide_eq_true_eq] at hk
  exact find?_sessionLines hS hpayloads hwindow hq hqp (by omega) (by omega) (by omega)

/-- A turn is in its own window. -/
theorem inWindow_self (p : IngestPayload) (w : ℕ) : inWindow (turnOf p) w (turnOf p) = true := by
  have := turnOf_le p
  unfold inWindow
  simp only [Bool.and_eq_true, decide_eq_true_eq]
  omega

/-- A turn of the batch has a line among those that are stored or come with it. -/
theorem find?_arrived (hp : p ∈ c.arrived S payloads) :
    (lines (c.arrived S payloads)).find? (turnOf p) = some (payloadLine p) :=
  (find?_lines fun _ hp => (List.mem_filter.mp hp).1).mpr ⟨p, hp, rfl, rfl⟩

/-- What is paired with an element is its image. -/
theorem eq_of_mem_zip_map {α β : Type} {f : α → β} {l : List α} {x : α × β}
    (h : x ∈ l.zip (l.map f)) : x.2 = f x.1 := by
  induction l with
  | nil => exact absurd h List.not_mem_nil
  | cons a l ih =>
    rcases List.mem_cons.mp h with rfl | hrest
    · rfl
    · exact ih hrest

/-- The texts of a batch with a window. -/
theorem texts_of_context {order : HashOrder} {config : EmbedTextConfig}
    (hmode : config.mode = .context) (hzero : config.window ≠ 0) :
    (buildEmbedTexts order S payloads config).texts =
      payloads.map (contextText S payloads config.window) := by
  unfold buildEmbedTexts
  simp only [hmode, hzero]
  rfl

/-- The neighbours of a batch with a window. -/
theorem updates_of_context {order : HashOrder} {config : EmbedTextConfig}
    (hmode : config.mode = .context) (hzero : config.window ≠ 0) :
    (buildEmbedTexts order S payloads config).neighbourUpdates = (order.iterate
      ((payloads.filterMap sessionTurn).map Prod.fst).dedup).flatMap
        (groupUpdates S payloads config.window) := by
  unfold buildEmbedTexts
  simp only [hmode, hzero]
  rfl

/-- The text that a turn of a batch is embedded with. -/
theorem windowText_of_text {order : HashOrder} {config : EmbedTextConfig}
    (hmode : config.mode = .context) (hS : c.Rows S)
    (hpayloads : ∀ p ∈ payloads, p ∈ c.turns ∨ c.Apart p) (hwindow : config.window.toNat < 2^31)
    (hp : p ∈ c.turns)
    (h : (p, text) ∈ payloads.zip (buildEmbedTexts order S payloads config).texts) :
    windowText (lines (c.arrived S payloads)) (turnOf p) config.window.toNat = some text := by
  have hmem : p ∈ payloads := (List.of_mem_zip h).1
  have harrived : p ∈ c.arrived S payloads := List.mem_filter.mpr ⟨hp, by simp [hmem]⟩
  have hsource : isSourceTurn p = true := by
    obtain ⟨-, -, -, hsource, hkind, -⟩ := c.sent p hp
    unfold isSourceTurn
    rw [hsource]
    simp [hkind]
  -- Without a window the text is the turn's own line.
  by_cases hzero : config.window = 0
  · have htexts : (buildEmbedTexts order S payloads config).texts = payloads.map ownText := by
      unfold buildEmbedTexts
      simp [hzero]
    rw [htexts] at h
    have htext : text = ownText p := eq_of_mem_zip_map h
    have hown : ownText p = payloadLine p := if_pos hsource
    rw [hzero, htext, hown]
    exact windowText_zero (find?_arrived harrived)
  -- With one it is the context of the session, in which the turn is its own neighbour.
  · rw [texts_of_context hmode hzero] at h
    have htext : text = contextText S payloads config.window p := eq_of_mem_zip_map h
    rw [contextText_of_sessionTurn (sessionTurn_of_turn hp),
      windowText_sessionLines hS hpayloads hwindow hp hmem (inWindow_self p _)] at htext
    obtain ⟨line, hline⟩ := Option.isSome_iff_exists.mp
      (isSome_windowText.trans (congrArg Option.isSome (find?_arrived harrived)))
    rw [hline, Option.getD_some] at htext
    rw [htext]
    exact hline

/-- Only turns that are stored and not in the batch are embedded again, with the text of their
windows. -/
theorem windowText_of_update {order : HashOrder} {config : EmbedTextConfig}
    (hmode : config.mode = .context) (hS : c.Rows S)
    (hpayloads : ∀ p ∈ payloads, p ∈ c.turns ∨ c.Apart p) (hwindow : config.window.toNat < 2^31)
    (hp : p ∈ c.turns)
    (h : (p.memoryId, text) ∈ (buildEmbedTexts order S payloads config).neighbourUpdates) :
    p ∉ payloads ∧
      windowText (lines (c.arrived S payloads)) (turnOf p) config.window.toNat = some text := by
  -- Without a window nothing is updated.
  by_cases hzero : config.window = 0
  · have hnone : (buildEmbedTexts order S payloads config).neighbourUpdates = [] := by
      unfold buildEmbedTexts
      simp [hzero]
    rw [hnone] at h
    exact absurd h List.not_mem_nil
  rw [updates_of_context hmode hzero] at h
  obtain ⟨group, -, hupdate⟩ := List.mem_flatMap.mp h
  obtain ⟨stored, hstored, hnew⟩ := List.mem_filterMap.mp hupdate
  obtain ⟨text', htext, heq⟩ := Option.map_eq_some_iff.mp hnew
  obtain ⟨hid, rfl⟩ := Prod.mk.inj heq
  obtain ⟨hentry, hnear⟩ := List.mem_filter.mp hstored
  obtain ⟨hbatch, hnear⟩ := Bool.and_eq_true_iff.mp hnear
  -- The identifier is that of a row of the session.
  have hrow := SortedMap.find?_eq_some.mpr hentry
  rw [find?_enterLines, SortedMap.find?_empty, Option.or_none] at hrow
  obtain ⟨turn, hlast, hturn⟩ := Option.map_eq_some_iff.mp hrow
  have hnumber := List.find?_some hlast
  obtain ⟨r, hr, rfl⟩ := List.mem_map.mp (List.mem_reverse.mp (List.mem_of_find?_eq_some hlast))
  have hnumber : r.turnIndex.toNat = stored.1 := of_decide_eq_true hnumber
  have hname : r.memoryId = p.memoryId := hturn.trans hid
  obtain ⟨hrS, hgroup⟩ := List.mem_filter.mp ((mem_orderBy _ _ _).mp hr)
  obtain ⟨p', hp', hrow⟩ := hS r hrS (.inl ⟨p, hp, hname⟩)
  obtain rfl := eq_of_memoryId hp' hp (hrow.memoryId.symm.trans hname)
  obtain ⟨hentity, hsession, -⟩ := c.sent p' hp
  simp only [Bool.and_eq_true, decide_eq_true_eq] at hgroup
  -- The row is one of the conversation.
  have hsame : group = (c.entityId, c.sessionId) := by
    refine Prod.ext ?_ ?_
    · exact hgroup.1.1.1.1.symm.trans (hrow.entityId.trans hentity)
    · refine hgroup.1.1.1.2.symm.trans (hrow.sessionId.trans ?_)
      rw [hsession]
      rfl
  have hturnOf : stored.1 = turnOf p' := by
    rw [← hnumber, hrow.turnIndex]
    rfl
  rw [hsame, hturnOf] at htext hnear hbatch
  -- It is near to a turn of the batch and not in the batch itself.
  obtain ⟨turn, hturn, hdist⟩ := List.any_eq_true.mp hnear
  obtain ⟨x, hx, rfl⟩ := List.mem_map.mp hturn
  obtain ⟨hxp, hxturn, hxnumber⟩ := (mem_membersOf hpayloads).mp hx
  rw [hxnumber] at hdist
  have hdist := of_decide_eq_true hdist
  have hle := turnOf_le x.1
  refine ⟨fun hmem => ?_, ?_⟩
  · rw [Bool.not_eq_true', ← Bool.not_eq_true, List.contains_iff_mem] at hbatch
    exact hbatch (List.mem_map.mpr ⟨(p', turnOf p'),
      (mem_membersOf hpayloads).mpr ⟨hmem, hp, rfl⟩, rfl⟩)
  · rw [← windowText_sessionLines hS hpayloads hwindow hxturn hxp ?_]
    · exact htext
    · unfold inWindow
      simp only [Bool.and_eq_true, decide_eq_true_eq]
      omega

/-- A stored turn that is not in the batch, but has a turn of it in its window, is embedded
again. -/
theorem exists_update {order : HashOrder} {config : EmbedTextConfig}
    (hmode : config.mode = .context) (hS : c.Rows S)
    (hpayloads : ∀ p ∈ payloads, p ∈ c.turns ∨ c.Apart p) (hwindow : config.window.toNat < 2^31)
    (hp : p ∈ c.turns) (hstored : (S.memories.find? p.memoryId).isSome = true)
    (hbatch : p ∉ payloads) (hq : q ∈ c.turns) (hqp : q ∈ payloads)
    (hnear : inWindow (turnOf p) config.window.toNat (turnOf q) = true) :
    ∃ text, (p.memoryId, text) ∈ (buildEmbedTexts order S payloads config).neighbourUpdates := by
  -- A neighbour is another turn.
  have hne : turnOf p ≠ turnOf q := by
    intro heq
    rw [eq_of_turnOf hp hq heq] at hbatch
    exact hbatch hqp
  have hin := hnear
  unfold inWindow at hin
  simp only [Bool.and_eq_true, decide_eq_true_eq] at hin
  -- The window is not empty, since there is another turn in it.
  have hzero : config.window ≠ 0 := by
    rintro hzero
    rw [hzero] at hin
    have : (0 : UInt32).toNat = 0 := rfl
    omega
  have htwice := toNat_two_mul hwindow
  obtain ⟨r, hfind⟩ := Option.isSome_iff_exists.mp hstored
  obtain ⟨hr, hid⟩ := Table.find?_eq_some.mp hfind
  obtain ⟨p', hp', hrow⟩ := hS r hr (.inl ⟨p, hp, hid⟩)
  obtain rfl := eq_of_memoryId hp' hp (hrow.memoryId.symm.trans hid)
  have hnumber : r.turnIndex.toNat = turnOf p' := by
    rw [hrow.turnIndex]
    rfl
  have hq' : turnOf q ∈ (membersOf payloads (c.entityId, c.sessionId)).map Prod.snd :=
    List.mem_map.mpr ⟨(q, turnOf q), (mem_membersOf hpayloads).mpr ⟨hqp, hq, rfl⟩, rfl⟩
  obtain ⟨hmin, hmax⟩ := between_turns hq'
  have hle := turnOf_le p'
  -- The range that is read reaches two windows beyond the turns of the batch.
  have hread : r ∈ storedTurns S payloads config.window (c.entityId, c.sessionId) := by
    refine (mem_storedTurns hS).mpr ⟨hr, ⟨p', hp, hrow⟩, ?_, ?_⟩
    · rw [hnumber, htwice]
      omega
    · rw [hnumber, htwice]
      omega
  have harrived : p' ∈ c.arrived S payloads := List.mem_filter.mpr ⟨hp, by simp [hstored]⟩
  -- The turn has arrived, so there is a text of its window.
  obtain ⟨text, htext⟩ := Option.isSome_iff_exists.mp
    (isSome_windowText.trans (congrArg Option.isSome (find?_arrived harrived)))
  refine ⟨text, ?_⟩
  rw [updates_of_context hmode hzero]
  refine List.mem_flatMap.mpr ⟨(c.entityId, c.sessionId), ?_, ?_⟩
  · refine (order.iterate_perm _).mem_iff.mpr (List.mem_dedup.mpr (List.mem_map.mpr
      ⟨((c.entityId, c.sessionId), turnOf q), List.mem_filterMap.mpr ⟨q, hqp, ?_⟩, rfl⟩))
    exact sessionTurn_of_turn hq
  -- The row is read, it is not of the batch, and it is near.
  · refine List.mem_filterMap.mpr ⟨(turnOf p', p'.memoryId), List.mem_filter.mpr ⟨?_, ?_⟩, ?_⟩
    · refine SortedMap.find?_eq_some.mp ((find?_enterLines_eq_some ?_).mpr (.inl ?_))
      · intro a ha b hb hturn
        obtain ⟨x, hx, rfl⟩ := List.mem_map.mp ha
        obtain ⟨y, hy, rfl⟩ := List.mem_map.mp hb
        obtain ⟨-, ⟨px, hpx, hrowx⟩, -⟩ := (mem_storedTurns hS).mp hx
        obtain ⟨-, ⟨py, hpy, hrowy⟩, -⟩ := (mem_storedTurns hS).mp hy
        have hsame : turnOf px = turnOf py := by
          unfold turnOf
          rw [← hrowx.turnIndex, ← hrowy.turnIndex]
          exact hturn
        rw [hrowx.memoryId, hrowy.memoryId, eq_of_turnOf hpx hpy hsame]
      · refine List.mem_map.mpr ⟨r, hread, ?_⟩
        rw [hnumber, hrow.memoryId]
    · refine Bool.and_eq_true_iff.mpr ⟨?_, List.any_eq_true.mpr ⟨turnOf q, hq', ?_⟩⟩
      · rw [Bool.not_eq_true', ← Bool.not_eq_true, List.contains_iff_mem]
        intro hmem
        obtain ⟨x, hx, heq⟩ := List.mem_map.mp hmem
        obtain ⟨hxp, hxturn, hxnumber⟩ := (mem_membersOf hpayloads).mp hx
        rw [eq_of_turnOf hp hxturn (heq.symm.trans hxnumber)] at hbatch
        exact hbatch hxp
      · refine decide_eq_true ?_
        dsimp only
        omega
    · dsimp only
      rw [windowText_sessionLines hS hpayloads hwindow hq hqp hnear, htext]
      rfl

end

/-! ## One batch -/

/-- Every stored turn has the embedding of its window over the stored turns. -/
structure Windowed (c : Conversation) (E : EmbedSettings) (S : TenantStore) : Prop where
  anchored : Anchored S.memories S.vectorLookup
  rows : c.Rows S
  embeddings : ∀ p ∈ c.stored S, c.embeddingOf S p =
    (windowText (lines (c.stored S)) (turnOf p) E.config.window.toNat).map E.embed

section

variable {E : EmbedSettings} {a : Arrival} {item : UInt64 × String × AgentObservation}

/-- A turn is not dropped as a duplicate. -/
theorem buildObservation_of_turn (hp : p ∈ c.turns) (text : String) :
    buildObservation E.embed E.sha256 a.admission E.semanticDedup p text =
      some (p.timestamp, p.memoryId, observationOf E.embed E.sha256 a.admission p text) := by
  obtain ⟨-, -, -, -, -, hkind, -⟩ := c.sent p hp
  unfold buildObservation
  rw [hkind]
  simp

/-- A turn is observed with the embedding of its text. -/
theorem embedding_observationOf (hp : p ∈ c.turns) (hindex : a.admission.indexVector p = true)
    (text : String) :
    (observationOf E.embed E.sha256 a.admission p text).embedding = E.embed text := by
  obtain ⟨-, -, -, -, -, -, hsemantic⟩ := c.sent p hp
  have hgetD : p.indexSemantic.getD true = true := by
    cases hindexSemantic : p.indexSemantic with
    | none => rfl
    | some b =>
      cases b with
      | true => rfl
      | false => exact absurd hindexSemantic hsemantic
  unfold observationOf
  rw [hgetD, hindex]
  rfl

/-- What is committed under the identifier of a turn is the turn, with the embedding of its window
over the turns that are stored or come with it. -/
theorem observation_of_turn (hmode : E.config.mode = .context)
    (hwindow : E.config.window.toNat < 2^31) (hS : c.Rows S) (ha : c.Brings a) (hp : p ∈ c.turns)
    (hitem : item ∈ (batchOf E S a).observations) (hid : item.2.1 = p.memoryId) :
    p ∈ a.payloads ∧ item.2.2.entityId = c.entityId ∧
      (windowText (lines (c.arrived S a.payloads)) (turnOf p) E.config.window.toNat).map E.embed =
        some item.2.2.embedding ∧
      ∀ recordedAt rowid, RowOf p (memoryRow recordedAt item rowid) := by
  obtain ⟨x, hx, hobserved⟩ := List.mem_filterMap.mp hitem
  obtain ⟨hzip, -⟩ := List.mem_filter.mp hx
  have hmem : x.1 ∈ a.payloads := (List.of_mem_zip hzip).1
  -- The observation carries the identifier of its payload.
  have hname : item.2.1 = x.1.memoryId := by
    unfold buildObservation at hobserved
    split at hobserved
    · exact absurd hobserved (by simp)
    · rw [← Option.some.inj hobserved]
  -- Only the payload of the turn has the identifier of the turn.
  have hturn : x.1 = p := by
    rcases ha.payloads x.1 hmem with hturn | hapart
    · exact eq_of_memoryId hturn hp (hname.symm.trans hid)
    · exact absurd (hname.symm.trans hid) (hapart.1 p hp)
  rw [hturn] at hmem hobserved
  rw [buildObservation_of_turn hp] at hobserved
  have hne : E.config.mode ≠ .legacy := by simp [hmode]
  unfold embedTexts at hzip
  rw [if_neg hne] at hzip
  have htext : (p, x.2) ∈ a.payloads.zip (buildEmbedTexts a.order S a.payloads E.config).texts := by
    rw [← hturn]
    exact hzip
  rw [← Option.some.inj hobserved]
  -- The text that is embedded is that of the window.
  refine ⟨hmem, (c.sent p hp).1, ?_, fun _ _ => ⟨rfl, rfl, rfl, rfl, rfl, rfl, rfl⟩⟩
  rw [windowText_of_text hmode hS ha.payloads hwindow hp htext,
    embedding_observationOf hp (ha.indexVector p hp hmem)]
  rfl

/-- A turn of a batch is committed unless it is dropped. -/
theorem exists_observation (hp : p ∈ c.turns) (hmem : p ∈ a.payloads)
    (hmode : E.config.mode = .context)
    (hkept : shouldKeepPayload (S.storedContentState p.memoryId)
      (contentHash E.sha256 p.textualContent p.entityId p.memoryKind) = true) :
    ∃ item ∈ (batchOf E S a).observations, item.2.1 = p.memoryId := by
  have hlength : (embedTexts E S a).texts.length = a.payloads.length := by
    have hne : E.config.mode ≠ .legacy := by simp [hmode]
    unfold embedTexts
    rw [if_neg hne]
    unfold buildEmbedTexts
    split <;> simp
  obtain ⟨i, hi, hget⟩ := List.getElem_of_mem hmem
  have hi' : i < (embedTexts E S a).texts.length := by
    rw [hlength]
    exact hi
  have hlt : i < (a.payloads.zip (embedTexts E S a).texts).length := by
    rw [List.length_zip, hlength, Nat.min_self]
    exact hi
  have hzip : (p, (embedTexts E S a).texts[i]) ∈ a.payloads.zip (embedTexts E S a).texts := by
    have hpair : (a.payloads.zip (embedTexts E S a).texts)[i] = (p, (embedTexts E S a).texts[i]) := by
      rw [List.getElem_zip, hget]
    rw [← hpair]
    exact List.getElem_mem hlt
  exact ⟨_, List.mem_filterMap.mpr ⟨_, List.mem_filter.mpr ⟨hzip, hkept⟩,
    buildObservation_of_turn hp _⟩, rfl⟩

/-- What is committed comes from a payload. -/
theorem exists_payload (hitem : item ∈ (batchOf E S a).observations) :
    ∃ q ∈ a.payloads, item.2.1 = q.memoryId ∧ item.2.2.entityId = q.entityId ∧
      item.2.2.sessionId = q.sessionId.getD "" ∧ item.2.2.parentMemoryId = q.sourceMemoryId := by
  obtain ⟨x, hx, hobserved⟩ := List.mem_filterMap.mp hitem
  obtain ⟨hzip, -⟩ := List.mem_filter.mp hx
  refine ⟨x.1, (List.of_mem_zip hzip).1, ?_⟩
  unfold buildObservation at hobserved
  split at hobserved
  · exact absurd hobserved (by simp)
  · rw [← Option.some.inj hobserved]
    exact ⟨rfl, rfl, rfl, rfl⟩

/-- A turn of a batch that is not committed is stored. -/
theorem isSome_of_dropped (h : shouldKeepPayload (S.storedContentState p.memoryId)
    (contentHash E.sha256 p.textualContent p.entityId p.memoryKind) = false) :
    (S.memories.find? p.memoryId).isSome = true := by
  cases hfind : S.memories.find? p.memoryId with
  | some r => rfl
  | none =>
    unfold TenantStore.storedContentState at h
    rw [hfind] at h
    exact absurd h (by simp [shouldKeepPayload])

/-- Marks do not matter to the embeddings of turns. -/
theorem Windowed.of_marks {S' : TenantStore} (hw : c.Windowed E S)
    (hvectors : S'.vectorLookup = S.vectorLookup)
    (hmarks : S'.memories.rows.map unmarked = S.memories.rows.map unmarked) : c.Windowed E S' := by
  -- The marks are no part of what the conversation reads.
  have hstored : c.stored S' = c.stored S := by
    refine List.filter_congr fun p _ => ?_
    have hsome := congrArg Option.isSome (find?_unmarked hmarks p.memoryId)
    rw [Option.isSome_map, Option.isSome_map] at hsome
    exact hsome
  refine ⟨?_, fun r' hr' hread => ?_, fun p hp => ?_⟩
  · rw [hvectors]
    exact hw.anchored.of_marks hmarks
  · obtain ⟨r, hr, heq⟩ := List.mem_map.mp (hmarks ▸ List.mem_map_of_mem hr')
    rw [eq_of_unmarked heq.symm] at hread ⊢
    obtain ⟨p, hp, hrow⟩ := hw.rows r hr hread
    exact ⟨p, hp, hrow.memoryId, hrow.entityId, hrow.sessionId, hrow.turnIndex, hrow.role,
      hrow.content, hrow.parentMemoryId⟩
  · rw [hstored] at hp ⊢
    rw [← hw.embeddings p hp]
    unfold embeddingOf
    rw [hvectors]
    have hfind := find?_unmarked hmarks p.memoryId
    -- The stored code depends on the row only.
    have hbind : ∀ o : Option MemoryRow, (o.bind fun r =>
        storedCode (⟨id, 0⟩ : VectorConfig (List ℚ)) S.vectorLookup c.entityId r.rowid) =
          (o.map unmarked).bind fun r =>
            storedCode (⟨id, 0⟩ : VectorConfig (List ℚ)) S.vectorLookup c.entityId r.rowid := by
      intro o
      cases o <;> rfl
    rw [hbind, hfind, ← hbind]

section

variable {outcome : CommitOutcome} {S' : TenantStore}
  {s : AutoTable MemoryRow.memoryId MemoryRow.rowid × Table VectorRow.vectorId × List ℕ}
  {config : VectorConfig (List ℚ)} {r : MemoryRow}

/-- The neighbours at the row of a turn are the updates of the turn. -/
theorem update_of_neighbour
    (hwritten : Written config S.memories S.vectorLookup (batchOf E S a).observations s)
    (hr : r ∈ s.1.rows) (hid : r.memoryId = p.memoryId) {n : NeighbourVector}
    (hn : n ∈ neighbourVectors s.2.1 (batchOf E S a).neighbourEmbeddingUpdates)
    (hnid : n.vectorId = r.rowid) :
    ∃ text, (p.memoryId, text) ∈ (embedTexts E S a).neighbourUpdates ∧
      n.embedding = E.embed text := by
  obtain ⟨update, hupdate, hembedding, v, hv, hvid, hname⟩ := memoryId_neighbourVectors hn
  obtain ⟨x, hx, rfl⟩ := List.mem_map.mp hupdate
  obtain ⟨q, hq, hrowid, hqname, -⟩ := hwritten.anchored v hv
  have hsame : q = r := eq_of_rowid hq hr (hrowid.trans (hvid.trans hnid))
  refine ⟨x.2, ?_, hembedding⟩
  have hxid : p.memoryId = x.1 := by
    rw [← hid, ← hsame, hqname]
    exact hname
  rw [hxid]
  exact hx

/-- An update of a turn with a vector is a neighbour at its row. -/
theorem neighbour_of_update
    (hwritten : Written config S.memories S.vectorLookup (batchOf E S a).observations s)
    (hr : r ∈ s.1.rows) (hid : r.memoryId = p.memoryId) {v : VectorRow} (hv : v ∈ s.2.1.rows)
    (hvid : v.vectorId = r.rowid) {text : String}
    (h : (p.memoryId, text) ∈ (embedTexts E S a).neighbourUpdates) :
    (lastNeighbour (neighbourVectors s.2.1 (batchOf E S a).neighbourEmbeddingUpdates)
      r.rowid).isSome = true := by
  obtain ⟨q, hq, hrowid, hqname, -⟩ := hwritten.anchored v hv
  have hsame : q = r := eq_of_rowid hq hr (hrowid.trans hvid)
  have hname : v.memoryId = p.memoryId := by rw [← hqname, hsame, hid]
  have hupdate : (p.memoryId, E.embed text) ∈ (batchOf E S a).neighbourEmbeddingUpdates :=
    List.mem_map.mpr ⟨_, h, rfl⟩
  obtain ⟨n, hn, w, hw, hwid, hwname⟩ := exists_neighbourVectors hupdate hv hname
  obtain ⟨q', hq', hrowid', hqname', -⟩ := hwritten.anchored w hw
  have hsame' : q' = r := s.1.keyed.eq_of_mem hq' hr (hqname'.trans (hwname.trans hid.symm))
  refine List.find?_isSome.mpr ⟨n, List.mem_reverse.mpr hn, decide_eq_true ?_⟩
  rw [← hwid, ← hrowid', hsame']

/-- A turn is stored after its batch is written when it was, or comes with it. -/
theorem isSome_written {recordedAt : UInt64} (hmode : E.config.mode = .context)
    (hwindow : E.config.window.toNat < 2^31) (hS : c.Rows S) (ha : c.Brings a) (hp : p ∈ c.turns)
    (hwritten : Written config S.memories S.vectorLookup (batchOf E S a).observations s)
    (hrows : ∀ r ∈ s.1.rows, (∃ item, lastItem (batchOf E S a).observations r.memoryId = some item ∧
        r = memoryRow recordedAt item r.rowid) ∨
      (lastItem (batchOf E S a).observations r.memoryId = none ∧ r ∈ S.memories.rows)) :
    (s.1.find? p.memoryId).isSome =
      ((S.memories.find? p.memoryId).isSome || decide (p ∈ a.payloads)) := by
  rw [Bool.eq_iff_iff, Bool.or_eq_true, decide_eq_true_eq]
  constructor
  · intro h
    obtain ⟨r, hfind⟩ := Option.isSome_iff_exists.mp h
    obtain ⟨hr, hid⟩ := Table.find?_eq_some.mp hfind
    -- A row is there because the batch has written it or because it was there.
    rcases hrows r hr with ⟨item, hlast, -⟩ | ⟨-, hold⟩
    · obtain ⟨hitem, hname⟩ := mem_of_lastItem hlast
      exact .inr (observation_of_turn hmode hwindow hS ha hp hitem (hname.trans hid)).1
    · refine .inl ?_
      rw [Table.find?_eq_some.mpr ⟨hold, hid⟩]
      rfl
  · have hstored : (S.memories.find? p.memoryId).isSome = true →
        (s.1.find? p.memoryId).isSome = true := by
      intro h
      obtain ⟨r, hfind⟩ := Option.isSome_iff_exists.mp h
      obtain ⟨hr, hid⟩ := Table.find?_eq_some.mp hfind
      obtain ⟨r', hr', -, hid'⟩ := hwritten.kept r hr
      rw [Table.find?_eq_some.mpr ⟨hr', hid'.trans hid⟩]
      rfl
    rintro (h | hmem)
    · exact hstored h
    -- A payload of the batch is committed, or dropped since the store has it already.
    · cases hkept : shouldKeepPayload (S.storedContentState p.memoryId)
          (contentHash E.sha256 p.textualContent p.entityId p.memoryKind) with
      | false => exact hstored (isSome_of_dropped hkept)
      | true =>
        obtain ⟨item, hitem, hname⟩ := exists_observation hp hmem hmode hkept
        obtain ⟨i, hi, hget⟩ := List.getElem_of_mem hitem
        have hlt : i < ((batchOf E S a).observations.zip s.2.2).length := by
          rw [List.length_zip, ← hwritten.length, Nat.min_self]
          exact hi
        obtain ⟨r, hr, -, hid⟩ := hwritten.named _ (List.getElem_mem hlt)
        rw [List.getElem_zip, hget] at hid
        rw [Table.find?_eq_some.mpr ⟨hr, hid.trans hname⟩]
        rfl

/-- The window of a turn is the same without the turns that are not in it. -/
theorem windowText_stored
    (h : ∀ q ∈ c.turns, q ∈ payloads → (S.memories.find? q.memoryId).isSome = false →
      inWindow (turnOf p) E.config.window.toNat (turnOf q) = false) :
    windowText (lines (c.stored S)) (turnOf p) E.config.window.toNat =
      windowText (lines (c.arrived S payloads)) (turnOf p) E.config.window.toNat := by
  have hstored : ∀ q ∈ c.stored S, q ∈ c.turns := fun q hq => (List.mem_filter.mp hq).1
  have harrived : ∀ q ∈ c.arrived S payloads, q ∈ c.turns := fun q hq => (List.mem_filter.mp hq).1
  refine windowText_congr (turnOf_le p) fun k hk => Option.ext fun line => ?_
  rw [find?_lines hstored, find?_lines harrived]
  constructor
  · rintro ⟨q, hq, hturn, hline⟩
    obtain ⟨hqturn, hstored⟩ := List.mem_filter.mp hq
    exact ⟨q, List.mem_filter.mpr ⟨hqturn, by simp [hstored]⟩, hturn, hline⟩
  · rintro ⟨q, hq, hturn, hline⟩
    obtain ⟨hqturn, hcase⟩ := List.mem_filter.mp hq
    refine ⟨q, List.mem_filter.mpr ⟨hqturn, ?_⟩, hturn, hline⟩
    rcases Bool.or_eq_true_iff.mp hcase with hstored | hmem
    · exact hstored
    · by_contra hnew
      have hout := h q hqturn (of_decide_eq_true hmem) (Bool.eq_false_iff.mpr hnew)
      rw [hturn, hk] at hout
      exact absurd hout (by simp)

/-- A neighbour at the row of a turn has the embedding of the turn's window, and the turn is not of
the batch. -/
theorem embedding_neighbour (hmode : E.config.mode = .context)
    (hwindow : E.config.window.toNat < 2^31) (hS : c.Rows S) (ha : c.Brings a) (hp : p ∈ c.turns)
    (hwritten : Written config S.memories S.vectorLookup (batchOf E S a).observations s)
    (hr : r ∈ s.1.rows) (hid : r.memoryId = p.memoryId) {n : NeighbourVector}
    (hn : n ∈ neighbourVectors s.2.1 (batchOf E S a).neighbourEmbeddingUpdates)
    (hnid : n.vectorId = r.rowid) : p ∉ a.payloads ∧ some n.embedding =
      (windowText (lines (c.arrived S a.payloads)) (turnOf p) E.config.window.toNat).map
        E.embed := by
  have htexts : embedTexts E S a = buildEmbedTexts a.order S a.payloads E.config :=
    if_neg (by simp [hmode])
  obtain ⟨text, hupdate, hembedding⟩ := update_of_neighbour hwritten hr hid hn hnid
  rw [htexts] at hupdate
  obtain ⟨hbatch, htext⟩ := windowText_of_update hmode hS ha.payloads hwindow hp hupdate
  refine ⟨hbatch, ?_⟩
  rw [htext, hembedding]
  rfl

/-- The vector of a turn that the batch commits is that of its window. -/
theorem storedCode_committed (hmode : E.config.mode = .context)
    (hwindow : E.config.window.toNat < 2^31) (hembed : ∀ text, (E.embed text).isEmpty = false)
    (hS : c.Rows S) (ha : c.Brings a) (hp : p ∈ c.turns)
    (hwritten : Written (⟨id, 0⟩ : VectorConfig (List ℚ)) S.memories S.vectorLookup
      (batchOf E S a).observations s)
    (hr : r ∈ s.1.rows) (hid : r.memoryId = p.memoryId) {item : UInt64 × String × AgentObservation}
    (hlast : lastItem (batchOf E S a).observations r.memoryId = some item) :
    p ∈ a.payloads ∧
      storedCode (⟨id, 0⟩ : VectorConfig (List ℚ)) s.2.1 c.entityId r.rowid =
        (windowText (lines (c.arrived S a.payloads)) (turnOf p) E.config.window.toNat).map
          E.embed := by
  have hlastItem := hwritten.lastItem_eq hr
  have hwrite := hwritten.code c.entityId r.rowid
  obtain ⟨hitem, hname⟩ := mem_of_lastItem hlast
  obtain ⟨hmem, hentity, htext, -⟩ :=
    observation_of_turn hmode hwindow hS ha hp hitem (hname.trans hid)
  obtain ⟨text, -, hembedding⟩ := Option.map_eq_some_iff.mp htext
  rw [hlast] at hlastItem
  obtain ⟨x, hx, hxitem⟩ := Option.map_eq_some_iff.mp hlastItem.symm
  -- An embedding that is not empty has been written for the row.
  have hsome : x.1.2.2.embedding.isEmpty = false := by
    rw [hxitem, ← hembedding]
    exact hembed text
  -- It is the one of the last item with the identifier.
  rw [hx, Option.elim_some, if_pos ⟨hsome, by rw [hxitem]; exact hentity⟩] at hwrite
  refine ⟨hmem, ?_⟩
  rw [hwrite, htext, hxitem]
  rfl

/-- The vector of a stored turn that the batch does not commit is that of its window among the turns
that were stored. -/
theorem storedCode_kept (hw : c.Windowed E S) (hp : p ∈ c.turns)
    (hwritten : Written (⟨id, 0⟩ : VectorConfig (List ℚ)) S.memories S.vectorLookup
      (batchOf E S a).observations s)
    (hr : r ∈ s.1.rows) (hold : r ∈ S.memories.rows) (hid : r.memoryId = p.memoryId)
    (hlast : lastItem (batchOf E S a).observations r.memoryId = none) :
    ∃ text, windowText (lines (c.stored S)) (turnOf p) E.config.window.toNat = some text ∧
      storedCode (⟨id, 0⟩ : VectorConfig (List ℚ)) s.2.1 c.entityId r.rowid =
        some (E.embed text) := by
  have hlastItem := hwritten.lastItem_eq hr
  have hwrite := hwritten.code c.entityId r.rowid
  rw [hlast] at hlastItem
  rw [Option.map_eq_none_iff.mp hlastItem.symm, Option.elim_none] at hwrite
  have hfind : S.memories.find? p.memoryId = some r := Table.find?_eq_some.mpr ⟨hold, hid⟩
  have hstored : p ∈ c.stored S := List.mem_filter.mpr ⟨hp, by rw [hfind]; rfl⟩
  have hbefore := hw.embeddings p hstored
  unfold embeddingOf at hbefore
  rw [hfind, Option.bind_some, ← hwrite] at hbefore
  have hline : (windowText (lines (c.stored S)) (turnOf p) E.config.window.toNat).isSome = true :=
    isSome_windowText.trans (congrArg Option.isSome
      ((find?_lines fun q hq => (List.mem_filter.mp hq).1).mpr ⟨p, hstored, rfl, rfl⟩))
  obtain ⟨text, htext⟩ := Option.isSome_iff_exists.mp hline
  rw [htext] at hbefore
  exact ⟨text, htext, hbefore⟩

/-- If a stored turn is neither committed nor a neighbour, then no new turn of the batch is in its
window. -/
theorem inWindow_eq_false_of_quiet (hmode : E.config.mode = .context)
    (hwindow : E.config.window.toNat < 2^31) (hS : c.Rows S) (ha : c.Brings a)
    (hmissed : c.NoneMissed E S a) (hp : p ∈ c.turns)
    (hwritten : Written (⟨id, 0⟩ : VectorConfig (List ℚ)) S.memories S.vectorLookup
      (batchOf E S a).observations s)
    (hr : r ∈ s.1.rows) (hold : r ∈ S.memories.rows) (hid : r.memoryId = p.memoryId)
    (hlast : lastItem (batchOf E S a).observations r.memoryId = none)
    {vector : List ℚ} (hvector : storedCode (⟨id, 0⟩ : VectorConfig (List ℚ)) s.2.1 c.entityId
      r.rowid = some vector)
    (hquiet : lastNeighbour (neighbourVectors s.2.1
      (batchOf E S a).neighbourEmbeddingUpdates) r.rowid = none)
    {q : IngestPayload} (hq : q ∈ c.turns) (hqp : q ∈ a.payloads)
    (hnew : (S.memories.find? q.memoryId).isSome = false) :
    inWindow (turnOf p) E.config.window.toNat (turnOf q) = false := by
  have htexts : embedTexts E S a = buildEmbedTexts a.order S a.payloads E.config :=
    if_neg (by simp [hmode])
  have hfind : S.memories.find? p.memoryId = some r := Table.find?_eq_some.mpr ⟨hold, hid⟩
  by_cases hmem : p ∈ a.payloads
  · -- The turn is dropped, since it is not committed.
    cases hkept : shouldKeepPayload (S.storedContentState p.memoryId)
        (contentHash E.sha256 p.textualContent p.entityId p.memoryKind) with
    | false => exact hmissed p hp hmem hkept q hq hqp hnew
    | true =>
      obtain ⟨item, hitem, hname⟩ := exists_observation hp hmem hmode hkept
      exact absurd (hname.trans hid.symm) (lastItem_eq_none.mp hlast item hitem)
  · -- A new turn in the window would make the turn a neighbour.
    by_contra hin
    obtain ⟨text, hupdate⟩ := exists_update hmode hS ha.payloads hwindow hp
      (by rw [hfind]; rfl) hmem hq hqp (by simpa using hin)
    rw [← htexts] at hupdate
    obtain ⟨v, hv, hvid, -, -⟩ := storedCode_eq_some.mp hvector
    have hsome := neighbour_of_update hwritten hr hid hv hvid hupdate
    rw [hquiet] at hsome
    exact absurd hsome (by simp)

/-- The embedding of a turn after its batch is written. -/
theorem embedding_written {recordedAt : UInt64} {code : Option (List ℚ)}
    (hmode : E.config.mode = .context) (hwindow : E.config.window.toNat < 2^31)
    (hembed : ∀ text, (E.embed text).isEmpty = false) (hw : c.Windowed E S) (ha : c.Brings a)
    (hmissed : c.NoneMissed E S a) (hp : p ∈ c.turns)
    (hwritten : Written (⟨id, 0⟩ : VectorConfig (List ℚ)) S.memories S.vectorLookup
      (batchOf E S a).observations s)
    (hrows : ∀ r ∈ s.1.rows, (∃ item, lastItem (batchOf E S a).observations r.memoryId = some item ∧
        r = memoryRow recordedAt item r.rowid) ∨
      (lastItem (batchOf E S a).observations r.memoryId = none ∧ r ∈ S.memories.rows))
    (hr : r ∈ s.1.rows) (hid : r.memoryId = p.memoryId)
    (hcode : code = (storedCode (⟨id, 0⟩ : VectorConfig (List ℚ)) s.2.1 c.entityId r.rowid).map
      fun code => (lastNeighbour (neighbourVectors s.2.1
        (batchOf E S a).neighbourEmbeddingUpdates) r.rowid).elim code fun n => n.embedding) :
    code = (windowText (lines (c.arrived S a.payloads)) (turnOf p)
      E.config.window.toNat).map E.embed := by
  rcases hrows r hr with ⟨item, hlast, -⟩ | ⟨hlast, hold⟩
  · -- The batch commits the turn, which then is no neighbour.
    obtain ⟨hmem, hvector⟩ :=
      storedCode_committed hmode hwindow hembed hw.rows ha hp hwritten hr hid hlast
    have hnone : lastNeighbour (neighbourVectors s.2.1
        (batchOf E S a).neighbourEmbeddingUpdates) r.rowid = none := by
      refine List.find?_eq_none.mpr fun n hn hnid => ?_
      exact (embedding_neighbour hmode hwindow hw.rows ha hp hwritten hr hid
        (List.mem_reverse.mp hn) (of_decide_eq_true hnid)).1 hmem
    rw [hcode, hvector, hnone, Option.map_map]
    rfl
  · obtain ⟨text, htext, hvector⟩ := storedCode_kept hw hp hwritten hr hold hid hlast
    rw [hcode, hvector, Option.map_some]
    cases hneighbours : lastNeighbour (neighbourVectors s.2.1
        (batchOf E S a).neighbourEmbeddingUpdates) r.rowid with
    | some n =>
      have hnid := List.find?_some hneighbours
      have hn := List.mem_reverse.mp (List.mem_of_find?_eq_some hneighbours)
      exact (embedding_neighbour hmode hwindow hw.rows ha hp hwritten hr hid hn
        (of_decide_eq_true hnid)).2
    | none =>
      rw [← windowText_stored fun q hq hqp hnew => inWindow_eq_false_of_quiet hmode hwindow hw.rows
        ha hmissed hp hwritten hr hold hid hlast hvector hneighbours hq hqp hnew, htext]
      rfl

/-- A batch keeps every stored turn embedded with its window. -/
theorem Windowed.executeIngest (hmode : E.config.mode = .context)
    (hwindow : E.config.window.toNat < 2^31) (hembed : ∀ text, (E.embed text).isEmpty = false)
    (hw : c.Windowed E S) (ha : c.Brings a) (hmissed : c.NoneMissed E S a) :
    c.Windowed E (executeIngest E S a) := by
  unfold Tellodb.executeIngest
  cases hcommit : S.commitIngest E.cosineSimilarity a.order a.clock (batchOf E S a) with
  | error e => exact hw
  | ok result =>
    obtain ⟨S', outcome⟩ := result
    dsimp only
    obtain ⟨s, hwritten, hcode, -, hmarks, hrows⟩ := commitIngest_written
      (⟨id, 0⟩ : VectorConfig (List ℚ)) hw.anchored hcommit
    -- The store with the memories as they were written.
    have hT : c.Windowed E { S with memories := s.1, vectorLookup := S'.vectorLookup } := by
      have hstored : c.stored { S with memories := s.1, vectorLookup := S'.vectorLookup } =
          c.arrived S a.payloads := List.filter_congr fun p hp =>
        isSome_written hmode hwindow hw.rows ha hp hwritten hrows
      refine ⟨(hw.anchored.commitIngest hcommit).of_marks hmarks.symm, fun r hr hread => ?_,
        fun p hp => ?_⟩
      · rcases hrows r hr with ⟨item, hlast, hrow⟩ | ⟨-, hold⟩
        · obtain ⟨hitem, hname⟩ := mem_of_lastItem hlast
          have hturn : ∃ p ∈ c.turns, r.memoryId = p.memoryId := by
            rcases hread with hturn | ⟨hentity, hsession, hparent⟩
            · exact hturn
            · obtain ⟨q, hq, hqname, hqentity, hqsession, hqparent⟩ := exists_payload hitem
              rcases ha.payloads q hq with hturn | hapart
              · exact ⟨q, hturn, hname.symm.trans hqname⟩
              · rw [hrow] at hentity hsession hparent
                refine absurd ⟨hqentity.symm.trans hentity, ?_, ?_⟩ hapart.2
                · have hs : q.sessionId.getD "" = c.sessionId := hqsession.symm.trans hsession
                  cases hqs : q.sessionId with
                  | some session => rw [← hs, hqs]; rfl
                  | none =>
                    rw [hqs] at hs
                    have hne := c.sessionId_ne
                    rw [← hs] at hne
                    exact absurd hne (by decide)
                · rw [← hqparent, ← hqname]
                  exact hparent
          obtain ⟨p, hp, hpid⟩ := hturn
          refine ⟨p, hp, ?_⟩
          rw [hrow]
          exact (observation_of_turn hmode hwindow hw.rows ha hp hitem
            (hname.trans hpid)).2.2.2 _ _
        · exact hw.rows r hold hread
      · rw [hstored]
        obtain ⟨hpturn, hsome⟩ := List.mem_filter.mp hp
        obtain ⟨r, hfind⟩ := Option.isSome_iff_exists.mp hsome
        obtain ⟨hr, hid⟩ := Table.find?_eq_some.mp hfind
        unfold embeddingOf
        rw [hfind, Option.bind_some]
        exact embedding_written hmode hwindow hembed hw ha hmissed hpturn hwritten hrows hr hid
          (hcode c.entityId r.rowid)
    obtain ⟨docs, memories, hindexed, hmarks'⟩ := indexCommitted_inv a.order a.faults S' outcome
    rw [hindexed]
    exact hT.of_marks rfl (hmarks'.trans hmarks)

end

end

end

/-! ## Runs -/

/-- When every turn has arrived in batches that drop none next to a new turn, each has the embedding
of its window over all turns. -/
theorem windows_run (c : Conversation) (E : EmbedSettings) (hmode : E.config.mode = .context)
    (hwindow : E.config.window.toNat < 2^31) (hembed : ∀ text, (E.embed text).isEmpty = false)
    {arrivals : List Arrival}
    (hrun : EachStep (executeIngest E) (fun S a => c.Brings a ∧ c.NoneMissed E S a)
      TenantStore.empty arrivals) :
    let S := arrivals.foldl (executeIngest E) TenantStore.empty
    (∀ p ∈ c.turns, (S.memories.find? p.memoryId).isSome = true) →
      ∀ p ∈ c.turns, c.embeddingOf S p =
        (windowText (lines c.turns) (turnOf p) E.config.window.toNat).map E.embed := by
  intro S hall p hp
  have hfirst : c.Windowed E TenantStore.empty :=
    ⟨anchored_empty, fun r hr => absurd hr List.not_mem_nil, fun p hp =>
      absurd (List.mem_filter.mp hp).2 Bool.false_ne_true⟩
  have hw : c.Windowed E S :=
    hrun.invariant (fun _ _ hw ha => hw.executeIngest hmode hwindow hembed ha.1 ha.2) hfirst
  have hstored : c.stored S = c.turns := List.filter_eq_self.mpr hall
  rw [hw.embeddings p (hstored.symm ▸ hp), hstored]

end Conversation

/-! ## A turn that is sent again -/

/-- A turn of a session. -/
private def spoken (turn : UInt32) (text : String) : IngestPayload :=
  { IngestPayload.default with
    entityId := "alice"
    memoryId := "alice::s1::" ++ toString turn.toNat
    sessionId := some "s1"
    turnIndex := some turn
    role := some "user"
    textualContent := text }

/-- Two turns. -/
private def greeting : Conversation where
  entityId := "alice"
  sessionId := "s1"
  turns := [spoken 0 "hi", spoken 1 "hello"]
  sessionId_ne := by decide
  sent := by decide +kernel
  ids := by decide +kernel
  turnIndexes := by decide +kernel

/-- A window of one turn, and the length of a text as its embedding. -/
private def lengths : EmbedSettings where
  embed text := [text.length]
  sha256 := id
  cosineSimilarity _ _ := 0
  config := ⟨.context, 1⟩
  semanticDedup := true

/-- A request of some turns. -/
private def arrivalOf (payloads : List IngestPayload) : Arrival where
  payloads := payloads
  enriched := []
  admission := ⟨fun _ => none, fun _ => true, fun _ => false⟩
  order := .insertion
  clock := ⟨100, 100, 100⟩
  artifacts := {}
  faults := ⟨false, false⟩

/-- A turn comes alone, and again together with the next one. -/
theorem turn_resent :
    let S := [arrivalOf [spoken 0 "hi"], arrivalOf [spoken 0 "hi", spoken 1 "hello"]].foldl
      (executeIngest lengths) TenantStore.empty
    (∀ p ∈ greeting.turns, (S.memories.find? p.memoryId).isSome = true) ∧
      ¬ ∀ p ∈ greeting.turns, greeting.embeddingOf S p =
        (windowText (Conversation.lines greeting.turns) (Conversation.turnOf p)
          lengths.config.window.toNat).map lengths.embed := by
  decide +kernel

/-- The turns come one by one, the later one first, and both again when they are stored. -/
theorem turns_in_windows :
    let S := [arrivalOf [spoken 1 "hello"], arrivalOf [spoken 0 "hi"],
      arrivalOf [spoken 0 "hi", spoken 1 "hello"]].foldl (executeIngest lengths) TenantStore.empty
    ∀ p ∈ greeting.turns, greeting.embeddingOf S p =
      (windowText (Conversation.lines greeting.turns) (Conversation.turnOf p)
        lengths.config.window.toNat).map lengths.embed :=
  Conversation.windows_run greeting lengths rfl (by decide) (fun _ => rfl) (by decide +kernel)
    (by decide +kernel)

end Tellodb
