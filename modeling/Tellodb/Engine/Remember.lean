import Tellodb.Api.Types
import Tellodb.Core.Identity
import Tellodb.Core.Text
import Tellodb.Index.Docs

/-!
# Memories without an identifier

`Memory::into_payload` of `db.rs` and the tool `remember` of `mcp_stdio.rs`. A memory that comes
without an identifier gets one from its entity, its session and its turn. A missing session is
replaced by a fresh one, but a missing turn by 0, and a turn that `remember` is given is reduced to
32 bits. So the second memory of a session without turns is written over the first
(`remembered_twice`). `sameId_iff` says which memories get the same identifier, and
`kept_iff` when no memory of a run is written over by one that only names its session. -/

namespace Tellodb

/-! ## The code -/

/-- A memory to store. -/
structure Memory where
  entityId : String
  text : String
  memoryId : Option String
  sessionId : Option String
  turnIndex : Option UInt32
  role : Option String
  timestampMs : Option UInt64
  kind : Option String
  deriving DecidableEq

/-- What `into_payload` reads besides the memory: the clock, and a random number. -/
structure Draw where
  now : UInt64
  random : BitVec 128
  deriving DecidableEq

/-- `{:032x}` -/
def hex32 (n : BitVec 128) : String :=
  let digits := Nat.toDigits 16 n.toNat
  String.ofList (List.replicate (32 - digits.length) '0' ++ digits)

/-- The session of a memory that names none. -/
def generatedSession (timestamp : UInt64) (random : BitVec 128) : String :=
  "mem-" ++ toString timestamp.toNat ++ "-" ++ hex32 random

/-- `Memory::into_payload` -/
def Memory.intoPayload (draw : Draw) (m : Memory) : IngestPayload :=
  let timestamp := m.timestampMs.getD draw.now
  let sessionId := m.sessionId.filter fun s => !s.isEmpty
  let memoryId := m.memoryId.getD
    (MemoryId.new m.entityId (sessionId.getD (generatedSession timestamp draw.random))
      (m.turnIndex.getD 0)).rendered
  { IngestPayload.default with
    entityId := m.entityId
    memoryId := memoryId
    timestamp := timestamp
    textualContent := m.text
    kind := m.kind
    sessionId := sessionId
    turnIndex := m.turnIndex
    role := m.role }

/-- The arguments of `remember`, each as far as it has the type that is asked for. -/
structure RememberArgs where
  text : Option String
  entityId : Option String
  sessionId : Option String
  turnIndex : Option UInt64
  role : Option String
  timestampMs : Option UInt64
  kind : Option String
  deriving DecidableEq

/-- Whether a text is more than whitespace. -/
def isPresent (text : String) : Bool :=
  !(trim text.toList).isEmpty

/-- `McpServer::entity` -/
def rememberEntity (defaultEntity : String) (args : RememberArgs) : String :=
  (args.entityId.filter isPresent).getD defaultEntity

/-- The memory that `remember` ingests. -/
def remember (defaultEntity : String) (args : RememberArgs) : Except String Memory :=
  match args.text.filter isPresent with
  | none => .error "`text` is required"
  | some text => .ok
    { entityId := rememberEntity defaultEntity args
      text := text
      memoryId := none
      sessionId := args.sessionId
      turnIndex := args.turnIndex.map UInt64.toUInt32
      role := args.role
      timestampMs := args.timestampMs
      kind := args.kind }

/-! ## Memories as they are sent -/

/-- What a client states about the place of a memory. -/
structure Given where
  entity : Option String
  session : Option String
  turn : Option ℕ
  deriving DecidableEq

/-- Two clients state the same entity, session and turn. -/
def Given.Same (a b : Given) : Prop :=
  (a.entity.isSome ∧ a.entity = b.entity) ∧ (a.session.isSome ∧ a.session = b.session) ∧
    a.turn.isSome ∧ a.turn = b.turn

/-- A memory on its way to the store, with what its client states. -/
structure Sent where
  given : Given
  memory : Memory
  draw : Draw
  deriving DecidableEq

namespace Sent

/-- The identifier of the payload. -/
def id (a : Sent) : String :=
  (a.memory.intoPayload a.draw).memoryId

/-- The entity of the payload. -/
def entity (a : Sent) : String :=
  (a.memory.intoPayload a.draw).entityId

/-- The session the identifier names. -/
def session (a : Sent) : String :=
  (a.memory.sessionId.filter fun s => !s.isEmpty).getD
    (generatedSession (a.memory.timestampMs.getD a.draw.now) a.draw.random)

end Sent

/-- A request that stores memories. -/
inductive EngineCall where
  | ingest (memories : List (Memory × Draw))
  | remember (defaultEntity : String) (args : RememberArgs) (draw : Draw)

/-- A memory of `Engine::ingest`. -/
def Memory.sent (m : Memory) (draw : Draw) : Sent where
  given := ⟨some m.entityId, m.sessionId.filter fun s => !s.isEmpty,
    m.turnIndex.map UInt32.toNat⟩
  memory := m
  draw := draw

/-- A memory of `remember`. -/
def RememberArgs.sent (defaultEntity : String) (args : RememberArgs) (draw : Draw) : List Sent :=
  (remember defaultEntity args).toOption.toList.map fun m =>
    { given := ⟨args.entityId.filter isPresent, args.sessionId.filter fun s => !s.isEmpty,
        args.turnIndex.map UInt64.toNat⟩
      memory := m
      draw := draw }

/-- The memories of a request. -/
def EngineCall.sent : EngineCall → List Sent
  | .ingest memories => memories.map fun m => m.1.sent m.2
  | .remember defaultEntity args draw => args.sent defaultEntity draw

/-- A generated session is the session of no other memory. -/
def FreshSessions (sents : List Sent) : Prop :=
  sents.Pairwise fun a b => (a.given.session = none ∨ b.given.session = none) →
    a.session ≠ b.session

/-- Two memories of one session whose places fall together, although they are not both stated, or
not stated alike: the turn of one is missing, or their turns are equal in the last 32 bits only, or
one leaves its entity to the server. -/
def Sent.Clash (a b : Sent) : Prop :=
  (a.given.session.isSome ∧ a.given.session = b.given.session) ∧ a.entity = b.entity ∧
    a.given.turn.getD 0 % 2 ^ 32 = b.given.turn.getD 0 % 2 ^ 32 ∧
      (a.given.turn = none ∨ b.given.turn = none ∨ a.given.turn ≠ b.given.turn ∨
        a.given.entity = none ∨ b.given.entity = none)

/-! ## Identifiers -/

/-- A component is read from its escaped text. -/
theorem escapeComponent_injective {a b : String}
    (h : (escapeComponent a).toList = (escapeComponent b).toList) : a = b := by
  have ha := decodeComponent_escapeComponent a
  rw [h, decodeComponent_escapeComponent b] at ha
  exact (Except.ok.inj ha).symm

/-- The text of a structured identifier is that of a place and its tags in one way. -/
theorem ofTags_rendered_inj {entity entity' session session' : String} {turn turn' : UInt32}
    {tags tags' : List Tag} (h : (MemoryId.ofTags entity session turn tags).rendered =
      (MemoryId.ofTags entity' session' turn' tags').rendered) :
    (entity = entity' ∧ session = session' ∧ turn = turn') ∧ tags.length = tags'.length := by
  obtain ⟨-, -, -, -, -, -, hparts⟩ := ofTags_parts entity session turn tags
  obtain ⟨-, -, -, -, -, -, hparts'⟩ := ofTags_parts entity' session' turn' tags'
  rw [h, hparts'] at hparts
  obtain ⟨hentity, hrest⟩ := List.cons.inj hparts
  obtain ⟨hsession, hrest⟩ := List.cons.inj hrest
  obtain ⟨hturn, htags⟩ := List.cons.inj hrest
  have hnumber := parseU32_toString turn
  rw [← hturn, parseU32_toString turn'] at hnumber
  refine ⟨⟨(escapeComponent_injective hentity).symm, (escapeComponent_injective hsession).symm,
    (Option.some.inj hnumber).symm⟩, ?_⟩
  simpa using (congrArg List.length htags).symm

/-- The identifier of a memory that comes without one. -/
theorem Sent.id_eq {a : Sent} (ha : a.memory.memoryId = none) :
    a.id = (MemoryId.ofTags a.entity a.session (a.memory.turnIndex.getD 0) []).rendered := by
  unfold Sent.id Memory.intoPayload
  rw [ha]
  rfl

/-- What a request sends is what its client states, with the turn in 32 bits. -/
theorem mem_sent {call : EngineCall} {a : Sent} (ha : a ∈ call.sent) :
    (∀ entity, a.given.entity = some entity → a.entity = entity) ∧
      a.given.session = a.memory.sessionId.filter (fun s => !s.isEmpty) ∧
      (a.memory.turnIndex.getD 0).toNat = a.given.turn.getD 0 % 2 ^ 32 := by
  -- The ingest sends the memories as they are, and the command line fills in what is missing.
  cases call with
  | ingest memories =>
    obtain ⟨m, -, rfl⟩ := List.mem_map.mp ha
    refine ⟨fun entity hentity => Option.some.inj hentity, rfl, ?_⟩
    show (m.1.turnIndex.getD 0).toNat = (m.1.turnIndex.map UInt32.toNat).getD 0 % 2 ^ 32
    cases m.1.turnIndex with
    | none => rfl
    | some turn => exact (Nat.mod_eq_of_lt turn.toNat_lt).symm
  | remember defaultEntity args draw =>
    obtain ⟨m, hm, rfl⟩ := List.mem_map.mp ha
    have hok : remember defaultEntity args = .ok m := by
      cases hremember : remember defaultEntity args with
      | error e => simp [hremember, Except.toOption] at hm
      | ok m' =>
        rw [hremember] at hm
        rw [List.mem_singleton.mp hm]
    unfold remember at hok
    split at hok
    · exact absurd hok (by simp)
    · rw [← Except.ok.inj hok]
      refine ⟨fun entity hentity => ?_, rfl, ?_⟩
      · show (args.entityId.filter isPresent).getD defaultEntity = entity
        change args.entityId.filter isPresent = some entity at hentity
        rw [hentity]
        rfl
      show ((args.turnIndex.map UInt64.toUInt32).getD 0).toNat =
        (args.turnIndex.map UInt64.toNat).getD 0 % 2 ^ 32
      cases args.turnIndex with
      | none => rfl
      | some turn => exact UInt64.toNat_toUInt32 turn

section

variable {a b : Sent} {call call' : EngineCall}

/-- Two memories get one identifier when they name one session, and have one entity and one turn
in the end. -/
theorem sameId_iff (ha : a ∈ call.sent) (hb : b ∈ call'.sent) (hnone : a.memory.memoryId = none)
    (hnone' : b.memory.memoryId = none)
    (hfresh : a.given.session = none ∨ b.given.session = none → a.session ≠ b.session) :
    a.id = b.id ↔ (a.given.session.isSome ∧ a.given.session = b.given.session) ∧
      a.entity = b.entity ∧
        a.given.turn.getD 0 % 2 ^ 32 = b.given.turn.getD 0 % 2 ^ 32 := by
  obtain ⟨-, hsession, hturn⟩ := mem_sent ha
  obtain ⟨-, hsession', hturn'⟩ := mem_sent hb
  rw [Sent.id_eq hnone, Sent.id_eq hnone', ← hturn, ← hturn']
  constructor
  · intro h
    obtain ⟨⟨hentity, hsame, hnumber⟩, -⟩ := ofTags_rendered_inj h
    refine ⟨?_, hentity, congrArg UInt32.toNat hnumber⟩
    -- A fresh session is not the one that another call names.
    cases hnamed : a.given.session with
    | none => exact absurd hsame (hfresh (.inl hnamed))
    | some s =>
      cases hnamed' : b.given.session with
      | none => exact absurd hsame (hfresh (.inr hnamed'))
      | some s' =>
        unfold Sent.session at hsame
        rw [← hsession, ← hsession', hnamed, hnamed'] at hsame
        exact ⟨rfl, congrArg some hsame⟩
  · rintro ⟨⟨hsome, hnamed⟩, hentity, hnumber⟩
    obtain ⟨s, hs⟩ := Option.isSome_iff_exists.mp hsome
    have hsame : a.session = b.session := by
      unfold Sent.session
      rw [← hsession, ← hsession', ← hnamed, hs]
      rfl
    rw [hentity, hsame, UInt32.toNat_inj.mp hnumber]

/-- Two memories clash when they get one identifier without being stated to be the same. -/
theorem clash_iff (ha : a ∈ call.sent) (hb : b ∈ call'.sent) (hnone : a.memory.memoryId = none)
    (hnone' : b.memory.memoryId = none)
    (hfresh : a.given.session = none ∨ b.given.session = none → a.session ≠ b.session) :
    a.Clash b ↔ a.id = b.id ∧ ¬ a.given.Same b.given := by
  rw [sameId_iff ha hb hnone hnone' hfresh]
  unfold Sent.Clash Given.Same
  constructor
  · rintro ⟨hsession, hentity, hturn, hkind⟩
    refine ⟨⟨hsession, hentity, hturn⟩, ?_⟩
    rintro ⟨⟨hgiven, hgivenEq⟩, -, hnumber, hnumberEq⟩
    -- The kinds of a clash, each of which makes the two calls differ.
    rcases hkind with h | h | h | h | h
    · simp [h] at hnumber
    · simp [hnumberEq, h] at hnumber
    · exact h hnumberEq
    · simp [h] at hgiven
    · simp [hgivenEq, h] at hgiven
  · rintro ⟨⟨hsession, hentity, hturn⟩, hdiffer⟩
    refine ⟨hsession, hentity, hturn, ?_⟩
    -- If none of them holds, both name the session, the entity and the turn.
    by_contra hkind
    push Not at hkind
    obtain ⟨hturnA, -, hturnEq, hentityA, hentityB⟩ := hkind
    obtain ⟨e, he⟩ := Option.ne_none_iff_exists'.mp hentityA
    obtain ⟨e', he'⟩ := Option.ne_none_iff_exists'.mp hentityB
    have hgiven : e = e' := by
      rw [← (mem_sent ha).1 e he, ← (mem_sent hb).1 e' he', hentity]
    refine hdiffer ⟨⟨by simp [he], by rw [he, he', hgiven]⟩, hsession, ?_, hturnEq⟩
    exact Option.isSome_iff_ne_none.mpr hturnA

end

/-! ## Runs -/

section

variable {cosineSimilarity : List ℚ → List ℚ → ℚ} {order : HashOrder} {clock : IngestClock}

/-- The records of a batch are those of the memories of a request, and what is derived from
them. -/
def BatchOf (sents : List Sent) (b : IngestBatches) : Prop :=
  ∀ item ∈ b.observations, ∃ a ∈ sents, ∃ tags, item.2.1 =
    (MemoryId.ofTags a.entity a.session (a.memory.turnIndex.getD 0) tags).rendered

/-- No memory of a run is written over by another one, unless it is stated to be the same. -/
structure KeepsApart (calls : List EngineCall) : Prop where
  /-- Only such memories get the same identifier. -/
  ids : (calls.flatMap EngineCall.sent).Pairwise fun a b => a.id = b.id → a.given.Same b.given
  /-- A stored memory keeps its text when a later request is committed. -/
  texts : ∀ before call after, calls = before ++ call :: after →
    ∀ a ∈ before.flatMap EngineCall.sent, (∀ c ∈ call.sent, ¬ a.given.Same c.given) →
    ∀ (cosineSimilarity : List ℚ → List ℚ → ℚ) (order : HashOrder) (clock : IngestClock)
      (S S' : TenantStore) (b : IngestBatches) (outcome : CommitOutcome), BatchOf call.sent b →
      S.commitIngest cosineSimilarity order clock b = .ok (S', outcome) →
      ∀ r' ∈ S'.memories.rows, r'.memoryId = a.id →
        ∃ r ∈ S.memories.rows, r.memoryId = r'.memoryId ∧ r.content = r'.content

/-- A commit writes over no memory that has an identifier of its own. -/
theorem content_commitIngest {sents : List Sent} {a : Sent} {S S' : TenantStore}
    {b : IngestBatches} {outcome : CommitOutcome}
    (hnone : ∀ c ∈ sents, c.memory.memoryId = none) (ha : a.memory.memoryId = none)
    (hids : ∀ c ∈ sents, a.id ≠ c.id) (hbatch : BatchOf sents b)
    (h : S.commitIngest cosineSimilarity order clock b = .ok (S', outcome)) {r' : MemoryRow}
    (hr' : r' ∈ S'.memories.rows) (hid : r'.memoryId = a.id) :
    ∃ r ∈ S.memories.rows, r.memoryId = r'.memoryId ∧ r.content = r'.content := by
  rcases mem_memories_commitIngest h hr' with ⟨item, hlast, -⟩ | ⟨-, r, hr, heq⟩
  · -- A record derived from a memory has more parts than `a`.
    obtain ⟨hitem, hname⟩ := mem_of_lastItem hlast
    obtain ⟨c, hc, tags, htext⟩ := hbatch item hitem
    rw [hname, hid, Sent.id_eq ha] at htext
    obtain ⟨hplace, htags⟩ := ofTags_rendered_inj htext
    refine absurd ?_ (hids c hc)
    rw [Sent.id_eq ha, Sent.id_eq (hnone c hc), htext]
    rw [List.eq_nil_of_length_eq_zero htags.symm]
  · refine ⟨r, hr, ?_⟩
    rw [heq]
    split <;> exact ⟨rfl, rfl⟩

/-- No memory of a run is written over by one that only names its session if and only if no two of
them clash. -/
theorem keepsApart_iff {calls : List EngineCall}
    (hnone : ∀ a ∈ calls.flatMap EngineCall.sent, a.memory.memoryId = none)
    (hfresh : FreshSessions (calls.flatMap EngineCall.sent)) :
    KeepsApart calls ↔ (calls.flatMap EngineCall.sent).Pairwise fun a b => ¬ a.Clash b := by
  have hiff : ∀ a ∈ calls.flatMap EngineCall.sent, ∀ b ∈ calls.flatMap EngineCall.sent,
      ((a.given.session = none ∨ b.given.session = none) → a.session ≠ b.session) →
        ((a.id = b.id → a.given.Same b.given) ↔ ¬ a.Clash b) := by
    intro a ha b hb hsession
    obtain ⟨call, -, hcall⟩ := List.mem_flatMap.mp ha
    obtain ⟨call', -, hcall'⟩ := List.mem_flatMap.mp hb
    rw [clash_iff hcall hcall' (hnone a ha) (hnone b hb) hsession, not_and_not_right]
  constructor
  · intro h
    exact (hfresh.and h.ids).imp_of_mem fun ha hb h => (hiff _ ha _ hb h.1).mp h.2
  · intro h
    have hids := (hfresh.and h).imp_of_mem fun ha hb h => (hiff _ ha _ hb h.1).mpr h.2
    refine ⟨hids, ?_⟩
    intro before call after hsplit a ha hdiffer cosineSimilarity order clock S S' b outcome hbatch
      hcommit r' hr' hid
    rw [hsplit, List.flatMap_append, List.flatMap_cons] at hnone hids
    have hmem : ∀ c ∈ call.sent, c.memory.memoryId = none := fun c hc =>
      hnone c (List.mem_append_right _ (List.mem_append_left _ hc))
    refine content_commitIngest hmem (hnone a (List.mem_append_left _ ha)) ?_ hbatch hcommit hr' hid
    intro c hc hsame
    exact hdiffer c hc ((List.pairwise_append.mp hids).2.2 a ha c (List.mem_append_left _ hc) hsame)

end

instance (a b : Sent) : Decidable (a.Clash b) := by
  unfold Sent.Clash
  infer_instance

instance (sents : List Sent) : Decidable (FreshSessions sents) := by
  unfold FreshSessions
  infer_instance

/-- A call of `remember` for a session of the default entity. -/
def rememberTurn (text : String) (turnIndex : Option UInt64) (random : BitVec 128) : EngineCall :=
  .remember "alice" ⟨some text, none, some "chat-1", turnIndex, none, some 1, none⟩ ⟨0, random⟩

/-- Two turns of a session that are ingested with their places. -/
theorem turns_apart :
    KeepsApart [.ingest [(⟨"alice", "I moved to Denver.", none, some "chat-1", some 0, none, some 1,
        none⟩, ⟨0, 1⟩)],
      .ingest [(⟨"alice", "I work at Acme.", none, some "chat-1", some 1, none, some 2, none⟩,
        ⟨0, 2⟩)]] :=
  (keepsApart_iff (by decide +kernel) (by decide +kernel)).mpr (by decide +kernel)

/-- Two things remembered in one session without turns: the second is written over the first. -/
theorem remembered_twice :
    ¬ ∀ calls : List EngineCall, (∀ a ∈ calls.flatMap EngineCall.sent, a.memory.memoryId = none) →
      FreshSessions (calls.flatMap EngineCall.sent) → KeepsApart calls := by
  intro hclaim
  have hkeeps := hclaim
    [rememberTurn "I moved to Denver." none 1, rememberTurn "I work at Acme." none 2]
    (by decide +kernel) (by decide +kernel)
  rw [keepsApart_iff (by decide +kernel) (by decide +kernel)] at hkeeps
  exact absurd hkeeps (by decide +kernel)

end Tellodb
