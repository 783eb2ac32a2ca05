import Tellodb.Api.Types
import Tellodb.Collections.SortedMap
import Tellodb.Storage.Tenant

/-!
# The text a memory is embedded with

`embed_text.rs`. In the mode `context` a turn is embedded with its neighbours in the session, read
from the stored turns and the batch, and stored turns next to the batch are to be embedded again.
Turn numbers are keys of sorted maps here; the sums on `u32` saturate as in the source, and twice
the window wraps around. -/

namespace Tellodb

open Relational Collections

/-- `EmbedTextMode` -/
inductive EmbedTextMode where
  | legacy
  | turn
  | context
  deriving DecidableEq

/-- `EmbedTextConfig` -/
structure EmbedTextConfig where
  mode : EmbedTextMode
  window : UInt32

/-- `u32::MAX` -/
def u32Max : ℕ := 2^32 - 1

/-- `is_source_turn`: a memory as it is sent, or its first chunk. -/
def isSourceTurn (payload : IngestPayload) : Bool :=
  payload.kind ≠ some "synthetic_query" &&
    payload.sourceMemoryId.all fun parent => payload.memoryId = parent ++ "::c0"

/-- `turn_line` -/
def turnLine (role text : String) : String :=
  let text := String.ofList (trim (contentForIndex text).toList)
  if role.isEmpty then text else role ++ ": " ++ text

/-- `payload_line` -/
def payloadLine (payload : IngestPayload) : String :=
  turnLine (payload.role.getD "") payload.textualContent

/-- A turn is in the window of another one. -/
def inWindow (center window turn : ℕ) : Bool :=
  center - window ≤ turn && turn ≤ min (center + window) u32Max

/-- `window_text` -/
def windowText (turns : SortedMap ℕ String) (center window : ℕ) : Option String :=
  (turns.find? center).map fun current =>
    let neighbours := ((turns.entries.filter fun entry => inWindow center window entry.1).filter
      fun entry => entry.1 ≠ center).map Prod.snd
    if neighbours.isEmpty then current
    else current ++ "\n[context] " ++ " | ".intercalate neighbours

/-- `session_turn_window` -/
def TenantStore.sessionTurnWindow (S : TenantStore) (entityId sessionId : String) (lo hi : ℕ) :
    List MemoryRow :=
  orderBy (fun r : MemoryRow => toLex (r.turnIndex.toNat, r.rowid)) (S.memories.rows.filter fun r =>
    r.entityId = entityId && r.sessionId = sessionId && lo ≤ r.turnIndex.toNat &&
      r.turnIndex.toNat ≤ hi && r.parentMemoryId.all fun parent => r.memoryId = parent ++ "::c0")

/-! ## Batches -/

/-- The session that a source turn of a batch is grouped under, with its turn. -/
def sessionTurn (payload : IngestPayload) : Option ((String × String) × ℕ) :=
  match payload.sessionId, payload.turnIndex with
  | some session, some turn =>
    if session.isEmpty || !isSourceTurn payload then none
    else some ((payload.entityId, session), turn.toNat)
  | _, _ => none

/-- The source turns of a batch in one session, each with its turn. -/
def membersOf (payloads : List IngestPayload) (group : String × String) :
    List (IngestPayload × ℕ) :=
  payloads.filterMap fun payload => ((sessionTurn payload).filter fun x => x.1 = group).map fun x =>
    (payload, x.2)

/-- `ContextTexts` -/
structure ContextTexts where
  /-- Embedding text per payload. -/
  texts : List String
  /-- Already-stored turns whose context window changed. -/
  neighbourUpdates : List (String × String)

/-- Lines entered under their turns one after the other. -/
def enterLines (lines : SortedMap ℕ String) (turns : List (ℕ × String)) : SortedMap ℕ String :=
  turns.foldl (fun lines turn => lines.insert turn.1 turn.2) lines

section

variable (S : TenantStore) (payloads : List IngestPayload) (window : UInt32)
  (group : String × String)

/-- The stored turns around those of a batch. -/
def storedTurns : List MemoryRow :=
  let turns := (membersOf payloads group).map Prod.snd
  S.sessionTurnWindow group.1 group.2 ((turns.min?.getD 0) - (2 * window).toNat)
    (min ((turns.max?.getD 0) + (2 * window).toNat) u32Max)

/-- The lines of a session: stored first so the batch's version wins. -/
def sessionLines : SortedMap ℕ String :=
  enterLines (enterLines (.empty ℕ String) ((storedTurns S payloads window group).map fun r =>
      (r.turnIndex.toNat, turnLine r.role r.content)))
    ((membersOf payloads group).map fun x => (x.2, payloadLine x.1))

/-- The stored turns of a session that now see a different window, with their new texts. -/
def groupUpdates : List (String × String) :=
  let batchTurns := (membersOf payloads group).map Prod.snd
  let storedIds := enterLines (.empty ℕ String) ((storedTurns S payloads window group).map fun r =>
    (r.turnIndex.toNat, r.memoryId))
  (storedIds.entries.filter fun stored => !batchTurns.contains stored.1 &&
    batchTurns.any fun turn => stored.1 - turn + (turn - stored.1) ≤ window.toNat).filterMap
      fun stored => (windowText (sessionLines S payloads window group) stored.1 window.toNat).map
        fun text => (stored.2, text)

end

/-- The text of a payload by itself. -/
def ownText (payload : IngestPayload) : String :=
  if isSourceTurn payload then payloadLine payload else payload.textualContent

/-- The text of a payload of a batch: a source turn of a session with its window. -/
def contextText (S : TenantStore) (payloads : List IngestPayload) (window : UInt32)
    (payload : IngestPayload) : String :=
  match sessionTurn payload with
  | some (group, turn) => (windowText (sessionLines S payloads window group) turn
      window.toNat).getD (ownText payload)
  | none => ownText payload

/-- `build_embed_texts` -/
def buildEmbedTexts (order : HashOrder) (S : TenantStore) (payloads : List IngestPayload)
    (config : EmbedTextConfig) : ContextTexts :=
  if config.mode ≠ .context || config.window = 0 then ⟨payloads.map ownText, []⟩
  else
    { texts := payloads.map (contextText S payloads config.window)
      neighbourUpdates := (order.iterate
        ((payloads.filterMap sessionTurn).map Prod.fst).dedup).flatMap
          (groupUpdates S payloads config.window) }

/-- The text of a turn with a window. -/
theorem contextText_of_sessionTurn {S : TenantStore} {payloads : List IngestPayload}
    {window : UInt32} {payload : IngestPayload} {group : String × String} {turn : ℕ}
    (h : sessionTurn payload = some (group, turn)) :
    contextText S payloads window payload = (windowText (sessionLines S payloads window group) turn
      window.toNat).getD (ownText payload) := by
  simp only [contextText, h]

/-! ## Windows -/

/-- The window of a turn depends on the turns in it only. -/
theorem windowText_congr {turns turns' : SortedMap ℕ String} {center window : ℕ}
    (hcenter : center ≤ u32Max)
    (h : ∀ turn, inWindow center window turn = true → turns.find? turn = turns'.find? turn) :
    windowText turns center window = windowText turns' center window := by
  have hself : inWindow center window center = true := by
    unfold inWindow
    simp [hcenter]
  unfold windowText
  rw [h center hself, SortedMap.filter_entries_congr h]

/-- Without a window a turn has its own line. -/
theorem windowText_zero {turns : SortedMap ℕ String} {center : ℕ} {line : String}
    (h : turns.find? center = some line) : windowText turns center 0 = some line := by
  have hnone : ((turns.entries.filter fun entry => inWindow center 0 entry.1).filter
      fun entry => entry.1 ≠ center) = [] := by
    refine List.filter_eq_nil_iff.mpr fun entry hentry hne => of_decide_eq_true hne ?_
    have hin := (List.mem_filter.mp hentry).2
    unfold inWindow at hin
    simp only [Bool.and_eq_true, decide_eq_true_eq] at hin
    omega
  unfold windowText
  rw [h, hnone]
  rfl

/-- A turn has a text when it has a line. -/
theorem isSome_windowText {turns : SortedMap ℕ String} {center window : ℕ} :
    (windowText turns center window).isSome = (turns.find? center).isSome := by
  unfold windowText
  rw [Option.isSome_map]

/-- What is found after lines are entered: the last line of the turn. -/
theorem find?_enterLines (lines : SortedMap ℕ String) (turns : List (ℕ × String)) (k : ℕ) :
    (enterLines lines turns).find? k =
      ((turns.reverse.find? fun turn => turn.1 = k).map Prod.snd).or (lines.find? k) := by
  induction turns using List.reverseRecOn with
  | nil => rfl
  | append_singleton turns turn ih =>
    unfold enterLines at ih ⊢
    rw [List.foldl_append, List.foldl_cons, List.foldl_nil, SortedMap.find?_insert,
      List.reverse_append, List.reverse_singleton, List.singleton_append, List.find?_cons]
    by_cases hturn : turn.1 = k
    · subst hturn
      simp
    · rw [Function.update_of_ne (Ne.symm hturn), ih]
      simp [hturn]

/-- What is found when the lines of each turn are the same. -/
theorem find?_enterLines_eq_some {lines : SortedMap ℕ String} {turns : List (ℕ × String)} {k : ℕ}
    {line : String} (hsame : ∀ a ∈ turns, ∀ b ∈ turns, a.1 = b.1 → a.2 = b.2) :
    (enterLines lines turns).find? k = some line ↔
      (k, line) ∈ turns ∨ ((∀ turn ∈ turns, turn.1 ≠ k) ∧ lines.find? k = some line) := by
  rw [find?_enterLines]
  -- The last line under the number counts, and lines under one number agree.
  cases hlast : turns.reverse.find? fun turn => turn.1 = k with
  | some turn =>
    have hturn := List.find?_some hlast
    have hmem := List.mem_reverse.mp (List.mem_of_find?_eq_some hlast)
    obtain rfl := of_decide_eq_true hturn
    rw [Option.map_some, Option.some_or, Option.some_inj]
    constructor
    · rintro rfl
      exact .inl hmem
    · rintro (hline | ⟨hnone, -⟩)
      · exact hsame _ hmem _ hline rfl
      · exact absurd rfl (hnone turn hmem)
  | none =>
    rw [Option.map_none, Option.none_or]
    have hnone : ∀ turn ∈ turns, turn.1 ≠ k := fun turn hturn heq =>
      List.find?_eq_none.mp hlast turn (List.mem_reverse.mpr hturn) (decide_eq_true heq)
    constructor
    · exact fun h => .inr ⟨hnone, h⟩
    · rintro (hline | ⟨-, h⟩)
      · exact absurd rfl (hnone _ hline)
      · exact h

end Tellodb
