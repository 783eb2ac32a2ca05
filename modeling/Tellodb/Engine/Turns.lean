import Tellodb.Engine.Remember
import Mathlib.Data.List.Induction
import Mathlib.Data.UInt
import Mathlib.Logic.Function.Basic

/-!
# Missing turns

`assign_missing_turn_indices` of `main.rs`: in one pass, each memory of a session without a turn
gets the next one, where turns that are given before it count. A turn that is given behind it may be
the same, and behind the last turn there is none, so the turns of a session are distinct under the
condition of `assignMissingTurnIndices_iff` only. -/

namespace Tellodb

/-! ## The code -/

/-- `saturating_add(1)` -/
def saturatingSucc (turn : UInt32) : UInt32 :=
  if turn = 4294967295 then turn else turn + 1

/-- What becomes of the next turn of a session at one of its memories. -/
def nextTurn (next : UInt32) (turn : Option UInt32) : UInt32 :=
  turn.elim (saturatingSucc next) fun given => max next (saturatingSucc given)

/-- The loop of `assign_missing_turn_indices`. -/
def assignFrom (defaultSession : Option String) : (String → UInt32) → List Memory → List Memory
  | _, [] => []
  | next, memory :: rest =>
    match memory.sessionId.or defaultSession with
    | none => memory :: assignFrom defaultSession next rest
    | some session =>
      { memory with
        sessionId := some session
        turnIndex := some (memory.turnIndex.getD (next session)) } ::
      assignFrom defaultSession
        (Function.update next session (nextTurn (next session) memory.turnIndex)) rest

/-- `assign_missing_turn_indices` -/
def assignMissingTurnIndices (memories : List Memory) (defaultSession : Option String) :
    List Memory :=
  assignFrom defaultSession (fun _ => 0) memories

/-! ## One session -/

/-- The turns of the memories of a session. -/
def sessionTurns (defaultSession : Option String) (session : String) (memories : List Memory) :
    List (Option UInt32) :=
  (memories.filter fun memory => memory.sessionId.or defaultSession = some session).map
    Memory.turnIndex

/-- The turns of one session, with the missing ones filled in. -/
def assignTurns : UInt32 → List (Option UInt32) → List UInt32
  | _, [] => []
  | next, turn :: rest => turn.getD next :: assignTurns (nextTurn next turn) rest

/-- A memory of the session adds its turn. -/
theorem sessionTurns_cons_of_eq {defaultSession : Option String} {session : String}
    {memory : Memory} (rest : List Memory) (h : memory.sessionId.or defaultSession = some session) :
    sessionTurns defaultSession session (memory :: rest) =
      memory.turnIndex :: sessionTurns defaultSession session rest := by
  unfold sessionTurns
  rw [List.filter_cons_of_pos (by simp [h]), List.map_cons]

/-- A memory of another session adds none. -/
theorem sessionTurns_cons_of_ne {defaultSession : Option String} {session : String}
    {memory : Memory} (rest : List Memory) (h : memory.sessionId.or defaultSession ≠ some session) :
    sessionTurns defaultSession session (memory :: rest) =
      sessionTurns defaultSession session rest := by
  unfold sessionTurns
  rw [List.filter_cons_of_neg (by simp [h])]

/-- Each session has its own turns. -/
theorem sessionTurns_assignFrom (defaultSession : Option String) (session : String)
    (next : String → UInt32) (memories : List Memory) :
    sessionTurns none session (assignFrom defaultSession next memories) =
      (assignTurns (next session) (sessionTurns defaultSession session memories)).map some := by
  induction memories generalizing next with
  | nil => rfl
  | cons memory rest ih =>
    rw [assignFrom]
    cases hsession : memory.sessionId.or defaultSession with
    | none =>
      obtain ⟨hmissing, -⟩ := Option.or_eq_none_iff.mp hsession
      rw [sessionTurns_cons_of_ne _ (by simp [hmissing]),
        sessionTurns_cons_of_ne _ (by simp [hsession])]
      exact ih next
    | some other =>
      by_cases heq : other = session
      · subst heq
        rw [sessionTurns_cons_of_eq _ rfl, sessionTurns_cons_of_eq _ hsession, assignTurns,
          List.map_cons, ih, Function.update_self]
      · rw [sessionTurns_cons_of_ne _ (by simpa using heq),
          sessionTurns_cons_of_ne _ (by simpa [hsession] using heq), ih,
          Function.update_of_ne (Ne.symm heq)]

/-- Only sessions and turns that are missing are filled in. -/
theorem assignFrom_keeps (defaultSession : Option String) (next : String → UInt32)
    (memories : List Memory) : List.Forall₂ (fun memory assigned =>
      (∀ given, memory.turnIndex = some given → assigned.turnIndex = some given) ∧
        assigned = { memory with
          sessionId := memory.sessionId.or defaultSession
          turnIndex := assigned.turnIndex })
      memories (assignFrom defaultSession next memories) := by
  induction memories generalizing next with
  | nil => exact .nil
  | cons memory rest ih =>
    rw [assignFrom]
    cases hsession : memory.sessionId.or defaultSession with
    | none =>
      obtain ⟨hmissing, -⟩ := Option.or_eq_none_iff.mp hsession
      refine .cons ⟨fun _ h => h, ?_⟩ (ih next)
      rw [hsession, ← hmissing]
    | some session =>
      refine .cons ⟨fun given h => by simp [h], ?_⟩ (ih _)
      rw [hsession]

/-! ## The next turn -/

/-- The turn after the turns of a session: every turn leads to the one after it and the missing ones
behind it, a missing one counting as zero, and the largest is taken. -/
def freeTurn : List (Option UInt32) → ℕ
  | [] => 0
  | turn :: rest => max ((turn.getD 0).toNat + 1 + rest.count none) (freeTurn rest)

/-- A memory without a turn takes the next one that is free. -/
theorem freeTurn_concat_none (turns : List (Option UInt32)) :
    freeTurn (turns ++ [none]) = freeTurn turns + 1 := by
  induction turns with
  | nil => rfl
  | cons turn rest ih =>
    rw [List.cons_append, freeTurn, freeTurn, ih, List.count_append, List.count_singleton_self]
    omega

/-- One with a turn takes all up to it. -/
theorem freeTurn_concat_some (turns : List (Option UInt32)) (given : UInt32) :
    freeTurn (turns ++ [some given]) = max (freeTurn turns) (given.toNat + 1) := by
  induction turns with
  | nil => simp [freeTurn]
  | cons turn rest ih =>
    have hcount : [some given].count (none : Option UInt32) = 0 := by simp
    rw [List.cons_append, freeTurn, freeTurn, ih, List.count_append, hcount]
    omega

/-- The next number, up to the largest one. -/
theorem toNat_saturatingSucc (turn : UInt32) :
    (saturatingSucc turn).toNat = min (turn.toNat + 1) 4294967295 := by
  have hlt := turn.toNat_lt
  unfold saturatingSucc
  split
  · rename_i heq
    rw [heq]
    rfl
  · rename_i hne
    have hnat : turn.toNat ≠ 4294967295 := fun h => hne (UInt32.toNat_inj.mp h)
    have hone : (1 : UInt32).toNat = 1 := rfl
    rw [UInt32.toNat_add, hone]
    omega

/-- The larger of two numbers. -/
theorem toNat_max (a b : UInt32) : (max a b).toNat = max a.toNat b.toNat := by
  change (if a ≤ b then b else a).toNat = _
  by_cases hle : a ≤ b
  · rw [if_pos hle, Nat.max_eq_right (UInt32.le_iff_toNat_le.mp hle)]
  · have hnat : b.toNat ≤ a.toNat := by
      have := mt UInt32.le_iff_toNat_le.mpr hle
      omega
    rw [if_neg hle, Nat.max_eq_left hnat]

/-- The counter of a session is the turn after its turns, as far as there is one. -/
theorem toNat_foldl_nextTurn (turns : List (Option UInt32)) :
    (turns.foldl nextTurn 0).toNat = min (freeTurn turns) 4294967295 := by
  induction turns using List.reverseRecOn with
  | nil => rfl
  | append_singleton turns turn ih =>
    rw [List.foldl_append, List.foldl_cons, List.foldl_nil]
    cases turn with
    | none =>
      have hnext : nextTurn (turns.foldl nextTurn 0) none =
          saturatingSucc (turns.foldl nextTurn 0) := rfl
      rw [hnext, toNat_saturatingSucc, ih, freeTurn_concat_none]
      omega
    | some given =>
      have hlt := given.toNat_lt
      have hnext : nextTurn (turns.foldl nextTurn 0) (some given) =
          max (turns.foldl nextTurn 0) (saturatingSucc given) := rfl
      rw [hnext, toNat_max, toNat_saturatingSucc, ih, freeTurn_concat_some]
      omega

/-- One more memory gets the turn that is next then, unless it has one. -/
theorem assignTurns_concat (next : UInt32) (turns : List (Option UInt32)) (turn : Option UInt32) :
    assignTurns next (turns ++ [turn]) =
      assignTurns next turns ++ [turn.getD (turns.foldl nextTurn next)] := by
  induction turns generalizing next with
  | nil => rfl
  | cons first rest ih =>
    rw [List.cons_append, assignTurns, assignTurns, ih]
    rfl

/-! ## Distinct turns -/

/-- A turn is given or that of a missing one. -/
theorem mem_assignTurns {turns : List (Option UInt32)} {turn : UInt32} :
    turn ∈ assignTurns 0 turns ↔ some turn ∈ turns ∨ ∃ before after,
      turns = before ++ none :: after ∧ turn.toNat = min (freeTurn before) 4294967295 := by
  induction turns using List.reverseRecOn with
  | nil => simp [assignTurns]
  | append_singleton turns last ih =>
    rw [assignTurns_concat, List.mem_append, List.mem_append, ih, List.mem_singleton,
      List.mem_singleton]
    constructor
    -- What is assigned is a given turn, or the next free one where none is given.
    · rintro ((hgiven | ⟨before, after, rfl, hturn⟩) | hlast)
      · exact .inl (.inl hgiven)
      · exact .inr ⟨before, after ++ [last], by simp, hturn⟩
      · cases last with
        | some given => exact .inl (.inr (congrArg some hlast))
        | none =>
          refine .inr ⟨turns, [], rfl, ?_⟩
          rw [hlast]
          exact toNat_foldl_nextTurn turns
    · rintro ((hgiven | hlast) | ⟨before, after, heq, hturn⟩)
      · exact .inl (.inl hgiven)
      · rw [← hlast]
        exact .inr rfl
      · rcases List.eq_nil_or_concat after with rfl | ⟨after, other, rfl⟩
        · obtain ⟨rfl, hnone⟩ := List.append_inj' heq rfl
          obtain rfl : last = none := (List.cons.inj hnone).1
          refine .inr (UInt32.toNat_inj.mp ?_)
          rw [hturn]
          exact (toNat_foldl_nextTurn turns).symm
        · rw [List.concat_eq_append, ← List.cons_append, ← List.append_assoc] at heq
          exact .inl (.inr ⟨before, after, (List.append_inj' heq rfl).1, hturn⟩)

/-- Every turn is before the one after all of them. -/
theorem lt_freeTurn {turns : List (Option UInt32)} {turn : UInt32}
    (h : turn ∈ assignTurns 0 turns) : turn.toNat < freeTurn turns := by
  induction turns using List.reverseRecOn with
  | nil => exact absurd h List.not_mem_nil
  | append_singleton turns last ih =>
    rw [assignTurns_concat] at h
    rcases List.mem_append.mp h with hmem | hlast
    · have hless := ih hmem
      cases last with
      | none => rw [freeTurn_concat_none]; omega
      | some given => rw [freeTurn_concat_some]; omega
    · rw [List.mem_singleton.mp hlast]
      cases last with
      | none =>
        rw [freeTurn_concat_none, Option.getD_none, toNat_foldl_nextTurn]
        omega
      | some given =>
        rw [freeTurn_concat_some, Option.getD_some]
        omega

/-- The last turn is one of the session if there is none after its turns. -/
theorem last_mem {turns : List (Option UInt32)} (h : 4294967295 < freeTurn turns) :
    4294967295 ∈ assignTurns 0 turns := by
  induction turns using List.reverseRecOn with
  | nil => exact absurd h (by decide)
  | append_singleton turns last ih =>
    rw [assignTurns_concat]
    by_cases hfull : 4294967295 < freeTurn turns
    · exact List.mem_append_left _ (ih hfull)
    · refine List.mem_append_right _ (List.mem_singleton.mpr (UInt32.toNat_inj.mp ?_))
      have hlast : (4294967295 : UInt32).toNat = 4294967295 := rfl
      cases last with
      | none =>
        rw [freeTurn_concat_none] at h
        rw [Option.getD_none, toNat_foldl_nextTurn, hlast]
        omega
      | some given =>
        have hlt := given.toNat_lt
        rw [freeTurn_concat_some] at h
        rw [Option.getD_some, hlast]
        omega

/-- A missing turn has a turn of its own: there is one after the turns before it, and it is not
given behind it. -/
def Fillable (turns : List (Option UInt32)) : Prop :=
  ∀ before after, turns = before ++ none :: after →
    freeTurn before < 4294967296 ∧ ∀ given, some given ∈ after → given.toNat ≠ freeTurn before

/-- A memory without a turn can be given one as long as there is a number left. -/
theorem fillable_concat_none {turns : List (Option UInt32)} :
    Fillable (turns ++ [none]) ↔ Fillable turns ∧ freeTurn turns < 4294967296 := by
  constructor
  · intro h
    refine ⟨fun before after heq => ?_, (h turns [] rfl).1⟩
    obtain ⟨hfree, hlater⟩ := h before (after ++ [none]) (by rw [heq]; simp)
    exact ⟨hfree, fun given hgiven => hlater given (List.mem_append_left _ hgiven)⟩
  · rintro ⟨h, hfree⟩ before after heq
    rcases List.eq_nil_or_concat after with rfl | ⟨after, other, rfl⟩
    · obtain ⟨rfl, -⟩ := List.append_inj' heq rfl
      exact ⟨hfree, fun given hgiven => absurd hgiven List.not_mem_nil⟩
    · rw [List.concat_eq_append, ← List.cons_append, ← List.append_assoc] at heq
      obtain ⟨hturns, hother⟩ := List.append_inj' heq rfl
      obtain ⟨hfree', hlater⟩ := h before after hturns
      refine ⟨hfree', fun given hgiven => ?_⟩
      rw [List.concat_eq_append] at hgiven
      rcases List.mem_append.mp hgiven with hmem | hlast
      · exact hlater given hmem
      · rw [← hother] at hlast
        exact absurd (List.mem_singleton.mp hlast) (by simp)

/-- One with a turn leaves the others theirs as long as it takes none of them. -/
theorem fillable_concat_some {turns : List (Option UInt32)} {given : UInt32} :
    Fillable (turns ++ [some given]) ↔ Fillable turns ∧
      ∀ before after, turns = before ++ none :: after → given.toNat ≠ freeTurn before := by
  constructor
  · intro h
    refine ⟨fun before after heq => ?_, fun before after heq => ?_⟩
    · obtain ⟨hfree, hlater⟩ := h before (after ++ [some given]) (by rw [heq]; simp)
      exact ⟨hfree, fun other hother => hlater other (List.mem_append_left _ hother)⟩
    · exact (h before (after ++ [some given]) (by rw [heq]; simp)).2 given (by simp)
  · rintro ⟨h, hnew⟩ before after heq
    rcases List.eq_nil_or_concat after with rfl | ⟨after, other, rfl⟩
    · exact absurd (List.append_inj' heq rfl).2 (by simp)
    · rw [List.concat_eq_append, ← List.cons_append, ← List.append_assoc] at heq
      obtain ⟨hturns, hother⟩ := List.append_inj' heq rfl
      obtain ⟨hfree, hlater⟩ := h before after hturns
      refine ⟨hfree, fun turn hturn => ?_⟩
      rw [List.concat_eq_append] at hturn
      rcases List.mem_append.mp hturn with hmem | hlast
      · exact hlater turn hmem
      · rw [← hother] at hlast
        rw [Option.some.inj (List.mem_singleton.mp hlast)]
        exact hnew before after hturns

/-- The turns of a session are distinct if those that are given are and each missing one has one of
its own. -/
theorem nodup_assignTurns_iff {turns : List (Option UInt32)}
    (h : turns.Pairwise fun a b => a.isSome → a ≠ b) :
    (assignTurns 0 turns).Nodup ↔ Fillable turns := by
  induction turns using List.reverseRecOn with
  | nil => exact iff_of_true List.nodup_nil fun before after heq => absurd heq (by simp)
  | append_singleton turns last ih =>
    obtain ⟨hturns, -, hlast⟩ := List.pairwise_append.mp h
    have hconcat : (assignTurns 0 (turns ++ [last])).Nodup ↔
        (assignTurns 0 turns).Nodup ∧ last.getD (turns.foldl nextTurn 0) ∉ assignTurns 0 turns := by
      rw [assignTurns_concat, ← List.concat_eq_append, List.nodup_concat, and_comm]
    rw [hconcat, ih hturns]
    -- A turn that is missing takes the next number, unless the last one has been reached.
    cases last with
    | none =>
      rw [fillable_concat_none]
      refine and_congr_right fun _ => ?_
      have hnext := toNat_foldl_nextTurn turns
      constructor
      · intro hnew
        by_contra hfull
        have hmax : turns.foldl nextTurn 0 = 4294967295 := by
          refine UInt32.toNat_inj.mp (hnext.trans ?_)
          exact Nat.min_eq_right (by omega)
        refine hnew ?_
        rw [Option.getD_none, hmax]
        exact last_mem (by omega)
      · intro hfree hmem
        have hless := lt_freeTurn hmem
        rw [Option.getD_none, hnext] at hless
        omega
    -- A turn that is given must not be one of those that were filled in.
    | some given =>
      rw [fillable_concat_some]
      refine and_congr_right fun hfillable => ?_
      rw [Option.getD_some, mem_assignTurns]
      constructor
      · intro hnew before after heq hturn
        refine hnew (.inr ⟨before, after, heq, ?_⟩)
        have hfree := (hfillable before after heq).1
        omega
      · rintro hnew (hgiven | ⟨before, after, heq, hturn⟩)
        · exact hlast _ hgiven _ List.mem_cons_self rfl rfl
        · have hfree := (hfillable before after heq).1
          exact hnew before after heq (by omega)

/-- No two memories of one session have one turn, and what is given is kept. -/
def TurnsAssigned (memories : List Memory) (defaultSession : Option String)
    (assigned : List Memory) : Prop :=
  (∀ session, (sessionTurns none session assigned).Nodup) ∧
    List.Forall₂ (fun memory memory' =>
      (∀ given, memory.turnIndex = some given → memory'.turnIndex = some given) ∧
        memory' = { memory with
          sessionId := memory.sessionId.or defaultSession
          turnIndex := memory'.turnIndex })
      memories assigned

/-- If the turns that are given are distinct in each session, the turns that are assigned are if and
only if each missing one has one of its own. -/
theorem assignMissingTurnIndices_iff {memories : List Memory} {defaultSession : Option String}
    (h : ∀ session, (sessionTurns defaultSession session memories).Pairwise
      fun a b => a.isSome → a ≠ b) :
    TurnsAssigned memories defaultSession (assignMissingTurnIndices memories defaultSession) ↔
      ∀ session, Fillable (sessionTurns defaultSession session memories) := by
  have hnodup : ∀ session,
      (sessionTurns none session (assignMissingTurnIndices memories defaultSession)).Nodup ↔
        Fillable (sessionTurns defaultSession session memories) := by
    intro session
    unfold assignMissingTurnIndices
    rw [sessionTurns_assignFrom, List.nodup_map_iff (Option.some_injective _),
      nodup_assignTurns_iff (h session)]
  unfold TurnsAssigned
  constructor
  · exact fun hassigned session => (hnodup session).mp (hassigned.1 session)
  · exact fun hfillable => ⟨fun session => (hnodup session).mpr (hfillable session),
      assignFrom_keeps defaultSession _ memories⟩

/-- A memory of a session, or of none, with or without a turn. -/
private def turnMemory (session : Option String) (turn : Option UInt32) : Memory :=
  ⟨"alice", "a", none, session, turn, none, none, none⟩

/-- A given turn between two missing ones of a session, and one that is missing in another. -/
private def mixedMemories : List Memory :=
  [turnMemory none none, turnMemory (some "other") none, turnMemory none (some 5),
    turnMemory none none]

/-- Turns of two sessions. -/
theorem assignMissingTurnIndices_iff_mixed :
    TurnsAssigned mixedMemories (some "default")
        (assignMissingTurnIndices mixedMemories (some "default")) ↔
      ∀ session, Fillable (sessionTurns (some "default") session mixedMemories) := by
  refine assignMissingTurnIndices_iff fun session => ?_
  refine List.pairwise_map.mpr (List.Pairwise.filter _ ?_)
  decide

example : (assignMissingTurnIndices mixedMemories (some "default")).map Memory.turnIndex =
    [some 0, some 0, some 5, some 6] := by
  decide

/-- A memory without a turn, and one with the first turn. -/
private def collidingMemories : List Memory :=
  [turnMemory (some "s") none, turnMemory (some "s") (some 0)]

/-- The first memory of a session gets the turn that is given to the second one. -/
theorem assignMissingTurnIndices_collide :
    (∀ session, (sessionTurns none session collidingMemories).Pairwise
        fun a b => a.isSome → a ≠ b) ∧
      ¬ TurnsAssigned collidingMemories none (assignMissingTurnIndices collidingMemories none) := by
  constructor
  · intro session
    refine List.pairwise_map.mpr (List.Pairwise.filter _ ?_)
    decide
  · intro h
    have hnodup := h.1 "s"
    revert hnodup
    decide

end Tellodb
