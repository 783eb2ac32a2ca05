import Mathlib.Logic.Function.Basic
import Mathlib.Data.List.Find
import Mathlib.Data.List.Induction

/-!
# Caches that are patched

A cache of a source that is divided into parts. A part is loaded as a whole when it is first read.
After that, who writes to the source also owes the cache a patch, which is applied some time later.
A patch is fresh while it says what the source holds. `Coherent` is what a run keeps under which
every patch that is owed is applied in time: a loaded part agrees with the source except where a
fresh patch is still to come. When no patch is owed any more, it agrees everywhere
(`Coherent.eq`). -/

namespace Tellodb.Cache

variable {ε κ ν : Type*}

/-- One value to be set or removed in one part. -/
structure Patch (ε κ ν : Type*) where
  part : ε
  key : κ
  value : Option ν

/-- The patch says what the source holds at its place. -/
def Patch.Fresh (source : ε → κ → Option ν) (p : Patch ε κ ν) : Prop :=
  source p.part p.key = p.value

/-- A part with a patch applied. -/
def Patch.applyTo [DecidableEq ε] [DecidableEq κ] (p : Patch ε κ ν) (part : ε)
    (held : κ → Option ν) : κ → Option ν :=
  if p.part = part then Function.update held p.key p.value else held

/-- Every loaded part agrees with the source, except where a fresh patch is owed. -/
def Coherent (source : ε → κ → Option ν) (loaded : ε → Option (κ → Option ν))
    (owed : List (Patch ε κ ν)) : Prop :=
  ∀ part held, loaded part = some held → ∀ k,
    held k = source part k ∨ ∃ p ∈ owed, p.part = part ∧ p.key = k ∧ p.Fresh source

namespace Coherent

variable {source source' : ε → κ → Option ν} {loaded loaded' : ε → Option (κ → Option ν)}
  {owed owed' : List (Patch ε κ ν)}

/-- A cache without parts. -/
theorem empty (source : ε → κ → Option ν) (owed : List (Patch ε κ ν)) :
    Coherent source (fun _ => none) owed :=
  fun _ _ h => absurd h (by simp)

/-- When nothing is owed, the loaded parts are those of the source. -/
theorem eq (h : Coherent source loaded []) {part : ε} {held : κ → Option ν}
    (hheld : loaded part = some held) : held = source part := by
  funext k
  rcases h part held hheld k with hk | ⟨p, hp, -⟩
  · exact hk
  · exact absurd hp List.not_mem_nil

/-- A part may be loaded or dropped at any time. -/
theorem load (h : Coherent source loaded owed)
    (hload : ∀ part held, loaded' part = some held →
      loaded part = some held ∨ held = source part) : Coherent source loaded' owed := by
  intro part held hheld k
  rcases hload part held hheld with hold | hnew
  · exact h part held hold k
  · exact .inl (by rw [hnew])

/-- More patches may be owed. -/
theorem owe (h : Coherent source loaded owed) (hsub : ∀ p ∈ owed, p ∈ owed') :
    Coherent source loaded owed' := by
  intro part held hheld k
  rcases h part held hheld k with hk | ⟨p, hp, hplace⟩
  · exact .inl hk
  · exact .inr ⟨p, hsub p hp, hplace⟩

/-- The source may be written when each change in a loaded part is owed to the cache. -/
theorem write (h : Coherent source loaded owed)
    (hwrite : ∀ part, (loaded part).isSome → ∀ k, source' part k = source part k ∨
      ∃ p ∈ owed', p.part = part ∧ p.key = k ∧ p.Fresh source') :
    Coherent source' loaded (owed ++ owed') := by
  intro part held hheld k
  rcases hwrite part (by rw [hheld]; rfl) k with hsame | ⟨p, hp, hplace⟩
  · rcases h part held hheld k with hk | ⟨p, hp, rfl, rfl, hfresh⟩
    · exact .inl (hk.trans hsame.symm)
    · refine .inr ⟨p, List.mem_append_left _ hp, rfl, rfl, ?_⟩
      exact hsame.trans hfresh
  · exact .inr ⟨p, List.mem_append_right _ hp, hplace⟩

end Coherent

section

variable [DecidableEq ε] [DecidableEq κ] {source : ε → κ → Option ν}
  {loaded loaded' : ε → Option (κ → Option ν)} {owed now rest : List (Patch ε κ ν)}

/-- The last of some patches at a place. -/
def lastAt (now : List (Patch ε κ ν)) (part : ε) (k : κ) : Option (Patch ε κ ν) :=
  now.reverse.find? fun p => p.part = part ∧ p.key = k

/-- The last patch at a place is one of them, and at that place. -/
theorem mem_of_lastAt {part : ε} {k : κ} {p : Patch ε κ ν} (h : lastAt now part k = some p) :
    p ∈ now ∧ p.part = part ∧ p.key = k := by
  have hplace := List.find?_some h
  exact ⟨List.mem_reverse.mp (List.mem_of_find?_eq_some h), of_decide_eq_true hplace⟩

/-- The last of two lists of patches. -/
theorem lastAt_append (now now' : List (Patch ε κ ν)) (part : ε) (k : κ) :
    lastAt (now ++ now') part k = (lastAt now' part k).or (lastAt now part k) := by
  unfold lastAt
  rw [List.reverse_append, List.find?_append]

/-- A part with patches applied holds the last value at each place. -/
theorem foldl_applyTo (now : List (Patch ε κ ν)) (part : ε) (held : κ → Option ν) (k : κ) :
    now.foldl (fun held p => p.applyTo part held) held k =
      ((lastAt now part k).map Patch.value).getD (held k) := by
  induction now using List.reverseRecOn with
  | nil => rfl
  | append_singleton now p ih =>
    rw [List.foldl_append, List.foldl_cons, List.foldl_nil]
    have hlast : lastAt (now ++ [p]) part k =
        if p.part = part ∧ p.key = k then some p else lastAt now part k := by
      rw [lastAt_append]
      unfold lastAt
      rw [List.reverse_singleton, List.find?_singleton]
      by_cases hplace : p.part = part ∧ p.key = k
      · rw [if_pos hplace, if_pos (decide_eq_true hplace), Option.some_or]
      · rw [if_neg hplace, if_neg fun h => hplace (of_decide_eq_true h), Option.none_or]
    rw [hlast]
    generalize now.foldl (fun held p => p.applyTo part held) held = applied at ih ⊢
    unfold Patch.applyTo
    by_cases hpart : p.part = part
    · by_cases hkey : p.key = k
      · simp [hpart, hkey]
      · simp [hpart, hkey, Function.update_of_ne (Ne.symm hkey), ih]
    · simp [hpart, ih]

/-- Patches are applied in time when, at each place of a loaded part, the last of them is fresh, or
a fresh one is still to come. -/
def InTime (source : ε → κ → Option ν) (loaded : ε → Option (κ → Option ν))
    (now rest : List (Patch ε κ ν)) : Prop :=
  ∀ part, (loaded part).isSome → ∀ k p, lastAt now part k = some p →
    p.Fresh source ∨ ∃ q ∈ rest, q.part = part ∧ q.key = k ∧ q.Fresh source

/-- Only the places of the patches matter. -/
theorem inTime_iff : InTime source loaded now rest ↔
    ∀ p ∈ now, (loaded p.part).isSome → ∀ q ∈ lastAt now p.part p.key,
      q.Fresh source ∨ ∃ r ∈ rest, r.part = p.part ∧ r.key = p.key ∧ r.Fresh source := by
  constructor
  · exact fun h p _ hloaded q hq => h p.part hloaded p.key q hq
  · intro h part hloaded k p hlast
    obtain ⟨hp, rfl, rfl⟩ := mem_of_lastAt hlast
    exact h p hp hloaded p hlast

instance [DecidableEq ν] (p : Patch ε κ ν) : Decidable (p.Fresh source) :=
  inferInstanceAs (Decidable (source p.part p.key = p.value))

instance [DecidableEq ν] : Decidable (InTime source loaded now rest) :=
  decidable_of_iff _ inTime_iff.symm

/-- Patches of some parts are applied in time when they are so together with the others. -/
theorem InTime.filter (h : InTime source loaded now []) (keep : ε → Bool)
    (hload : ∀ part, (loaded' part).isSome → (loaded part).isSome)
    (rest : List (Patch ε κ ν)) :
    InTime source loaded' (now.filter fun p => keep p.part) rest := by
  intro part hloaded k p hlast
  have hp := (mem_of_lastAt hlast).1
  have hkeep : keep p.part = true := (List.mem_filter.mp hp).2
  have hpart := (mem_of_lastAt hlast).2.1
  refine .inl ?_
  have hlast' : lastAt now part k = some p := by
    unfold lastAt at hlast ⊢
    rw [← List.filter_reverse, List.find?_filter] at hlast
    rw [← hlast]
    refine List.find?_congr fun q _ => ?_
    by_cases hplace : q.part = part ∧ q.key = k
    · have hq : keep q.part = true := by rw [hplace.1, ← hpart, hkeep]
      rw [decide_eq_true hplace, hq]
      rfl
    · rw [decide_eq_false hplace, decide_eq_false fun h => absurd h.2 Bool.false_ne_true]
  rcases h part (hload part hloaded) k p hlast' with hfresh | ⟨q, hq, -⟩
  · exact hfresh
  · exact absurd hq List.not_mem_nil

/-- Patches that are applied in time are no longer owed. -/
theorem Coherent.apply (h : Coherent source loaded owed) (hsplit : ∀ p ∈ owed, p ∈ now ∨ p ∈ rest)
    (htime : InTime source loaded now rest)
    (happly : ∀ part held', loaded' part = some held' → ∃ held, loaded part = some held ∧
      held' = now.foldl (fun held p => p.applyTo part held) held) :
    Coherent source loaded' rest := by
  intro part held' hheld' k
  obtain ⟨held, hheld, rfl⟩ := happly part held' hheld'
  rw [foldl_applyTo]
  cases hlast : lastAt now part k with
  | some p =>
    obtain ⟨-, hpart, hkey⟩ := mem_of_lastAt hlast
    rcases htime part (by rw [hheld]; rfl) k p hlast with hfresh | hlater
    · refine .inl ?_
      rw [← hpart, ← hkey]
      exact hfresh.symm
    · exact .inr hlater
  | none =>
    -- No patch that is applied now is at this place.
    rcases h part held hheld k with hk | ⟨p, hp, hpart, hkey, hfresh⟩
    · exact .inl hk
    · rcases hsplit p hp with hnow | hrest
      · have hnone := List.find?_eq_none.mp hlast p (List.mem_reverse.mpr hnow)
        exact absurd (decide_eq_true ⟨hpart, hkey⟩) hnone
      · exact .inr ⟨p, hrest, hpart, hkey, hfresh⟩

end

end Tellodb.Cache
