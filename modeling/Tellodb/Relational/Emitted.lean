import Mathlib.Data.List.Basic

/-!
# What the actions of a run give rise to

An action of a run may give rise to actions on a part of the state, more or fewer of them as the
state is. The part goes through the run of these (`foldl_emitted`), so what holds of the runs of the
part holds of it in the whole. -/

namespace Tellodb.Relational

variable {σ α β : Type*}

/-- What the actions of a run give rise to, in turn. -/
def emitted (step : σ → α → σ) (emit : σ → α → List β) (s : σ) : List α → List β
  | [] => []
  | a :: rest => emit s a ++ emitted step emit (step s a) rest

variable {step : σ → α → σ} {emit : σ → α → List β}

/-- A part of the state goes through the run of what the actions give rise to. -/
theorem foldl_emitted {ρ : Type*} (part : σ → ρ) {stepPart : ρ → β → ρ}
    (hstep : ∀ s a, part (step s a) = (emit s a).foldl stepPart (part s)) (s : σ)
    (actions : List α) :
    part (actions.foldl step s) = (emitted step emit s actions).foldl stepPart (part s) := by
  induction actions generalizing s with
  | nil => rfl
  | cons a rest ih => rw [List.foldl_cons, ih, hstep, emitted, List.foldl_append]

/-- What an action of the run gives rise to is given rise to in the state that it finds. -/
theorem mem_emitted {s : σ} {actions : List α} {b : β} (h : b ∈ emitted step emit s actions) :
    ∃ before a after, actions = before ++ a :: after ∧ b ∈ emit (before.foldl step s) a := by
  induction actions generalizing s with
  | nil => cases h
  | cons a rest ih =>
    rcases List.mem_append.mp h with hfirst | hrest
    · exact ⟨[], a, rest, rfl, hfirst⟩
    · obtain ⟨before, a', after, rfl, hb⟩ := ih hrest
      exact ⟨a :: before, a', after, rfl, hb⟩

end Tellodb.Relational
