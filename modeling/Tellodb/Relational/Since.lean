import Tellodb.Relational.Run
import Mathlib.Data.List.Induction

/-!
# What holds since an action

A property that some actions set and others clear holds at the end of a run exactly if it was set
and has not been cleared since (`foldl_iff_since`). The step lemma of such a property is an
equivalence, and the rule turns it into a statement about the history of the run. -/

namespace Tellodb.Relational

variable {σ α : Type*} {step : σ → α → σ} {s : σ}

/-- An action of the run sets something in the state it finds, and no later one clears it. -/
def Since (step : σ → α → σ) (Sets Clears : σ → α → Prop) (s : σ) (actions : List α) : Prop :=
  ∃ before a after, actions = before ++ a :: after ∧ Sets (before.foldl step s) a ∧
    EachStep step (fun s b => ¬ Clears s b) ((before ++ [a]).foldl step s) after

namespace Since

variable {Sets Clears : σ → α → Prop}

/-- Nothing has been set in a run without steps. -/
theorem not_nil : ¬ Since step Sets Clears s [] := by
  rintro ⟨before, a, after, hsplit, -⟩
  exact absurd hsplit.symm (by simp)

/-- The last action sets it, or it was set before and the last action does not clear it. -/
theorem concat_iff {actions : List α} {a : α} : Since step Sets Clears s (actions ++ [a]) ↔
    Sets (actions.foldl step s) a ∨
      Since step Sets Clears s actions ∧ ¬ Clears (actions.foldl step s) a := by
  constructor
  · rintro ⟨before, b, after, hsplit, hsets, hkept⟩
    -- The action that set it is the last one, or the last one kept it.
    rcases List.eq_nil_or_concat after with rfl | ⟨after, c, rfl⟩
    · obtain ⟨rfl, hlast⟩ := List.append_inj' hsplit rfl
      exact .inl ((List.singleton_inj.mp hlast).symm ▸ hsets)
    · rw [List.concat_eq_append, ← List.cons_append, ← List.append_assoc] at hsplit
      obtain ⟨rfl, hlast⟩ := List.append_inj' hsplit rfl
      rw [List.concat_eq_append] at hkept
      obtain ⟨hrest, hend⟩ := hkept.append
      refine .inr ⟨⟨before, b, after, rfl, hsets, hrest⟩, ?_⟩
      have hfirst := (EachStep.cons_iff.mp hend).1
      rw [← List.foldl_append, List.append_assoc, List.singleton_append] at hfirst
      exact List.singleton_inj.mp hlast ▸ hfirst
  · rintro (hsets | ⟨⟨before, b, after, rfl, hsets, hkept⟩, ha⟩)
    · exact ⟨actions, a, [], rfl, hsets, .nil⟩
    · refine ⟨before, b, after ++ [a], by simp, hsets, ?_⟩
      intro first d rest hsplit
      -- What came after is empty, or it ends with the action that kept it.
      rcases List.eq_nil_or_concat rest with rfl | ⟨rest, c, rfl⟩
      · obtain ⟨rfl, hlast⟩ := List.append_inj' hsplit rfl
        rw [← List.foldl_append, List.append_assoc, List.singleton_append]
        exact List.singleton_inj.mp hlast ▸ ha
      · rw [List.concat_eq_append, ← List.cons_append, ← List.append_assoc] at hsplit
        obtain ⟨rfl, -⟩ := List.append_inj' hsplit rfl
        exact hkept first d rest rfl

end Since

/-- A property holds at the end of a run exactly if it was set and has not been cleared since. -/
theorem foldl_iff_since {C : σ → α → Prop} {I P : σ → Prop} {Sets Clears : σ → α → Prop}
    {actions : List α} (hrun : EachStep step C s actions)
    (hkeep : ∀ s a, I s → C s a → I (step s a))
    (hstep : ∀ s a, I s → C s a → (P (step s a) ↔ Sets s a ∨ P s ∧ ¬ Clears s a))
    (hs : I s) (hnot : ¬ P s) :
    P (actions.foldl step s) ↔ Since step Sets Clears s actions := by
  induction actions using List.reverseRecOn with
  | nil => exact iff_of_false hnot Since.not_nil
  | append_singleton actions a ih =>
    obtain ⟨hbefore, hlast⟩ := hrun.append
    have hfirst := (EachStep.cons_iff.mp hlast).1
    have hI := hbefore.invariant hkeep hs
    rw [List.foldl_append, List.foldl_cons, List.foldl_nil, hstep _ _ hI hfirst, ih hbefore,
      Since.concat_iff]

end Tellodb.Relational
