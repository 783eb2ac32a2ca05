import Mathlib.Data.List.Basic
import Mathlib.Data.List.Induction

/-!
# Taking elements that do not clash

Elements are taken one after the other, each unless it clashes with one that is taken. No two that
are taken clash (`greedy_pairwise`), and one that is not taken clashes with one that is taken before
it (`mem_greedy_or_clash`). -/

namespace Tellodb.Collections

variable {α : Type*} (clash : α → α → Prop) [DecidableRel clash]

/-- An element is taken, unless it clashes with one that is taken. -/
def takeApart (taken : List α) (a : α) : List α :=
  if ∃ b ∈ taken, clash b a then taken else taken ++ [a]

/-- The elements that are taken of a list. -/
def greedy (l : List α) : List α :=
  l.foldl (takeApart clash) []

/-- Nothing is taken from nothing. -/
@[simp] theorem greedy_nil : greedy clash [] = [] := rfl

/-- One element more is offered. -/
theorem greedy_concat (l : List α) (a : α) :
    greedy clash (l ++ [a]) = takeApart clash (greedy clash l) a := by
  unfold greedy
  rw [List.foldl_concat]

/-- Only what is offered is taken. -/
theorem greedy_sublist (l : List α) : (greedy clash l).Sublist l := by
  induction l using List.reverseRecOn with
  | nil => exact List.Sublist.refl _
  | append_singleton l a ih =>
    rw [greedy_concat]
    unfold takeApart
    split_ifs
    · exact ih.trans (List.sublist_append_left l [a])
    · exact ih.append (List.Sublist.refl _)

/-- What is taken stays taken. -/
theorem greedy_append_sublist (l m : List α) : (greedy clash l).Sublist (greedy clash (l ++ m)) := by
  induction m using List.reverseRecOn with
  | nil =>
    rw [List.append_nil]
  | append_singleton m a ih =>
    rw [← List.append_assoc, greedy_concat]
    unfold takeApart
    split_ifs
    · exact ih
    · exact ih.trans (List.sublist_append_left _ _)

/-- No two elements that are taken clash. -/
theorem greedy_pairwise (l : List α) : (greedy clash l).Pairwise fun a b => ¬ clash a b := by
  induction l using List.reverseRecOn with
  | nil => exact List.Pairwise.nil
  | append_singleton l a ih =>
    rw [greedy_concat]
    unfold takeApart
    split_ifs with hclash
    · exact ih
    · refine List.pairwise_append.mpr ⟨ih, List.pairwise_singleton _ _, fun b hb c hc hbc => ?_⟩
      rw [List.mem_singleton.mp hc] at hbc
      exact hclash ⟨b, hb, hbc⟩

/-- An element is taken, or clashes with one that is taken before it. -/
theorem mem_greedy_or_clash {l before after : List α} {a : α} (h : l = before ++ a :: after) :
    a ∈ greedy clash l ∨ ∃ b ∈ greedy clash l, b ∈ before ∧ clash b a := by
  have hsub := greedy_append_sublist clash (before ++ [a]) after
  rw [List.append_assoc, List.singleton_append, ← h] at hsub
  have hstep : greedy clash (before ++ [a]) = takeApart clash (greedy clash before) a :=
    greedy_concat clash before a
  unfold takeApart at hstep
  by_cases hclash : ∃ b ∈ greedy clash before, clash b a
  · rw [if_pos hclash] at hstep
    obtain ⟨b, hb, hba⟩ := hclash
    exact .inr ⟨b, hsub.subset (hstep ▸ hb), (greedy_sublist clash before).subset hb, hba⟩
  · rw [if_neg hclash] at hstep
    exact .inl (hsub.subset (hstep ▸ List.mem_append_right _ List.mem_cons_self))

end Tellodb.Collections
