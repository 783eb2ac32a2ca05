import Mathlib.Algebra.GroupWithZero.Nat
import Mathlib.Algebra.BigOperators.Group.List.Basic
import Mathlib.Algebra.Order.BigOperators.Group.List

/-!
# Weights of lists

The sum of the weights of the elements of a list, as a list changes at one place. Counts of elements
of one kind are such sums, with weights zero and one, so that the invariants of a system of
processes are linear relations between weights, and so are its measures. -/

namespace Tellodb.Collections

variable {α : Type*}

/-- The sum of the weights of the elements. -/
def weigh (w : α → ℕ) (l : List α) : ℕ :=
  (l.map w).sum

/-- Nothing weighs nothing. -/
@[simp] theorem weigh_nil (w : α → ℕ) : weigh w [] = 0 := rfl

/-- The weights add up, item by item. -/
@[simp] theorem weigh_cons (w : α → ℕ) (a : α) (l : List α) :
    weigh w (a :: l) = w a + weigh w l := by
  unfold weigh
  rw [List.map_cons, List.sum_cons]

/-- They add up over two lists. -/
@[simp] theorem weigh_append (w : α → ℕ) (l l' : List α) :
    weigh w (l ++ l') = weigh w l + weigh w l' := by
  unfold weigh
  rw [List.map_append, List.sum_append]

/-- An element that changes trades its weight for that of the new one. -/
theorem weigh_set (w : α → ℕ) {l : List α} {i : ℕ} {a : α} (h : l[i]? = some a) (b : α) :
    weigh w (l.set i b) + w a = weigh w l + w b := by
  induction l generalizing i with
  | nil => exact absurd h (by simp)
  | cons c rest ih =>
    cases i with
    | zero =>
      rw [List.getElem?_cons_zero, Option.some.injEq] at h
      rw [List.set_cons_zero, weigh_cons, weigh_cons, h]
      omega
    | succ i =>
      rw [List.getElem?_cons_succ] at h
      have hrest := ih h
      rw [List.set_cons_succ, weigh_cons, weigh_cons]
      omega

/-- An element weighs no more than the list. -/
theorem le_weigh (w : α → ℕ) {l : List α} {a : α} (h : a ∈ l) : w a ≤ weigh w l := by
  obtain ⟨before, after, rfl⟩ := List.append_of_mem h
  rw [weigh_append, weigh_cons]
  omega

/-- A list without weight has no element with one. -/
theorem weigh_eq_zero (w : α → ℕ) {l : List α} : weigh w l = 0 ↔ ∀ a ∈ l, w a = 0 := by
  refine ⟨fun h a ha => ?_, fun h => ?_⟩
  · have hle := le_weigh w ha
    omega
  · unfold weigh
    rw [List.map_congr_left h]
    simp

/-- The order of a list does not matter. -/
theorem weigh_perm (w : α → ℕ) {l l' : List α} (h : l.Perm l') : weigh w l = weigh w l' :=
  (h.map w).sum_eq

/-- Weights that are equal on the elements sum up to the same. -/
theorem weigh_congr {w v : α → ℕ} {l : List α} (h : ∀ a ∈ l, w a = v a) :
    weigh w l = weigh v l := by
  unfold weigh
  rw [List.map_congr_left h]

/-- Smaller weights sum up to less. -/
theorem weigh_mono {w v : α → ℕ} (h : ∀ a, w a ≤ v a) (l : List α) : weigh w l ≤ weigh v l := by
  induction l with
  | nil => exact le_rfl
  | cons a rest ih =>
    have ha := h a
    rw [weigh_cons, weigh_cons]
    omega

/-- Elements that weigh at most `c` weigh together at most `c` each. -/
theorem weigh_le (w : α → ℕ) {c : ℕ} (h : ∀ a, w a ≤ c) (l : List α) :
    weigh w l ≤ c * l.length := by
  induction l with
  | nil => exact Nat.zero_le _
  | cons a rest ih =>
    have ha := h a
    rw [weigh_cons, List.length_cons, Nat.mul_add, Nat.mul_one]
    omega

end Tellodb.Collections
