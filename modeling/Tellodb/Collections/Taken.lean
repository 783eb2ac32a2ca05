import Mathlib.Data.List.Dedup
import Mathlib.Data.List.Nodup
import Mathlib.Data.List.Perm.Subperm

/-!
# Taking elements up to a limit

Elements are taken one after the other, each key once, until there are as many as a limit allows.
What is taken has no key twice and is not over the limit (`Taken`), and after all elements of a list
were offered it is full or has all their keys (`foldl_takeNew_full`). So as many are taken as the
limit allows or as there are keys (`Taken.length_eq_dedup`). -/

namespace Tellodb.Collections

variable {α κ : Type*} [DecidableEq κ] (key : α → κ) (limit : ℕ)

/-- An element is taken, unless there are enough or its key is taken already. -/
def takeNew (taken : List α) (a : α) : List α :=
  if limit ≤ taken.length then taken
  else if taken.any fun b => key b = key a then taken
  else taken ++ [a]

/-- Some elements of a list, no more than the limit, and each key once. -/
structure Taken (l taken : List α) : Prop where
  nodup : (taken.map key).Nodup
  subset : taken ⊆ l
  length_le : taken.length ≤ limit

variable {key limit} {l taken offered : List α}

omit [DecidableEq κ] in
/-- Before anything is taken. -/
theorem Taken.nil : Taken key limit l [] :=
  ⟨List.nodup_nil, List.nil_subset l, Nat.zero_le _⟩

variable (key limit) in

/-- What was taken stays in its place. -/
theorem prefix_takeNew (taken : List α) (a : α) : taken <+: takeNew key limit taken a := by
  unfold takeNew
  split_ifs
  · exact List.prefix_refl _
  · exact List.prefix_refl _
  · exact List.prefix_append _ _

variable (key limit) in

/-- So it does for as many as are offered. -/
theorem prefix_foldl_takeNew (offered taken : List α) :
    taken <+: offered.foldl (takeNew key limit) taken := by
  induction offered generalizing taken with
  | nil => exact List.prefix_refl _
  | cons a offered ih => exact (prefix_takeNew key limit taken a).trans (ih _)

/-- One element more is offered. -/
theorem Taken.takeNew (h : Taken key limit l taken) {a : α} (ha : a ∈ l) :
    Taken key limit l (takeNew key limit taken a) := by
  unfold Collections.takeNew
  split_ifs with hfull hold
  · exact h
  · exact h
  · refine ⟨?_, List.append_subset.mpr ⟨h.subset, by simpa using ha⟩, ?_⟩
    · have hnew : key a ∉ taken.map key := by
        intro hmem
        obtain ⟨b, hb, hkey⟩ := List.mem_map.mp hmem
        exact hold (List.any_eq_true.mpr ⟨b, hb, decide_eq_true hkey⟩)
      rw [List.map_append, List.map_singleton]
      exact List.nodup_append.mpr ⟨h.nodup, List.nodup_singleton _, fun x hx y hy hxy =>
        hnew (by rw [← List.mem_singleton.mp hy, ← hxy]; exact hx)⟩
    · rw [List.length_append, List.length_singleton]
      omega

/-- Offering items of the list again takes no more than there is room for. -/
theorem Taken.foldl (h : Taken key limit l taken) (hsub : offered ⊆ l) :
    Taken key limit l (offered.foldl (Collections.takeNew key limit) taken) := by
  induction offered generalizing taken with
  | nil => exact h
  | cons a offered ih =>
    obtain ⟨ha, hrest⟩ := List.cons_subset.mp hsub
    exact ih (h.takeNew ha) hrest

variable (key limit) in

/-- After an element was offered there are enough, or its key is taken. -/
private theorem takeNew_full (taken : List α) (a : α) :
    limit ≤ (takeNew key limit taken a).length ∨ key a ∈ (takeNew key limit taken a).map key := by
  unfold takeNew
  split_ifs with hfull hold
  · exact .inl hfull
  · obtain ⟨b, hb, hkey⟩ := List.any_eq_true.mp hold
    exact .inr (List.mem_map.mpr ⟨b, hb, of_decide_eq_true hkey⟩)
  · exact .inr (by simp)

variable (key limit) in

/-- After all elements of a list were offered there are enough, or all keys are taken. -/
theorem foldl_takeNew_full (offered taken : List α) :
    limit ≤ (offered.foldl (takeNew key limit) taken).length ∨
      ∀ a ∈ offered, key a ∈ (offered.foldl (takeNew key limit) taken).map key := by
  induction offered generalizing taken with
  | nil => exact .inr fun a ha => absurd ha List.not_mem_nil
  | cons a offered ih =>
    rw [List.foldl_cons]
    have hstart := prefix_foldl_takeNew key limit offered
      (takeNew key limit taken a)
    rcases ih (takeNew key limit taken a) with hfull | hall
    · exact .inl hfull
    rcases takeNew_full key limit taken a with hfull | hkey
    · exact .inl (Nat.le_trans hfull hstart.length_le)
    · refine .inr fun b hb => ?_
      rcases List.mem_cons.mp hb with rfl | hb
      · exact (hstart.map key).subset hkey
      · exact hall b hb

/-- As many elements are taken as the limit allows or as there are keys. -/
theorem Taken.length_eq_dedup (h : Taken key limit l taken)
    (hfull : limit ≤ taken.length ∨ ∀ a ∈ l, key a ∈ taken.map key) :
    taken.length = min limit (l.map key).dedup.length := by
  have hkeys : taken.map key ⊆ (l.map key).dedup := fun k hk =>
    List.mem_dedup.mpr (List.map_subset key h.subset hk)
  have hle := (List.subperm_of_subset h.nodup hkeys).length_le
  rw [List.length_map] at hle
  have hlimit := h.length_le
  rcases hfull with hfull | hall
  · omega
  · have hge : (l.map key).dedup.length ≤ (taken.map key).length := by
      refine (List.subperm_of_subset (List.nodup_dedup _) fun k hk => ?_).length_le
      obtain ⟨a, ha, rfl⟩ := List.mem_map.mp (List.mem_dedup.mp hk)
      exact hall a ha
    rw [List.length_map] at hge
    omega

end Tellodb.Collections
