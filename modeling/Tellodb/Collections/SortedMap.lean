import Mathlib.Data.List.Basic
import Mathlib.Logic.Function.Basic
import Mathlib.Order.Lattice

/-!
# Sorted maps

A map as the list of its entries in the strict order of their keys. What an operation does is said
of `SortedMap.find?`, and the entries are determined by it (`SortedMap.filter_entries_congr`), also
those of a range alone. -/

namespace Tellodb.Collections

variable {κ ν : Type*} [LinearOrder κ]

/-- A map with its entries in the order of their keys. -/
structure SortedMap (κ ν : Type*) [LinearOrder κ] where
  entries : List (κ × ν)
  sorted : entries.Pairwise fun a b => a.1 < b.1

namespace SortedMap

/-- A map without entries. -/
def empty (κ ν : Type*) [LinearOrder κ] : SortedMap κ ν :=
  ⟨[], List.Pairwise.nil⟩

/-- The value under a key. -/
def find? (m : SortedMap κ ν) (k : κ) : Option ν :=
  (m.entries.find? fun entry => entry.1 = k).map Prod.snd

/-- The entry of a key is added or replaced. -/
def insert (m : SortedMap κ ν) (k : κ) (v : ν) : SortedMap κ ν where
  entries := (m.entries.filter fun entry => entry.1 < k) ++
    (k, v) :: m.entries.filter fun entry => k < entry.1
  sorted := by
    have hfirst := m.sorted.filter fun entry => decide (entry.1 < k)
    have hlast := m.sorted.filter fun entry => decide (k < entry.1)
    refine List.pairwise_append.mpr ⟨hfirst, List.pairwise_cons.mpr ⟨?_, hlast⟩, ?_⟩
    · exact fun entry hentry => of_decide_eq_true (List.mem_filter.mp hentry).2
    · intro a ha b hb
      have hak : a.1 < k := of_decide_eq_true (List.mem_filter.mp ha).2
      rcases List.mem_cons.mp hb with rfl | hb
      · exact hak
      · exact hak.trans (of_decide_eq_true (List.mem_filter.mp hb).2)

/-- Entries under one key are the same. -/
theorem eq_of_mem {m : SortedMap κ ν} {a b : κ × ν} (ha : a ∈ m.entries) (hb : b ∈ m.entries)
    (hkey : a.1 = b.1) : a = b :=
  List.Pairwise.forall_of_forall_of_flip (R := fun a b : κ × ν => a.1 = b.1 → a = b)
    (fun _ _ _ => rfl) (m.sorted.imp fun h heq => absurd heq h.ne)
    (m.sorted.imp fun h heq => absurd heq.symm h.ne) ha hb hkey

/-- A value is found exactly when it is the value of an entry. -/
theorem find?_eq_some {m : SortedMap κ ν} {k : κ} {v : ν} :
    m.find? k = some v ↔ (k, v) ∈ m.entries := by
  unfold find?
  constructor
  · intro h
    obtain ⟨entry, hfind, rfl⟩ := Option.map_eq_some_iff.mp h
    have hkey := List.find?_some hfind
    rw [← of_decide_eq_true hkey]
    exact List.mem_of_find?_eq_some hfind
  · intro h
    cases hfind : m.entries.find? fun entry => entry.1 = k with
    | none => exact absurd (decide_eq_true rfl) (List.find?_eq_none.mp hfind _ h)
    | some entry =>
      have hkey := List.find?_some hfind
      rw [eq_of_mem (List.mem_of_find?_eq_some hfind) h (of_decide_eq_true hkey)]
      rfl

/-- Nothing is found in a map without entries. -/
@[simp] theorem find?_empty : (empty κ ν).find? = fun _ => none := rfl

/-- What is found after an entry is added or replaced. -/
theorem find?_insert (m : SortedMap κ ν) (k : κ) (v : ν) :
    (m.insert k v).find? = Function.update m.find? k (some v) := by
  funext key
  refine Option.ext fun value => ?_
  -- What is inserted stands between the smaller and the greater keys.
  have hmem : (key, value) ∈ (m.insert k v).entries ↔
      (key = k ∧ value = v) ∨ (key ≠ k ∧ (key, value) ∈ m.entries) := by
    unfold insert
    simp only [List.mem_append, List.mem_cons, List.mem_filter, decide_eq_true_eq,
      Prod.mk.injEq]
    constructor
    · rintro (⟨hold, hlt⟩ | hnew | ⟨hold, hlt⟩)
      · exact .inr ⟨hlt.ne, hold⟩
      · exact .inl hnew
      · exact .inr ⟨hlt.ne', hold⟩
    · rintro (hnew | ⟨hne, hold⟩)
      · exact .inr (.inl hnew)
      · rcases lt_or_gt_of_ne hne with hlt | hlt
        · exact .inl ⟨hold, hlt⟩
        · exact .inr (.inr ⟨hold, hlt⟩)
  rw [find?_eq_some, hmem]
  by_cases hkey : key = k
  · subst hkey
    rw [Function.update_self, Option.some_inj]
    simp [eq_comm]
  · rw [Function.update_of_ne hkey, find?_eq_some]
    simp [hkey]

/-- Maps that agree on some keys have the same entries there. -/
theorem filter_entries_congr {m m' : SortedMap κ ν} {p : κ → Bool}
    (h : ∀ k, p k = true → m.find? k = m'.find? k) :
    (m.entries.filter fun entry => p entry.1) = m'.entries.filter fun entry => p entry.1 := by
  have hnodup : ∀ m : SortedMap κ ν, (m.entries.filter fun entry => p entry.1).Nodup := by
    intro m
    refine (m.sorted.filter _).imp fun hlt heq => ?_
    rw [heq] at hlt
    exact absurd hlt (lt_irrefl _)
  refine List.Perm.eq_of_pairwise (fun a b _ _ hab hba => absurd hab hba.not_gt)
    (m.sorted.filter _) (m'.sorted.filter _)
    ((List.perm_ext_iff_of_nodup (hnodup m) (hnodup m')).mpr fun entry => ?_)
  rw [List.mem_filter, List.mem_filter]
  refine and_congr_left fun hp => ?_
  rw [← find?_eq_some, ← find?_eq_some, h entry.1 hp]

end SortedMap

end Tellodb.Collections
