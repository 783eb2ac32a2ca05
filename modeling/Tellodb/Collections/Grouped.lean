import Mathlib.Data.List.Dedup
import Mathlib.Data.List.Induction
import Mathlib.Data.List.Pairwise
import Mathlib.Data.List.Nodup

/-!
# Grouping by key

The elements of a list in groups of one key each, in the order in which the keys come up. A group is
its first element with those after it, and it has all elements of its key (`cons_of_mem_grouped`).
The first elements are in the order of the list (`heads_sublist`). -/

namespace Tellodb.Collections

variable {α κ : Type*} [DecidableEq κ] (key : α → κ)

/-- An element goes into the group of its key, or begins one. -/
def groupStep (groups : List (α × List α)) (a : α) : List (α × List α) :=
  if groups.any fun g => key g.1 = key a then
    groups.map fun g => if key g.1 = key a then (g.1, g.2 ++ [a]) else g
  else groups ++ [(a, [])]

/-- The groups of a list. -/
def grouped (l : List α) : List (α × List α) :=
  l.foldl (groupStep key) []

/-- There are no groups of nothing. -/
@[simp] theorem grouped_nil : grouped key [] = [] := rfl

/-- One more item goes to its group. -/
theorem grouped_concat (l : List α) (a : α) :
    grouped key (l ++ [a]) = groupStep key (grouped key l) a := by
  unfold grouped
  rw [List.foldl_append]
  rfl

/-- A step begins a group with the element, or leaves the first elements as they are. -/
theorem heads_groupStep (groups : List (α × List α)) (a : α) :
    ((groupStep key groups a).map Prod.fst = groups.map Prod.fst ∧
        ∃ g ∈ groups, key g.1 = key a) ∨
      ((groupStep key groups a).map Prod.fst = groups.map Prod.fst ++ [a] ∧
        ∀ g ∈ groups, key g.1 ≠ key a) := by
  unfold groupStep
  split
  · rename_i hsome
    obtain ⟨g, hg, hkey⟩ := List.any_eq_true.mp hsome
    refine .inl ⟨?_, g, hg, of_decide_eq_true hkey⟩
    rw [List.map_map]
    refine List.map_congr_left fun g _ => ?_
    dsimp only [Function.comp_apply]
    split <;> rfl
  · rename_i hnone
    refine .inr ⟨by rw [List.map_append, List.map_singleton], fun g hg hkey => hnone ?_⟩
    exact List.any_eq_true.mpr ⟨g, hg, decide_eq_true hkey⟩

/-- The first elements are in the order of the list. -/
theorem heads_sublist (l : List α) : ((grouped key l).map Prod.fst).Sublist l := by
  induction l using List.reverseRecOn with
  | nil => exact List.nil_sublist _
  | append_singleton l a ih =>
    rw [grouped_concat]
    rcases heads_groupStep key (grouped key l) a with ⟨hsame, -⟩ | ⟨hnew, -⟩
    · rw [hsame]
      exact ih.trans (List.sublist_append_left _ _)
    · rw [hnew]
      exact ih.append (List.Sublist.refl _)

/-- Each key has one group. -/
theorem keys_nodup (l : List α) : ((grouped key l).map fun g => key g.1).Nodup := by
  have hheads : ((grouped key l).map Prod.fst).Pairwise fun a b => key a ≠ key b := by
    induction l using List.reverseRecOn with
    | nil => exact List.Pairwise.nil
    | append_singleton l a ih =>
      rw [grouped_concat]
      rcases heads_groupStep key (grouped key l) a with ⟨hsame, -⟩ | ⟨hnew, hne⟩
      · rw [hsame]
        exact ih
      · rw [hnew]
        refine List.pairwise_append.mpr ⟨ih, List.pairwise_singleton _ _, fun b hb c hc => ?_⟩
        obtain ⟨g, hg, rfl⟩ := List.mem_map.mp hb
        rw [List.mem_singleton.mp hc]
        exact hne g hg
  exact List.pairwise_map.mpr (List.pairwise_map.mp hheads :)

/-- Every element has a group. -/
theorem exists_group {l : List α} {a : α} (h : a ∈ l) : ∃ g ∈ grouped key l, key g.1 = key a := by
  have hhead : ∃ b ∈ (grouped key l).map Prod.fst, key b = key a := by
    induction l using List.reverseRecOn with
    | nil => exact absurd h List.not_mem_nil
    | append_singleton l b ih =>
      rw [grouped_concat]
      rcases List.mem_append.mp h with hold | hnew
      · obtain ⟨c, hc, hkey⟩ := ih hold
        rcases heads_groupStep key (grouped key l) b with ⟨hsame, -⟩ | ⟨hheads, -⟩
        · exact ⟨c, by rw [hsame]; exact hc, hkey⟩
        · exact ⟨c, by rw [hheads]; exact List.mem_append_left _ hc, hkey⟩
      · rw [List.mem_singleton.mp hnew]
        rcases heads_groupStep key (grouped key l) b with ⟨hsame, g, hg, hkey⟩ | ⟨hheads, -⟩
        · exact ⟨g.1, by rw [hsame]; exact List.mem_map_of_mem hg, hkey⟩
        · exact ⟨b, by rw [hheads]; exact List.mem_append_right _ List.mem_cons_self, rfl⟩
  obtain ⟨b, hb, hkey⟩ := hhead
  obtain ⟨g, hg, rfl⟩ := List.mem_map.mp hb
  exact ⟨g, hg, hkey⟩

/-- A group has the elements of its key. -/
theorem cons_of_mem_grouped {l : List α} {g : α × List α} (h : g ∈ grouped key l) :
    g.1 :: g.2 = l.filter fun a => key a = key g.1 := by
  induction l using List.reverseRecOn generalizing g with
  | nil => exact absurd h List.not_mem_nil
  | append_singleton l a ih =>
    rw [grouped_concat] at h
    rw [List.filter_append]
    unfold groupStep at h
    -- The new element joins the group of its key, or starts one at the end.
    split at h
    · obtain ⟨old, hold, rfl⟩ := List.mem_map.mp h
      by_cases hkey : key old.1 = key a
      · rw [if_pos hkey]
        dsimp only
        rw [← ih hold, List.filter_cons_of_pos (by simp [hkey])]
        rfl
      · rw [if_neg hkey, ← ih hold, List.filter_cons_of_neg (by simpa using Ne.symm hkey)]
        simp
    · rename_i hnone
      have hne : ∀ old ∈ grouped key l, key old.1 ≠ key a := fun old hold hkey =>
        hnone (List.any_eq_true.mpr ⟨old, hold, decide_eq_true hkey⟩)
      rcases List.mem_append.mp h with hold | hnew
      · rw [ih hold, List.filter_cons_of_neg (by simpa using Ne.symm (hne g hold))]
        simp
      · obtain rfl := List.mem_singleton.mp hnew
        have hempty : l.filter (fun b => key b = key a) = [] := by
          refine List.filter_eq_nil_iff.mpr fun b hb hkey => ?_
          obtain ⟨old, hold, hsame⟩ := exists_group key hb
          exact hne old hold (hsame.trans (of_decide_eq_true hkey))
        rw [hempty]
        simp

/-- The groups are the elements of one key each. -/
theorem mem_grouped_iff {l : List α} {g : α × List α} :
    g ∈ grouped key l ↔ g.1 :: g.2 = l.filter fun a => key a = key g.1 := by
  refine ⟨cons_of_mem_grouped key, fun h => ?_⟩
  have hmem : g.1 ∈ l := by
    have hfirst : g.1 ∈ l.filter fun a => key a = key g.1 := by
      rw [← h]
      exact List.mem_cons_self
    exact List.mem_of_mem_filter hfirst
  obtain ⟨g', hg', hkey⟩ := exists_group key hmem
  have hsame := cons_of_mem_grouped key hg'
  rw [hkey, ← h] at hsame
  obtain ⟨hfirst, hrest⟩ := List.cons.inj hsame
  rw [← Prod.ext hfirst hrest]
  exact hg'

/-- The elements of some keys are those of the one, those of the next one, and so on. -/
theorem perm_flatMap_filter (l : List α) {keys : List κ} (h : keys.Nodup) :
    (keys.flatMap fun k => l.filter fun a => key a = k).Perm (l.filter fun a => key a ∈ keys) := by
  induction keys with
  | nil => simp
  | cons k keys ih =>
    obtain ⟨hnew, hkeys⟩ := List.nodup_cons.mp h
    have hfirst : (l.filter fun a => key a ∈ k :: keys).filter (fun a => key a = k) =
        l.filter fun a => key a = k := by
      rw [List.filter_filter]
      refine List.filter_congr fun a _ => ?_
      by_cases hk : key a = k
      · simp [hk]
      · simp [hk]
    have hrest : (l.filter fun a => key a ∈ k :: keys).filter (fun a => !decide (key a = k)) =
        l.filter fun a => key a ∈ keys := by
      rw [List.filter_filter]
      refine List.filter_congr fun a _ => ?_
      by_cases hk : key a = k
      · simp [hk, hnew]
      · simp [hk]
    have hsplit := List.filter_append_perm (fun a => key a = k)
      (l.filter fun a => key a ∈ k :: keys)
    rw [hfirst, hrest] at hsplit
    exact ((ih hkeys).append_left _).trans hsplit

/-- The groups together have the elements of the list. -/
theorem perm_flatMap_grouped (l : List α) :
    ((grouped key l).flatMap fun g => g.1 :: g.2).Perm l := by
  have hgroups : ((grouped key l).flatMap fun g => g.1 :: g.2) =
      ((grouped key l).map fun g => key g.1).flatMap fun k => l.filter fun a => key a = k := by
    rw [List.flatMap_map]
    exact List.flatMap_congr fun g hg => cons_of_mem_grouped key hg
  have hall : (l.filter fun a => key a ∈ (grouped key l).map fun g => key g.1) = l := by
    refine List.filter_eq_self.mpr fun a ha => decide_eq_true ?_
    obtain ⟨g, hg, hkey⟩ := exists_group key ha
    exact List.mem_map.mpr ⟨g, hg, hkey⟩
  have hperm := perm_flatMap_filter key l (keys_nodup key l)
  rw [hall] at hperm
  rw [hgroups]
  exact hperm

/-- There are as many groups as keys. -/
theorem length_grouped (l : List α) : (grouped key l).length = (l.map key).dedup.length := by
  have hperm : ((grouped key l).map fun g => key g.1).Perm (l.map key).dedup := by
    refine (List.perm_ext_iff_of_nodup (keys_nodup key l) (List.nodup_dedup _)).mpr fun k => ?_
    rw [List.mem_dedup, List.mem_map, List.mem_map]
    constructor
    · rintro ⟨g, hg, rfl⟩
      exact ⟨g.1, (heads_sublist key l).subset (List.mem_map_of_mem hg), rfl⟩
    · rintro ⟨a, ha, rfl⟩
      exact exists_group key ha
  rw [← hperm.length_eq, List.length_map]

end Tellodb.Collections
