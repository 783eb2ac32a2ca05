import Mathlib.Algebra.BigOperators.Group.Finset.Basic
import Mathlib.Algebra.BigOperators.Group.List.Basic
import Mathlib.Data.Finset.Union
import Mathlib.Data.List.Nodup

/-!
# Levels of a graph

A level of a graph has the successors of the nodes of the level before it. A walk that keeps each
level as a list, with every node once, goes through these sets (`Frontier.next`), and a sum over
such a list is one over the set (`Frontier.sum_eq`). Cycles bring a node back at a later level. -/

namespace Tellodb.Collections

variable {α : Type*} [DecidableEq α]

/-- The nodes at a number of steps from a seed. -/
def level (successors : α → List α) (seed : α) : ℕ → Finset α
  | 0 => {seed}
  | d + 1 => (level successors seed d).biUnion fun node => (successors node).toFinset

/-- A node is put behind those that were found, unless it is among them. -/
def discover (found : List α) (node : α) : List α :=
  if node ∈ found then found else found ++ [node]

/-- What is discovered was found before, or is one of the nodes. -/
theorem mem_foldl_discover {found nodes : List α} {node : α} :
    node ∈ nodes.foldl discover found ↔ node ∈ found ∨ node ∈ nodes := by
  induction nodes generalizing found with
  | nil => simp
  | cons first nodes ih =>
    rw [List.foldl_cons, ih, List.mem_cons]
    unfold discover
    by_cases hfirst : first ∈ found
    · rw [if_pos hfirst]
      constructor
      · exact fun h => h.imp_right .inr
      · rintro (h | rfl | h)
        · exact .inl h
        · exact .inl hfirst
        · exact .inr h
    · rw [if_neg hfirst, List.mem_append, List.mem_singleton, or_assoc]

/-- No node is discovered twice. -/
theorem nodup_foldl_discover {found : List α} (h : found.Nodup) (nodes : List α) :
    (nodes.foldl discover found).Nodup := by
  induction nodes generalizing found with
  | nil => exact h
  | cons first nodes ih =>
    refine ih ?_
    unfold discover
    split
    · exact h
    · rename_i hnew
      exact List.nodup_append.mpr ⟨h, List.nodup_singleton _, fun a ha b hb hab =>
        hnew (List.mem_singleton.mp hb ▸ hab ▸ ha)⟩

/-- A list has the nodes of a level, each once. -/
structure Frontier (successors : α → List α) (seed : α) (d : ℕ) (nodes : List α) : Prop where
  nodup : nodes.Nodup
  toFinset : nodes.toFinset = level successors seed d

variable {successors : α → List α} {seed : α} {d : ℕ} {nodes : List α}

/-- The seed is the frontier at the start. -/
theorem frontier_seed : Frontier successors seed 0 [seed] where
  nodup := List.nodup_singleton seed
  toFinset := rfl

/-- The successors of a level's nodes are the next level. -/
theorem Frontier.next (h : Frontier successors seed d nodes) :
    Frontier successors seed (d + 1) ((nodes.flatMap successors).foldl discover []) where
  nodup := nodup_foldl_discover List.nodup_nil _
  toFinset := by
    ext node
    rw [List.mem_toFinset, mem_foldl_discover, List.mem_flatMap]
    unfold level
    rw [Finset.mem_biUnion, ← h.toFinset]
    simp

/-- The nodes of a frontier are those of its level. -/
theorem Frontier.mem_iff (h : Frontier successors seed d nodes) {node : α} :
    node ∈ nodes ↔ node ∈ level successors seed d := by
  rw [← h.toFinset, List.mem_toFinset]

/-- A sum over the list is one over the level. -/
theorem Frontier.sum_eq {K : Type*} [AddCommMonoid K] (h : Frontier successors seed d nodes)
    (f : α → K) : (nodes.map f).sum = ∑ node ∈ level successors seed d, f node := by
  rw [← h.toFinset, List.sum_toFinset f h.nodup]

/-- After a level without nodes there are none. -/
theorem level_eq_empty {k : ℕ} (h : level successors seed d = ∅) (hle : d ≤ k) :
    level successors seed k = ∅ := by
  induction k, hle using Nat.le_induction with
  | base => exact h
  | succ k _ ih =>
    unfold level
    rw [ih, Finset.biUnion_empty]

end Tellodb.Collections
