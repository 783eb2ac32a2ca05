import Mathlib.Algebra.GroupWithZero.Nat
import Mathlib.Data.List.Defs
import Mathlib.Data.List.Nodup

/-!
# Chunks of a list

A list is read in chunks where only so many of its elements fit into one statement. Of a list
without repetitions every element is in one chunk (`filter_contains`), so that what is gathered
chunk by chunk for one element is gathered once. -/

namespace Tellodb.Collections

variable {α β : Type*}

/-- The chunks of a list are the list. -/
theorem flatten_toChunks (n : ℕ) (l : List α) : (l.toChunks n).flatten = l := by
  -- The loop carries the chunks that are full and the one that is being filled.
  have hgo : ∀ (l : List α) (chunk : Array α) (chunks : Array (List α)),
      (List.toChunks.go n l chunk chunks).flatten = chunks.toList.flatten ++ chunk.toList ++ l := by
    intro l
    induction l with
    | nil =>
      intro chunk chunks
      simp [List.toChunks.go]
    | cons a rest ih =>
      intro chunk chunks
      rw [List.toChunks.go]
      split
      · rw [ih]
        simp
      · rw [ih]
        simp
  cases l with
  | nil => cases n <;> rfl
  | cons a rest =>
    cases n with
    | zero => simp [List.toChunks]
    | succ n =>
      rw [List.toChunks]
      · rw [hgo]
        simp
      · exact fun h => absurd h (by simp)

/-- An element of a list without repetitions is in exactly one of the parts that the list is cut
into. -/
theorem filter_contains [DecidableEq α] {chunks : List (List α)} (h : chunks.flatten.Nodup) {x : α}
    (hx : x ∈ chunks.flatten) :
    ∃ chunk, (chunks.filter fun chunk => chunk.contains x) = [chunk] := by
  have hdisjoint := (List.nodup_flatten.mp h).2
  obtain ⟨chunk, hchunk, hmem⟩ := List.mem_flatten.mp hx
  obtain ⟨before, after, hsplit⟩ := List.append_of_mem hchunk
  rw [hsplit] at hdisjoint
  obtain ⟨-, hafter, hbefore⟩ := List.pairwise_append.mp hdisjoint
  have hnone : ∀ other ∈ before, ¬ other.contains x = true := fun other hother hin =>
    hbefore other hother chunk List.mem_cons_self (List.contains_iff_mem.mp hin) hmem
  have hnone' : ∀ other ∈ after, ¬ other.contains x = true := fun other hother hin =>
    (List.pairwise_cons.mp hafter).1 other hother hmem (List.contains_iff_mem.mp hin)
  refine ⟨chunk, ?_⟩
  rw [hsplit, List.filter_append, List.filter_eq_nil_iff.mpr hnone, List.nil_append,
    List.filter_cons, if_pos (List.contains_iff_mem.mpr hmem), List.filter_eq_nil_iff.mpr hnone']

/-- What the parts that have an element contribute is contributed once. -/
theorem flatMap_contains [DecidableEq α] {chunks : List (List α)} (h : chunks.flatten.Nodup) {x : α}
    (hx : x ∈ chunks.flatten) (rows : List β) :
    (chunks.flatMap fun chunk => if chunk.contains x then rows else []) = rows := by
  obtain ⟨chunk, hchunk⟩ := filter_contains h hx
  have hall : ∀ chunks : List (List α),
      (chunks.flatMap fun chunk => if chunk.contains x then rows else []) =
        (chunks.filter fun chunk => chunk.contains x).flatMap fun _ => rows := by
    intro chunks
    induction chunks with
    | nil => rfl
    | cons c rest ih =>
      rw [List.flatMap_cons, List.filter_cons, ih]
      by_cases hc : c.contains x = true
      · rw [if_pos hc, if_pos hc, List.flatMap_cons]
      · rw [if_neg hc, if_neg hc, List.nil_append]
  rw [hall, hchunk, List.flatMap_cons, List.flatMap_nil, List.append_nil]

/-- What the chunks that have an element contribute is contributed once. -/
theorem flatMap_toChunks [DecidableEq α] (n : ℕ) {l : List α} (h : l.Nodup) {x : α} (hx : x ∈ l)
    (rows : List β) :
    ((l.toChunks n).flatMap fun chunk => if chunk.contains x then rows else []) = rows := by
  rw [← flatten_toChunks n l] at h hx
  exact flatMap_contains h hx rows

/-- What the chunks that have an element count is counted once. -/
theorem sum_toChunks [DecidableEq α] (n : ℕ) {l : List α} (h : l.Nodup) {x : α} (hx : x ∈ l)
    (count : ℕ) :
    ((l.toChunks n).map fun chunk => if chunk.contains x then count else 0).sum = count := by
  have hrows := congrArg List.length (flatMap_toChunks n h hx (List.replicate count ()))
  rw [List.length_flatMap, List.length_replicate] at hrows
  refine Eq.trans (congrArg List.sum (List.map_congr_left fun chunk _ => ?_)) hrows
  split
  · rw [List.length_replicate]
  · rfl

end Tellodb.Collections
