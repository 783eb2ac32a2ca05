import Mathlib.Data.List.Induction
import Mathlib.Data.List.Basic
import Mathlib.Data.List.Nodup

/-!
# The last of a row

What is written to a row last is what stays there. A list that is written with every element only at
its first place leaves the same in every row exactly if, in each row, the element that comes last is
also the last to come first (`inTurn_iff`). Values that are put in front of a list one by one leave
there the ones that come last, the last one first (`foldl_moveToFront`). -/

namespace Tellodb.Collections

variable {α κ : Type}

/-! ## First places -/

section

variable [BEq α] [LawfulBEq α]

/-- A list without repetitions grows by an element that is new. -/
theorem eraseDups_concat (l : List α) (a : α) :
    (l ++ [a]).eraseDups = if a ∈ l then l.eraseDups else l.eraseDups ++ [a] := by
  rw [List.eraseDups_append]
  by_cases ha : a ∈ l
  · rw [if_pos ha]
    simp [List.removeAll, ha]
  · rw [if_neg ha]
    simp [List.removeAll, ha, List.eraseDups_cons]

/-- A part of the values has its first places in the same order. -/
theorem eraseDups_filter (l : List α) (p : α → Bool) :
    (l.filter p).eraseDups = l.eraseDups.filter p := by
  induction l using List.reverseRecOn with
  | nil => rfl
  | append_singleton l a ih =>
    rw [List.filter_append, List.filter_singleton, eraseDups_concat]
    cases hp : p a with
    | false =>
      rw [cond_false, List.append_nil, ih]
      split
      · rfl
      · rw [List.filter_append, List.filter_singleton, hp, cond_false, List.append_nil]
    | true =>
      rw [cond_true, eraseDups_concat]
      by_cases ha : a ∈ l
      · rw [if_pos ha, if_pos (List.mem_filter.mpr ⟨ha, hp⟩), ih]
      · rw [if_neg ha, if_neg fun h => ha (List.mem_filter.mp h).1, ih, List.filter_append,
          List.filter_singleton, hp, cond_true]

end

/-! ## Last places -/

/-- A value is put in front of a list, in which it is no more behind, and the list is cut. -/
def moveToFront [BEq α] (n : ℕ) (l : List α) (a : α) : List α :=
  (a :: l.erase a).take n

/-- The values of a list, each once, the one that comes last first. -/
def recents [BEq α] (l : List α) : List α :=
  l.reverse.eraseDups

/-- The first values stay the same when one is taken out of them or of all. -/
theorem take_erase_take [BEq α] (l : List α) (a : α) (n : ℕ) :
    ((l.take (n + 1)).erase a).take n = (l.erase a).take n := by
  induction l generalizing n with
  | nil => rfl
  | cons b l ih =>
    rw [List.take_succ_cons, List.erase_cons, List.erase_cons]
    split
    · exact (List.take_take).trans (by rw [Nat.min_self])
    · cases n with
      | zero => rfl
      | succ n => rw [List.take_succ_cons, List.take_succ_cons, ih]

/-- A list without repetitions that begins as it ends has one value at most. -/
theorem length_le_one_of_head?_eq_getLast? {l : List α} (hl : l.Nodup)
    (h : l.head? = l.getLast?) : l.length ≤ 1 := by
  cases l with
  | nil => exact Nat.zero_le _
  | cons a l =>
    rcases List.eq_nil_or_concat l with rfl | ⟨l, b, rfl⟩
    · exact Nat.le_refl _
    · rw [List.concat_eq_append, ← List.cons_append, List.getLast?_concat, List.cons_append,
        List.head?_cons] at h
      rw [Option.some.inj h] at hl
      exact absurd hl (by simp)

section

variable [BEq α] [LawfulBEq α]

/-- What is left without repetitions has none. -/
theorem nodup_eraseDups (l : List α) : l.eraseDups.Nodup := by
  induction l using List.reverseRecOn with
  | nil => exact List.nodup_nil
  | append_singleton l a ih =>
    rw [eraseDups_concat]
    split
    · exact ih
    · rename_i ha
      rw [← List.concat_eq_append, List.nodup_concat]
      exact ⟨fun hmem => ha (List.mem_eraseDups.mp hmem), ih⟩

/-- The most recent items are listed once. -/
theorem nodup_recents (l : List α) : (recents l).Nodup :=
  nodup_eraseDups _

/-- All items are among them. -/
theorem mem_recents {l : List α} {a : α} : a ∈ recents l ↔ a ∈ l := by
  unfold recents
  rw [List.mem_eraseDups, List.mem_reverse]

/-- What comes last comes first, and behind it is no more. -/
theorem recents_concat (l : List α) (a : α) : recents (l ++ [a]) = a :: (recents l).erase a := by
  unfold recents
  rw [List.reverse_append, List.reverse_singleton, List.singleton_append, List.eraseDups_cons,
    eraseDups_filter, (nodup_eraseDups _).erase_eq_filter]
  rfl

/-- The last item is the most recent one. -/
theorem head?_recents (l : List α) : (recents l).head? = l.getLast? := by
  rcases List.eq_nil_or_concat l with rfl | ⟨l, a, rfl⟩
  · rfl
  · rw [List.concat_eq_append, recents_concat, List.getLast?_concat, List.head?_cons]

/-- Values that are put in front one by one leave the ones put last. -/
theorem foldl_moveToFront (n : ℕ) (before l : List α) :
    l.foldl (moveToFront n) ((recents before).take n) = (recents (before ++ l)).take n := by
  induction l using List.reverseRecOn with
  | nil => rw [List.append_nil, List.foldl_nil]
  | append_singleton l a ih =>
    rw [List.foldl_append, List.foldl_cons, List.foldl_nil, ih, ← List.append_assoc, recents_concat]
    unfold moveToFront
    cases n with
    | zero => rfl
    | succ n => rw [List.take_succ_cons, List.take_succ_cons, take_erase_take]

/-- What is put in front does not depend on what else came before. -/
theorem recents_append_congr {before before' : List α} (h : recents before = recents before')
    (l : List α) : recents (before ++ l) = recents (before' ++ l) := by
  induction l using List.reverseRecOn with
  | nil => rw [List.append_nil, List.append_nil, h]
  | append_singleton l a ih =>
    rw [← List.append_assoc, ← List.append_assoc, recents_concat, recents_concat, ih]

/-- One value, however often, is put in front as if it came once. -/
theorem recents_append_replicate (before : List α) (a : α) (n : ℕ) :
    recents (before ++ List.replicate (n + 1) a) = a :: (recents before).erase a := by
  induction n with
  | zero => exact recents_concat before a
  | succ n ih =>
    rw [List.replicate_succ', ← List.append_assoc, recents_concat, ih, List.erase_cons_head]

/-- Values that are all the same are put in front as the one they are. -/
theorem recents_append_recents {l : List α} (h : ∀ a ∈ l, ∀ b ∈ l, a = b) (before : List α) (n : ℕ) :
    recents (before ++ (recents l).take (n + 1)) = recents (before ++ l) := by
  cases l with
  | nil => simp [recents]
  | cons a l =>
    have hall : a :: l = List.replicate (l.length + 1) a :=
      List.eq_replicate_iff.mpr ⟨rfl, fun b hb => h b hb a List.mem_cons_self⟩
    have hone : recents (a :: l) = [a] := by
      rw [hall]
      exact recents_append_replicate [] a l.length
    rw [hone, hall, recents_append_replicate, List.take_succ_cons, List.take_nil, recents_concat]

end

/-! ## Last writes -/

section

variable [BEq α] [LawfulBEq α] [DecidableEq κ]

/-- In each row, the element that comes last is the last to come first. -/
def InTurn (row : α → κ) (l : List α) : Prop :=
  ∀ a ∈ l, (l.filter fun b => row b = row a).getLast? =
    (l.eraseDups.filter fun b => row b = row a).getLast?

instance [DecidableEq α] (row : α → κ) (l : List α) : Decidable (InTurn row l) :=
  inferInstanceAs (Decidable (∀ a ∈ l, _ = _))

/-- A row without elements has no last one. -/
theorem inTurn_iff (row : α → κ) (l : List α) : InTurn row l ↔
    ∀ n, (l.filter fun b => row b = n).getLast? =
      (l.eraseDups.filter fun b => row b = n).getLast? := by
  refine ⟨fun h n => ?_, fun h a _ => h (row a)⟩
  by_cases hrow : ∃ a ∈ l, row a = n
  · obtain ⟨a, ha, rfl⟩ := hrow
    exact h a ha
  · have hnone : l.filter (fun b => row b = n) = [] :=
      List.filter_eq_nil_iff.mpr fun b hb => by simpa using fun hb' => hrow ⟨b, hb, hb'⟩
    rw [← eraseDups_filter, hnone]
    rfl

end

/-- Lists of the same elements leave the same in every row, over what was there, exactly if they
have the same last elements. -/
theorem written_eq_iff {δ : Type} [DecidableEq κ] {row : α → κ} {l m : List α}
    (hmem : ∀ a, a ∈ l ↔ a ∈ m) {write : α → Option δ} {old : κ → Option δ}
    (hwrite : ∀ a ∈ l, (write a).isSome)
    (hinj : ∀ a ∈ l, ∀ b ∈ l, write a = write b → a = b) :
    (∀ n, ((l.filter fun a => row a = n).getLast?.bind write).or (old n) =
        ((m.filter fun a => row a = n).getLast?.bind write).or (old n)) ↔
      ∀ n, (l.filter fun a => row a = n).getLast? = (m.filter fun a => row a = n).getLast? := by
  refine forall_congr' fun n => ⟨fun h => ?_, fun h => by rw [h]⟩
  -- The last element of a row decides what is read there, and elements are known by what they
  -- write.
  cases hl : (l.filter fun a => row a = n).getLast? with
  | none =>
    have hnone : m.filter (fun a => row a = n) = [] := by
      refine List.filter_eq_nil_iff.mpr fun a ha => ?_
      exact List.filter_eq_nil_iff.mp (List.getLast?_eq_none_iff.mp hl) a ((hmem a).mpr ha)
    rw [hnone]
    rfl
  | some a =>
    have ha : a ∈ l := (List.mem_filter.mp (List.mem_of_getLast? hl)).1
    cases hm : (m.filter fun a => row a = n).getLast? with
    | none =>
      have hrow := (List.mem_filter.mp (List.mem_of_getLast? hl)).2
      exact absurd hrow
        (List.filter_eq_nil_iff.mp (List.getLast?_eq_none_iff.mp hm) a ((hmem a).mp ha))
    | some b =>
      have hb : b ∈ l := (hmem b).mpr (List.mem_filter.mp (List.mem_of_getLast? hm)).1
      obtain ⟨x, hx⟩ := Option.isSome_iff_exists.mp (hwrite a ha)
      obtain ⟨y, hy⟩ := Option.isSome_iff_exists.mp (hwrite b hb)
      rw [hl, hm, Option.bind_some, Option.bind_some, hx, hy, Option.some_or, Option.some_or] at h
      rw [hinj a ha b hb (by rw [hx, hy, h])]

end Tellodb.Collections
