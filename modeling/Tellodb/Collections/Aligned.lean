import Mathlib.Algebra.GroupWithZero.Nat
import Mathlib.Data.List.Induction
import Mathlib.Data.List.Zip
import Mathlib.Logic.Function.Basic

/-!
# Lists in line

Lists that belong together place by place stay so when both lose the same places (`zip_retain`).
The elements that are kept have consecutive places if none of them comes after one that is not
(`map_snd_filter_zipIdx_iff`). What is computed once for every value of a list is found again
through the index of the value (`getElem?_uniques`). -/

namespace Tellodb.Collections

variable {α β : Type}

/-- An element of a list has a counterpart in a list that is in line with it. -/
theorem exists_of_forall₂ {r : α → β → Prop} {l : List α} {m : List β} (h : List.Forall₂ r l m)
    {a : α} (ha : a ∈ l) : ∃ b ∈ m, r a b := by
  induction h with
  | nil => exact absurd ha List.not_mem_nil
  | cons hab _ ih =>
    rcases List.mem_cons.mp ha with rfl | hrest
    · exact ⟨_, List.mem_cons_self, hab⟩
    · obtain ⟨b, hb, hr⟩ := ih hrest
      exact ⟨b, List.mem_cons_of_mem _ hb, hr⟩

/-! ## Flags -/

/-- The elements whose flag is set. -/
def retain (keep : List Bool) (l : List α) : List α :=
  ((l.zip keep).filter Prod.snd).map Prod.fst

/-- The flags are taken one by one. -/
theorem retain_cons (flag : Bool) (keep : List Bool) (a : α) (l : List α) :
    retain (flag :: keep) (a :: l) = (if flag then [a] else []) ++ retain keep l := by
  unfold retain
  cases flag <;> rfl

/-- Flags that are computed from the elements filter them. -/
theorem retain_map (p : α → Bool) (l : List α) : retain (l.map p) l = l.filter p := by
  induction l with
  | nil => rfl
  | cons a l ih =>
    rw [List.map_cons, retain_cons, ih]
    cases hp : p a with
    | true => rw [List.filter_cons_of_pos hp]; rfl
    | false => rw [List.filter_cons_of_neg (by simp [hp])]; rfl

/-- Some elements are left, in their order. -/
theorem retain_sublist (keep : List Bool) (l : List α) : (retain keep l).Sublist l := by
  induction l generalizing keep with
  | nil => exact List.Sublist.refl _
  | cons a l ih =>
    cases keep with
    | nil => exact List.nil_sublist _
    | cons flag keep =>
      rw [retain_cons]
      cases flag with
      | true => exact (ih keep).cons_cons a
      | false => exact (ih keep).cons a

/-- Lists that lose the same places stay in line. -/
theorem zip_retain {keep : List Bool} {l : List α} {m : List β} (h : l.length = m.length) :
    (retain keep l).zip (retain keep m) = retain keep (l.zip m) := by
  induction l generalizing keep m with
  | nil => rfl
  | cons a l ih =>
    cases m with
    | nil => exact absurd h (by simp)
    | cons b m =>
      cases keep with
      | nil => rfl
      | cons flag keep =>
        rw [List.zip_cons_cons, retain_cons, retain_cons, retain_cons,
          ← ih (Nat.succ.inj h)]
        cases flag <;> rfl

/-- Lists of one length that lose the same places have one length. -/
theorem length_retain (keep : List Bool) {l : List α} {m : List β} (h : l.length = m.length) :
    (retain keep l).length = (retain keep m).length := by
  induction l generalizing keep m with
  | nil =>
    obtain rfl := List.length_eq_zero_iff.mp h.symm
    rfl
  | cons a l ih =>
    cases m with
    | nil => exact absurd h (by simp)
    | cons b m =>
      cases keep with
      | nil => rfl
      | cons flag keep =>
        rw [retain_cons, retain_cons, List.length_append, List.length_append,
          ih keep (Nat.succ.inj h)]
        cases flag <;> rfl

/-! ## Places -/

/-- The places of the elements that are kept are consecutive from the first one on if no element is
kept after one that is not. -/
theorem map_snd_filter_zipIdx_iff (q : α × ℕ → Bool) (l : List α) (k : ℕ) :
    ((l.zipIdx k).filter q).map Prod.snd = List.range' k ((l.zipIdx k).filter q).length ↔
      (l.zipIdx k).Pairwise fun a b => q a = false → q b = false := by
  induction l generalizing k with
  | nil => simp
  | cons a l ih =>
    rw [List.zipIdx_cons, List.pairwise_cons]
    cases hq : q (a, k) with
    | true =>
      rw [List.filter_cons_of_pos hq, List.map_cons, List.length_cons, List.range'_succ,
        List.cons.injEq, ih]
      simp
    | false =>
      rw [List.filter_cons_of_neg (by simp [hq])]
      constructor
      · intro h
        have hnil : (l.zipIdx (k + 1)).filter q = [] := by
          by_contra hne
          obtain ⟨b, rest, hcons⟩ := List.exists_cons_of_ne_nil hne
          -- The first place that is kept comes after the one that is not.
          have hmem : b ∈ l.zipIdx (k + 1) :=
            List.mem_of_mem_filter (hcons ▸ List.mem_cons_self)
          rw [hcons, List.map_cons, List.length_cons, List.range'_succ] at h
          have hfirst := (List.cons.inj h).1
          have hle := List.le_snd_of_mem_zipIdx hmem
          omega
        have hnone : ∀ b ∈ l.zipIdx (k + 1), q b = false := fun b hb =>
          Bool.eq_false_iff.mpr (List.filter_eq_nil_iff.mp hnil b hb)
        exact ⟨fun b hb _ => hnone b hb,
          List.pairwise_of_forall_mem_list fun _ _ b hb _ => hnone b hb⟩
      · rintro ⟨hnone, -⟩
        have hnil : (l.zipIdx (k + 1)).filter q = [] :=
          List.filter_eq_nil_iff.mpr fun b hb => by simp [hnone b hb rfl]
        rw [hnil]
        rfl
/-! ## Values and their indexes -/

section

variable [DecidableEq α]

/-- The values of a list, each once in the order in which they come first, with the index of
each. -/
def uniques (l : List α) : List α × (α → Option ℕ) :=
  l.foldl (fun u a => if (u.2 a).isSome then u
    else (u.1 ++ [a], Function.update u.2 a (some u.1.length))) ([], fun _ => none)

/-- One more item is new, or has its place already. -/
theorem uniques_concat (l : List α) (a : α) :
    uniques (l ++ [a]) = if ((uniques l).2 a).isSome then uniques l
      else ((uniques l).1 ++ [a], Function.update (uniques l).2 a (some (uniques l).1.length)) := by
  unfold uniques
  rw [List.foldl_append]
  rfl

/-- An index leads to its value. -/
theorem getElem?_uniques {l : List α} {a : α} {i : ℕ} (h : (uniques l).2 a = some i) :
    (uniques l).1[i]? = some a := by
  induction l using List.reverseRecOn generalizing i with
  | nil => exact absurd h (by simp [uniques])
  | append_singleton l b ih =>
    rw [uniques_concat] at h ⊢
    split at h
    · rename_i hsome
      rw [if_pos hsome]
      exact ih h
    · rename_i hnone
      rw [if_neg hnone]
      dsimp only at h ⊢
      by_cases hab : a = b
      · subst hab
        rw [Function.update_self] at h
        rw [← Option.some.inj h]
        exact List.getElem?_concat_length
      · rw [Function.update_of_ne hab] at h
        have hold := ih h
        rw [List.getElem?_append_left (List.getElem?_eq_some_iff.mp hold).1]
        exact hold

end

end Tellodb.Collections
