import Mathlib.Algebra.BigOperators.Group.List.Basic
import Mathlib.Data.List.Induction
import Mathlib.Data.List.Nodup

/-!
# Sums by key

A map that adds up what comes under each key. What it has under a key is the sum of what came under
it (`lookup_tally`), and it has the keys that came up, each once (`mem_keys_tally`, `nodup_tally`).
-/

namespace Tellodb.Collections

variable {κ K : Type*} [DecidableEq κ] [AddMonoid K]

/-- What comes under a key is added to what is there, or to zero. -/
def tallyStep : List (κ × K) → κ × K → List (κ × K)
  | [], e => [(e.1, 0 + e.2)]
  | p :: t, e => if p.1 = e.1 then (p.1, p.2 + e.2) :: t else p :: tallyStep t e

/-- The map after some entries. -/
def tally (t : List (κ × K)) (es : List (κ × K)) : List (κ × K) :=
  es.foldl tallyStep t

/-- The sum of what comes under a key. -/
def sumUnder (k : κ) (es : List (κ × K)) : K :=
  ((es.filter fun e => e.1 = k).map Prod.snd).sum

/-- The sum under a key adds up over two lists. -/
theorem sumUnder_append (k : κ) (es es' : List (κ × K)) :
    sumUnder k (es ++ es') = sumUnder k es + sumUnder k es' := by
  unfold sumUnder
  rw [List.filter_append, List.map_append, List.sum_append]

/-- An entry counts under its own key. -/
theorem sumUnder_singleton (k : κ) (e : κ × K) :
    sumUnder k [e] = if e.1 = k then e.2 else 0 := by
  unfold sumUnder
  by_cases hk : e.1 = k
  · simp [hk]
  · simp [hk]

/-- Without an entry the sum is zero. -/
theorem sumUnder_of_notMem {k : κ} {es : List (κ × K)} (h : k ∉ es.map Prod.fst) :
    sumUnder k es = 0 := by
  unfold sumUnder
  rw [List.filter_eq_nil_iff.mpr]
  · rfl
  · exact fun e he hk => h (of_decide_eq_true hk ▸ List.mem_map_of_mem he)

/-- The order of the entries makes no difference to the sum. -/
theorem sumUnder_perm {K : Type*} [AddCommMonoid K] {k : κ} {es es' : List (κ × K)}
    (h : es.Perm es') : sumUnder k es = sumUnder k es' :=
  ((h.filter _).map _).sum_eq

/-- A key that comes up once has what comes under it then. -/
theorem sumUnder_of_mem {es : List (κ × K)} (h : (es.map Prod.fst).Nodup) {k : κ} {v : K}
    (hv : (k, v) ∈ es) : sumUnder k es = v := by
  have hfilter : (es.filter fun e => e.1 = k) = [(k, v)] := by
    induction es with
    | nil => exact absurd hv List.not_mem_nil
    | cons e es ih =>
      obtain ⟨hnew, hrest⟩ := List.nodup_cons.mp h
      rcases List.mem_cons.mp hv with rfl | hv
      · rw [List.filter_cons_of_pos (by simp), List.filter_eq_nil_iff.mpr]
        intro e he hk
        have hkey : e.1 = k := of_decide_eq_true hk
        exact hnew (List.mem_map.mpr ⟨e, he, hkey⟩)
      · have hne : e.1 ≠ k := fun hk => hnew (hk ▸ List.mem_map_of_mem hv)
        rw [List.filter_cons_of_neg (by simpa using hne)]
        exact ih hrest hv
  unfold sumUnder
  rw [hfilter, List.map_singleton, List.sum_singleton]

/-- The sum under a key adds up over many lists. -/
theorem sumUnder_flatMap {α : Type*} (k : κ) (l : List α) (f : α → List (κ × K)) :
    sumUnder k (l.flatMap f) = (l.map fun a => sumUnder k (f a)).sum := by
  induction l with
  | nil => rfl
  | cons a l ih => rw [List.flatMap_cons, sumUnder_append, ih, List.map_cons, List.sum_cons]

/-- A list of pairs has a pair exactly if it finds it, if the keys are distinct. -/
theorem lookup_eq_some_iff_mem {V : Type*} {t : List (κ × V)} (h : (t.map Prod.fst).Nodup)
    {k : κ} {v : V} : t.lookup k = some v ↔ (k, v) ∈ t := by
  have hmem : ∀ v, t.lookup k = some v → (k, v) ∈ t := by
    intro v hlookup
    obtain ⟨before, after, hsplit, -⟩ := List.lookup_eq_some_iff.mp hlookup
    rw [hsplit]
    exact List.mem_append_right _ List.mem_cons_self
  refine ⟨hmem v, fun hv => ?_⟩
  cases hlookup : t.lookup k with
  | none =>
    have hnone := List.lookup_eq_none_iff.mp hlookup _ hv
    simp at hnone
  | some w =>
    exact congrArg some (Prod.mk.inj (List.inj_on_of_nodup_map h (hmem w hlookup) hv rfl)).2

/-! ## One entry -/

/-- What the map has under a key after one more entry. -/
theorem lookup_tallyStep (t : List (κ × K)) (e : κ × K) (k : κ) :
    (tallyStep t e).lookup k =
      if k = e.1 then some ((t.lookup k).getD 0 + e.2) else t.lookup k := by
  induction t with
  | nil =>
    unfold tallyStep
    by_cases hk : k = e.1
    · rw [if_pos hk, hk, List.lookup_nil, Option.getD_none, zero_add]
      exact List.lookup_cons_self
    · simp [hk]
  | cons p t ih =>
    obtain ⟨key, value⟩ := p
    unfold tallyStep
    -- The key is the first one, or its count is further on.
    by_cases hp : key = e.1
    · rw [if_pos hp]
      by_cases hk : k = e.1
      · simp [hk, hp]
      · have hkey : (k == key) = false := beq_eq_false_iff_ne.mpr (by rw [hp]; exact hk)
        simp [hk, List.lookup_cons, hkey]
    · rw [if_neg hp]
      by_cases hk : k = key
      · subst hk
        simp [hp]
      · have hkey : (k == key) = false := beq_eq_false_iff_ne.mpr hk
        simp only [List.lookup_cons, hkey]
        exact ih

/-- The keys after one more entry. -/
theorem keys_tallyStep (t : List (κ × K)) (e : κ × K) :
    (tallyStep t e).map Prod.fst =
      if e.1 ∈ t.map Prod.fst then t.map Prod.fst else t.map Prod.fst ++ [e.1] := by
  induction t with
  | nil => rfl
  | cons p t ih =>
    unfold tallyStep
    by_cases hp : p.1 = e.1
    · rw [if_pos hp, if_pos (by rw [List.map_cons, hp]; exact List.mem_cons_self)]
      rfl
    · rw [if_neg hp, List.map_cons, ih, List.map_cons]
      by_cases he : e.1 ∈ t.map Prod.fst
      · rw [if_pos he, if_pos (List.mem_cons_of_mem _ he)]
      · rw [if_neg he, if_neg]
        · rfl
        · exact fun hmem => (List.mem_cons.mp hmem).elim (fun heq => hp heq.symm) he

/-! ## Many entries -/

/-- What the map has under a key is the sum of what came under it. -/
theorem lookup_tally (t es : List (κ × K)) (k : κ) :
    (tally t es).lookup k = if k ∈ es.map Prod.fst then
      some ((t.lookup k).getD 0 + sumUnder k es) else t.lookup k := by
  induction es using List.reverseRecOn with
  | nil => rfl
  | append_singleton es e ih =>
    have hstep : tally t (es ++ [e]) = tallyStep (tally t es) e := by
      unfold tally
      rw [List.foldl_append, List.foldl_cons, List.foldl_nil]
    rw [hstep, lookup_tallyStep, ih, sumUnder_append, sumUnder_singleton, List.map_append,
      List.map_singleton]
    by_cases hk : k = e.1
    · have hmem : k ∈ es.map Prod.fst ++ [e.1] :=
        List.mem_append_right _ (List.mem_singleton.mpr hk)
      rw [if_pos hk, if_pos hmem, if_pos hk.symm, ← add_assoc]
      by_cases hes : k ∈ es.map Prod.fst
      · rw [if_pos hes, Option.getD_some]
      · rw [if_neg hes, sumUnder_of_notMem hes, add_zero]
    · rw [if_neg hk, if_neg (Ne.symm hk), add_zero]
      refine if_congr ?_ rfl rfl
      rw [List.mem_append, List.mem_singleton]
      exact ⟨.inl, fun h => h.resolve_right hk⟩

/-- Each key once. -/
theorem nodup_tally {t : List (κ × K)} (h : (t.map Prod.fst).Nodup) (es : List (κ × K)) :
    ((tally t es).map Prod.fst).Nodup := by
  induction es generalizing t with
  | nil => exact h
  | cons e es ih =>
    refine ih ?_
    rw [keys_tallyStep]
    split
    · exact h
    · rename_i hnew
      exact List.nodup_append.mpr ⟨h, List.nodup_singleton _, fun a ha b hb hab =>
        hnew (List.mem_singleton.mp hb ▸ hab ▸ ha)⟩

/-- The map of some entries has each key that came up, with the sum of what came under it. -/
theorem mem_tally_iff {es : List (κ × K)} {k : κ} {v : K} :
    (k, v) ∈ tally [] es ↔ k ∈ es.map Prod.fst ∧ v = sumUnder k es := by
  have hnil : (([] : List (κ × K)).map Prod.fst).Nodup := List.nodup_nil
  have hnodup := nodup_tally hnil es
  rw [← lookup_eq_some_iff_mem hnodup, lookup_tally]
  by_cases hk : k ∈ es.map Prod.fst
  · rw [if_pos hk, List.lookup_nil, Option.getD_none, zero_add, Option.some_inj]
    exact ⟨fun h => ⟨hk, h.symm⟩, fun h => h.2.symm⟩
  · rw [if_neg hk]
    exact ⟨fun h => absurd h (by simp), fun h => absurd h.1 hk⟩

end Tellodb.Collections
