import Mathlib.Data.List.Nodup
import Tellodb.Collections.Tally

/-!
# Maps of entries

A map as the list of its entries, each key once and in no particular order. An entry is changed or
added (`upsert`), and many are one after the other (`upsertAll`): what is under a key is then what
came under it folded in turn (`lookup_upsertAll`), with an operation of which nothing is asked. Two
maps that find the same are permutations of each other (`perm_of_lookup`), so that a map that is
sorted by something in which its keys differ does not show in which order it was. -/

namespace Tellodb.Collections

variable {κ ν β : Type*} [DecidableEq κ]

/-- The keys are distinct. -/
def Distinct (m : List (κ × ν)) : Prop :=
  (m.map Prod.fst).Nodup

/-- The entry of a key is changed, or added. -/
def upsert (m : List (κ × ν)) (k : κ) (f : Option ν → ν) : List (κ × ν) :=
  (k, f (m.lookup k)) :: m.filter fun e => e.1 ≠ k

/-- What comes under the keys is taken up one after the other. -/
def upsertAll (g : Option ν → β → ν) (m : List (κ × ν)) (es : List (κ × β)) : List (κ × ν) :=
  es.foldl (fun m e => upsert m e.1 fun old => g old e.2) m

/-- What comes under a key, in turn. -/
def under (k : κ) (es : List (κ × β)) : List β :=
  (es.filter fun e => e.1 = k).map Prod.snd

/-! ## One entry -/

omit [DecidableEq κ] in
/-- The empty map has its keys once. -/
theorem distinct_nil : Distinct ([] : List (κ × ν)) := List.nodup_nil

omit [DecidableEq κ] in
/-- The order of the entries makes no difference to this. -/
theorem Distinct.perm {m m' : List (κ × ν)} (h : Distinct m) (hperm : m'.Perm m) : Distinct m' :=
  (hperm.map Prod.fst).nodup_iff.mpr h

/-- What is found under a key is the entry with the key. -/
theorem Distinct.lookup_eq_some {m : List (κ × ν)} (h : Distinct m) {k : κ} {v : ν} :
    m.lookup k = some v ↔ (k, v) ∈ m :=
  lookup_eq_some_iff_mem h

/-- What is found does not depend on the order of the entries. -/
theorem Distinct.lookup_perm {m m' : List (κ × ν)} (h : Distinct m) (hperm : m'.Perm m) (k : κ) :
    m'.lookup k = m.lookup k := by
  refine Option.ext fun v => ?_
  rw [(h.perm hperm).lookup_eq_some, h.lookup_eq_some, hperm.mem_iff]

/-- Without the entries of a key the others are found as before. -/
theorem lookup_filter_ne {m : List (κ × ν)} {k k' : κ} (h : k' ≠ k) :
    (m.filter fun e => e.1 ≠ k).lookup k' = m.lookup k' := by
  induction m with
  | nil => rfl
  | cons e m ih =>
    obtain ⟨key, value⟩ := e
    by_cases hkey : key = k
    · subst hkey
      rw [List.filter_cons_of_neg (by simp), ih, List.lookup_cons, beq_eq_false_iff_ne.mpr h]
    · rw [List.filter_cons_of_pos (by simpa using hkey), List.lookup_cons, List.lookup_cons, ih]

/-- What is found when an entry is changed or added. -/
theorem lookup_upsert (m : List (κ × ν)) (k : κ) (f : Option ν → ν) (k' : κ) :
    (upsert m k f).lookup k' = if k' = k then some (f (m.lookup k)) else m.lookup k' := by
  unfold upsert
  by_cases hk : k' = k
  · rw [if_pos hk, hk]
    exact List.lookup_cons_self
  · rw [if_neg hk, List.lookup_cons, beq_eq_false_iff_ne.mpr hk]
    exact lookup_filter_ne hk

/-- A write keeps the keys distinct. -/
theorem Distinct.upsert {m : List (κ × ν)} (h : Distinct m) (k : κ) (f : Option ν → ν) :
    Distinct (upsert m k f) := by
  refine List.nodup_cons.mpr ⟨?_, (List.filter_sublist.map _).nodup h⟩
  intro hmem
  obtain ⟨e, he, hkey⟩ := List.mem_map.mp hmem
  exact of_decide_eq_true (List.mem_filter.mp he).2 hkey

/-! ## Many entries -/

/-- What is under a key is what was there, with what came under the key folded in. -/
theorem lookup_upsertAll (g : Option ν → β → ν) (m : List (κ × ν)) (es : List (κ × β)) (k : κ) :
    (upsertAll g m es).lookup k =
      (under k es).foldl (fun old b => some (g old b)) (m.lookup k) := by
  induction es generalizing m with
  | nil => rfl
  | cons e es ih =>
    refine (ih (upsert m e.1 fun old => g old e.2)).trans ?_
    unfold under
    rw [lookup_upsert]
    by_cases hk : k = e.1
    · have hfilter : ((e :: es).filter fun e => e.1 = k) = e :: es.filter fun e => e.1 = k :=
        List.filter_cons_of_pos (decide_eq_true hk.symm)
      rw [if_pos hk, hfilter, List.map_cons, List.foldl_cons, hk]
    · rw [if_neg hk, List.filter_cons_of_neg (by simpa using Ne.symm hk)]

/-- So do several. -/
theorem Distinct.upsertAll {m : List (κ × ν)} (h : Distinct m) (g : Option ν → β → ν)
    (es : List (κ × β)) : Distinct (upsertAll g m es) := by
  induction es generalizing m with
  | nil => exact h
  | cons e es ih => exact ih (h.upsert e.1 fun old => g old e.2)

/-- Folding something in leaves something. -/
theorem foldl_some_eq (g : Option ν → β → ν) (old : Option ν) (b : β) (bs : List β) :
    (b :: bs).foldl (fun old b => some (g old b)) old =
      some (bs.foldl (fun v b => g (some v) b) (g old b)) := by
  rw [List.foldl_cons]
  induction bs generalizing old b with
  | nil => rfl
  | cons c bs ih =>
    rw [List.foldl_cons, List.foldl_cons]
    exact ih (some (g old b)) c

/-- The keys are those that were there and those that came. -/
theorem isSome_lookup_upsertAll (g : Option ν → β → ν) (m : List (κ × ν)) (es : List (κ × β))
    (k : κ) : ((upsertAll g m es).lookup k).isSome ↔ (m.lookup k).isSome ∨ k ∈ es.map Prod.fst := by
  have hkeys : k ∈ es.map Prod.fst ↔ under k es ≠ [] := by
    unfold under
    rw [ne_eq, List.map_eq_nil_iff, List.filter_eq_nil_iff, List.mem_map]
    simp
  rw [lookup_upsertAll, hkeys]
  cases hunder : under k es with
  | nil => simp
  | cons b bs =>
    rw [foldl_some_eq]
    simp

/-- What comes under a key comes with it. -/
@[simp] theorem mem_under {k : κ} {es : List (κ × β)} {b : β} : b ∈ under k es ↔ (k, b) ∈ es := by
  unfold under
  rw [List.mem_map]
  constructor
  · rintro ⟨e, he, rfl⟩
    obtain ⟨hmem, hkey⟩ := List.mem_filter.mp he
    exact of_decide_eq_true hkey ▸ hmem
  · exact fun h => ⟨(k, b), List.mem_filter.mpr ⟨h, decide_eq_true rfl⟩, rfl⟩

/-- Where the last one counts, what is found came under the key, or was there. -/
theorem mem_of_lookup_upsertAll {m es : List (κ × ν)} {k : κ} {v : ν}
    (h : (upsertAll (fun _ new => new) m es).lookup k = some v) :
    (k, v) ∈ es ∨ m.lookup k = some v := by
  rw [lookup_upsertAll] at h
  rcases List.eq_nil_or_concat (under k es) with hnil | ⟨bs, b, hconcat⟩
  · rw [hnil] at h
    exact .inr h
  · rw [hconcat, List.concat_eq_append, List.foldl_append] at h
    refine .inl (mem_under.mp ?_)
    rw [hconcat, List.concat_eq_append, ← Option.some.inj h]
    exact List.mem_append_right _ (List.mem_singleton_self b)

/-- Of entries with distinct keys at most one comes under a key. -/
theorem Distinct.under_eq {es : List (κ × β)} (h : Distinct es) (k : κ) :
    under k es = (es.lookup k).toList := by
  unfold under
  induction es with
  | nil => rfl
  | cons e es ih =>
    obtain ⟨hnew, hrest⟩ := List.nodup_cons.mp h
    obtain ⟨key, value⟩ := e
    by_cases hk : k = key
    · subst hk
      rw [List.filter_cons_of_pos (by simp), List.lookup_cons_self, List.filter_eq_nil_iff.mpr]
      · rfl
      · intro e he hkey
        exact hnew (List.mem_map.mpr ⟨e, he, of_decide_eq_true hkey⟩)
    · rw [List.filter_cons_of_neg (by simpa using Ne.symm hk), List.lookup_cons,
        beq_eq_false_iff_ne.mpr hk]
      exact ih hrest

/-- The values under a key, entry by entry. -/
theorem under_cons (k : κ) (e : κ × β) (es : List (κ × β)) :
    under k (e :: es) = if e.1 = k then e.2 :: under k es else under k es := by
  unfold under
  split_ifs with hk
  · exact congrArg (List.map Prod.snd) (List.filter_cons_of_pos (decide_eq_true hk))
  · exact congrArg (List.map Prod.snd) (List.filter_cons_of_neg (by simpa using hk))

/-- The values under a key in two lists. -/
theorem under_append (k : κ) (es es' : List (κ × β)) :
    under k (es ++ es') = under k es ++ under k es' := by
  unfold under
  rw [List.filter_append, List.map_append]

/-- The values under a key in many lists. -/
theorem under_flatMap {α : Type*} (k : κ) (l : List α) (f : α → List (κ × β)) :
    under k (l.flatMap f) = l.flatMap fun a => under k (f a) := by
  induction l with
  | nil => rfl
  | cons a l ih => rw [List.flatMap_cons, under_append, ih, List.flatMap_cons]

/-! ## Maps that are made of others -/

omit [DecidableEq κ] in
/-- New values keep the keys distinct. -/
theorem Distinct.map_snd {μ : Type*} {m : List (κ × ν)} (h : Distinct m) (f : ν → μ) :
    Distinct (m.map fun e => (e.1, f e.2)) := by
  unfold Distinct
  rw [List.map_map]
  exact h

/-- New values are found in the places of the old ones. -/
theorem lookup_map_snd {μ : Type*} (m : List (κ × ν)) (f : ν → μ) (k : κ) :
    (m.map fun e => (e.1, f e.2)).lookup k = (m.lookup k).map f := by
  induction m with
  | nil => rfl
  | cons e m ih =>
    rw [List.map_cons, List.lookup_cons, List.lookup_cons, ih]
    cases k == e.1 <;> rfl

omit [DecidableEq κ] in
/-- A list of distinct keys makes a map. -/
theorem distinct_map_key {keys : List κ} (h : keys.Nodup) (f : κ → ν) :
    Distinct (keys.map fun k => (k, f k)) := by
  unfold Distinct
  rw [List.map_map]
  exact (List.map_id keys).symm ▸ h

/-- What a function gives to some keys. -/
theorem lookup_map_key (keys : List κ) (f : κ → ν) (k : κ) :
    (keys.map fun k => (k, f k)).lookup k = if k ∈ keys then some (f k) else none := by
  induction keys with
  | nil => rfl
  | cons key keys ih =>
    rw [List.map_cons, List.lookup_cons, ih]
    by_cases hk : k = key
    · rw [hk, beq_self_eq_true, if_pos List.mem_cons_self]
    · rw [beq_eq_false_iff_ne.mpr hk]
      exact if_congr ((List.mem_cons.trans (or_iff_right hk)).symm) rfl rfl

/-- Maps that find the same have the same entries. -/
theorem perm_of_lookup {m m' : List (κ × ν)} (h : Distinct m) (h' : Distinct m')
    (hsame : ∀ k, m.lookup k = m'.lookup k) : m.Perm m' := by
  refine (List.perm_ext_iff_of_nodup h.of_map h'.of_map).mpr fun e => ?_
  obtain ⟨k, v⟩ := e
  rw [← h.lookup_eq_some, ← h'.lookup_eq_some, hsame]

end Tellodb.Collections
