import Tellodb.Relational.Table
import Mathlib.Data.List.Sort
import Mathlib.Data.Prod.Lex

/-!
# Ordered reads of a table

`orderBy` is the result of `ORDER BY key` over a list of rows, and `firstBy` and `lastBy` are the
same read followed by `LIMIT 1` in ascending and descending direction; `sqlLimit` is any limit. Most
lemmas need that the rows carry distinct keys (`Keyed`), which an order ending in a row identifier
always gives: then the ordered list is determined by the set of rows, commutes with filters and
with updates that leave the key alone, and it splits at each of its keys. Where a limit cuts
two orders of the same rows alike is `perm_take_orderBy_iff`. -/

namespace Tellodb.Relational

variable {α β κ : Type*} [LinearOrder κ]

/-- `ORDER BY key`, rows with equal keys staying in table order. -/
def orderBy (key : α → κ) (rows : List α) : List α :=
  rows.insertionSort fun a b => key a ≤ key b

/-- `ORDER BY key LIMIT 1`. -/
def firstBy (key : α → κ) (rows : List α) : Option α :=
  (orderBy key rows).head?

/-- `ORDER BY key DESC LIMIT 1`. -/
def lastBy (key : α → κ) (rows : List α) : Option α :=
  (orderBy key rows).getLast?

/-- `LIMIT ?`, which a negative number lifts. -/
def sqlLimit (limit : Int64) (rows : List α) : List α :=
  if limit < 0 then rows else rows.take limit.toInt.toNat

/-- The rows that `LIMIT ?` leaves out. -/
def sqlRest (limit : Int64) (rows : List α) : List α :=
  if limit < 0 then [] else rows.drop limit.toInt.toNat

/-- Ordering rearranges the rows. -/
theorem orderBy_perm (key : α → κ) (rows : List α) : (orderBy key rows).Perm rows :=
  List.perm_insertionSort _ _

/-- The ordered read returns the table's rows. -/
@[simp] theorem mem_orderBy (key : α → κ) (rows : List α) (a : α) :
    a ∈ orderBy key rows ↔ a ∈ rows :=
  (orderBy_perm key rows).mem_iff

/-- The ordered read is empty exactly on an empty table. -/
@[simp] theorem orderBy_eq_nil (key : α → κ) (rows : List α) :
    orderBy key rows = [] ↔ rows = [] := by
  constructor
  · intro h
    have hp := orderBy_perm key rows
    rw [h] at hp
    exact List.nil_perm.mp hp
  · rintro rfl
    rfl

/-- The ordered rows ascend weakly. -/
theorem orderBy_pairwise_le (key : α → κ) (rows : List α) :
    (orderBy key rows).Pairwise fun a b => key a ≤ key b := by
  have : Std.Total fun a b : α => key a ≤ key b := ⟨fun a b => le_total (key a) (key b)⟩
  have : IsTrans α fun a b => key a ≤ key b := ⟨fun _ _ _ hab hbc => le_trans hab hbc⟩
  exact List.pairwise_insertionSort _ _

/-- A strictly ascending list has distinct keys. -/
theorem Keyed.of_pairwise {key : α → κ} {rows : List α}
    (h : rows.Pairwise fun a b => key a < key b) : Keyed key rows :=
  List.pairwise_map.mpr (h.imp fun hab => ne_of_lt hab)

/-- Rows with distinct keys come out strictly ascending. -/
theorem Keyed.orderBy_pairwise {key : α → κ} {rows : List α} (h : Keyed key rows) :
    (orderBy key rows).Pairwise fun a b => key a < key b := by
  have hne : (orderBy key rows).Pairwise fun a b => key a ≠ key b :=
    List.pairwise_map.mp (h.perm (orderBy_perm key rows).symm)
  exact (orderBy_pairwise_le key rows).imp₂ (fun _ _ hle hne => lt_of_le_of_ne hle hne) hne

/-- A strictly ascending list is the ordered form of every list with the same rows. -/
theorem orderBy_eq_of_pairwise {key : α → κ} {rows sorted : List α}
    (hs : sorted.Pairwise fun a b => key a < key b) (hp : sorted.Perm rows) :
    orderBy key rows = sorted := by
  have hk : Keyed key rows := (Keyed.of_pairwise hs).perm hp
  have hasymm : ∀ a b, a ∈ orderBy key rows → b ∈ sorted → key a < key b → key b < key a → a = b :=
    fun a b _ _ hab hba => absurd hab (lt_asymm hba)
  exact List.Perm.eq_of_pairwise hasymm hk.orderBy_pairwise hs
    ((orderBy_perm key rows).trans hp.symm)

/-- The ordered form depends on the rows only, not on the table order. -/
theorem Keyed.orderBy_congr {key : α → κ} {rows rows' : List α} (h : Keyed key rows)
    (hp : rows.Perm rows') : orderBy key rows' = orderBy key rows :=
  orderBy_eq_of_pairwise h.orderBy_pairwise ((orderBy_perm key rows).trans hp)

/-- A filter commutes with the order, if the rows that it keeps have distinct keys. -/
theorem orderBy_filter {key : α → κ} {rows : List α} {p : α → Bool}
    (h : Keyed key (rows.filter p)) :
    orderBy key (rows.filter p) = (orderBy key rows).filter p := by
  have hperm := (orderBy_perm key rows).filter p
  have hne : ((orderBy key rows).filter p).Pairwise fun a b => key a ≠ key b :=
    List.pairwise_map.mp (h.perm hperm.symm)
  have hle := (orderBy_pairwise_le key rows).filter p
  exact orderBy_eq_of_pairwise (hle.imp₂ (fun _ _ hle hne => lt_of_le_of_ne hle hne) hne) hperm

/-- Sorting and filtering commute when no key is repeated. -/
theorem Keyed.orderBy_filter {key : α → κ} {rows : List α} (h : Keyed key rows) (p : α → Bool) :
    orderBy key (rows.filter p) = (orderBy key rows).filter p :=
  Relational.orderBy_filter (h.filter p)

/-- Of rows with distinct keys the last one has the largest key. -/
theorem Keyed.lastBy_eq_some {key : α → κ} {rows : List α} (h : Keyed key rows) {a : α} :
    lastBy key rows = some a ↔ a ∈ rows ∧ ∀ b ∈ rows, key b ≤ key a := by
  have hsorted := orderBy_pairwise_le key rows
  constructor
  · intro hlast
    obtain ⟨front, hfront⟩ := List.getLast?_eq_some_iff.mp hlast
    rw [hfront] at hsorted
    have hmem : ∀ b, b ∈ front ++ [a] ↔ b ∈ rows := by
      intro b
      rw [← hfront, mem_orderBy]
    refine ⟨(hmem a).mp (by simp), fun b hb => ?_⟩
    -- The last row is the greatest, whether the other stands before it or is it.
    rcases List.mem_append.mp ((hmem b).mpr hb) with hbefore | hsame
    · exact (List.pairwise_append.mp hsorted).2.2 b hbefore a (List.mem_singleton_self a)
    · exact (congrArg key (List.mem_singleton.mp hsame)).le
  · rintro ⟨ha, hmax⟩
    have hne : orderBy key rows ≠ [] := fun hnil => by
      rw [(orderBy_eq_nil key rows).mp hnil] at ha
      cases ha
    obtain ⟨b, hb⟩ := Option.ne_none_iff_exists'.mp (mt List.getLast?_eq_none_iff.mp hne)
    obtain ⟨front, hfront⟩ := List.getLast?_eq_some_iff.mp hb
    have hbrows : b ∈ rows := by
      rw [← mem_orderBy key rows b, hfront]
      simp
    have hab : key a ≤ key b := by
      rw [hfront] at hsorted
      have hmem : a ∈ front ++ [b] := by
        rw [← hfront, mem_orderBy]
        exact ha
      rcases List.mem_append.mp hmem with hbefore | hsame
      · exact (List.pairwise_append.mp hsorted).2.2 a hbefore b (List.mem_singleton_self b)
      · exact (congrArg key (List.mem_singleton.mp hsame)).le
    -- Two rows with the greatest key are one row.
    have hsame : a = b := h.eq_of_mem ha hbrows (le_antisymm hab (hmax b hbrows))
    rw [hsame]
    exact hb

/-- An update that leaves the keys alone commutes with the order. -/
theorem Keyed.orderBy_map {key : α → κ} {key' : β → κ} {rows : List α} (h : Keyed key rows)
    (f : α → β) (hf : ∀ a ∈ rows, key' (f a) = key a) :
    orderBy key' (rows.map f) = (orderBy key rows).map f := by
  refine orderBy_eq_of_pairwise ?_ ((orderBy_perm key rows).map f)
  rw [List.pairwise_map]
  refine h.orderBy_pairwise.imp_of_mem fun {a b} ha hb hab => ?_
  rw [hf a ((mem_orderBy key rows a).mp ha), hf b ((mem_orderBy key rows b).mp hb)]
  exact hab

/-- The first elements of an ascending list are those up to the key of the last of them. -/
theorem mem_take_iff {key : α → κ} {sorted : List α}
    (hs : sorted.Pairwise fun a b => key a < key b) {n : ℕ} {newest : α}
    (hnewest : (sorted.take n).getLast? = some newest) {a : α} (ha : a ∈ sorted) :
    a ∈ sorted.take n ↔ key a ≤ key newest := by
  have hmem : newest ∈ sorted.take n := List.mem_of_getLast? hnewest
  rw [← List.take_append_drop n sorted] at hs ha
  obtain ⟨htake, -, hcross⟩ := List.pairwise_append.mp hs
  constructor
  · intro h
    obtain ⟨init, hinit⟩ := List.getLast?_eq_some_iff.mp hnewest
    rw [hinit] at h htake
    rcases List.mem_append.mp h with h | h
    · exact le_of_lt ((List.pairwise_append.mp htake).2.2 a h newest List.mem_cons_self)
    · rw [List.mem_singleton.mp h]
  · intro h
    rcases List.mem_append.mp ha with ha | ha
    · exact ha
    · exact absurd (hcross newest hmem a ha) (not_lt_of_ge h)

/-- An ascending list splits at any of its keys into what is before, the row, and what is after. -/
theorem split_at_key {key : α → κ} {sorted : List α}
    (hs : sorted.Pairwise fun a b => key a < key b) {n : α} (hn : n ∈ sorted) :
    sorted = sorted.filter (fun a => key a < key n) ++
      n :: sorted.filter (fun a => key n < key a) := by
  induction sorted with
  | nil => exact absurd hn List.not_mem_nil
  | cons a rest ih =>
    rw [List.pairwise_cons] at hs
    rcases List.mem_cons.mp hn with rfl | hn
    · -- `n` is the head: nothing is before it and all the rest is after it.
      have hbefore : rest.filter (fun a => key a < key n) = [] := by
        rw [List.filter_eq_nil_iff]
        intro b hb
        simpa using le_of_lt (hs.1 b hb)
      have hafter : rest.filter (fun a => key n < key a) = rest := by
        rw [List.filter_eq_self]
        intro b hb
        simpa using hs.1 b hb
      simp [hbefore, hafter]
    · have han : key a < key n := hs.1 n hn
      rw [List.filter_cons_of_pos (by simpa using han),
        List.filter_cons_of_neg (by simpa using le_of_lt han), List.cons_append, ← ih hs.2 hn]

/-- A row is among the first ones exactly if fewer rows come before it. -/
theorem Keyed.mem_take_orderBy_iff {key : α → κ} {rows : List α} (h : Keyed key rows) {a : α}
    (ha : a ∈ rows) {n : ℕ} :
    a ∈ (orderBy key rows).take n ↔ (rows.filter fun b => key b < key a).length < n := by
  have hsplit := split_at_key h.orderBy_pairwise ((mem_orderBy key rows a).mpr ha)
  have hlength : ((orderBy key rows).filter fun b => key b < key a).length =
      (rows.filter fun b => key b < key a).length :=
    ((orderBy_perm key rows).filter _).length_eq
  rw [hsplit, ← hlength]
  constructor
  · intro hmem
    by_contra hle
    rw [List.take_append_of_le_length (by omega)] at hmem
    have hbefore := (List.mem_filter.mp (List.mem_of_mem_take hmem)).2
    exact lt_irrefl _ (of_decide_eq_true hbefore)
  · intro hlt
    rw [List.take_append, List.mem_append]
    obtain ⟨m, hm⟩ : ∃ m, n - ((orderBy key rows).filter fun b => key b < key a).length = m + 1 :=
      ⟨_, (Nat.succ_pred_eq_of_pos (by omega)).symm⟩
    rw [hm, List.take_succ_cons]
    exact .inr List.mem_cons_self

/-- Each row stands after as many rows as come before it. -/
theorem Keyed.zipIdx_orderBy {key : α → κ} {rows : List α} (h : Keyed key rows) :
    (orderBy key rows).zipIdx =
      (orderBy key rows).map fun a => (a, (rows.filter fun b => key b < key a).length) := by
  refine List.ext_getElem (by rw [List.length_zipIdx, List.length_map]) fun i hi _ => ?_
  rw [List.length_zipIdx] at hi
  rw [List.getElem_zipIdx, List.getElem_map, Nat.zero_add]
  refine congrArg (Prod.mk _) ?_
  have hsplit := split_at_key h.orderBy_pairwise (List.getElem_mem hi)
  have hplace : (orderBy key rows)[((orderBy key rows).filter fun b =>
      key b < key (orderBy key rows)[i]).length]? = (orderBy key rows)[i]? := by
    rw [List.getElem?_eq_getElem hi]
    generalize (orderBy key rows)[i] = a at hsplit ⊢
    conv_lhs => rw [hsplit]
    rw [List.getElem?_append_right (by rw [← hsplit]), ← hsplit, Nat.sub_self]
    rfl
  rw [← ((orderBy_perm key rows).filter _).length_eq]
  exact (List.getElem?_inj hi (h.perm (orderBy_perm key rows).symm).nodup).mp hplace.symm

/-- The keys of an ordered read are the ascending list of the rows' keys. -/
theorem map_orderBy_eq {key : α → κ} {rows : List α} {keys : List κ}
    (hs : keys.Pairwise fun a b => a ≤ b) (hp : keys.Perm (rows.map key)) :
    (orderBy key rows).map key = keys := by
  have hsorted := List.pairwise_map.mpr (orderBy_pairwise_le key rows)
  exact (((orderBy_perm key rows).map key).trans hp.symm).eq_of_sortedLE hsorted.sortedLE
    hs.sortedLE

/-- The first rows of two orders have the same keys in the second order exactly if no row after the
cut of the first order comes before one that it keeps. -/
theorem perm_take_orderBy_iff {κ' : Type*} [LinearOrder κ'] (key : α → κ) {rank : α → κ'}
    {key' : β → κ'} {rows : List α} {rows' : List β}
    (hrows : (rows.map rank).Perm (rows'.map key')) (n : ℕ) :
    (((orderBy key rows).take n).map rank).Perm (((orderBy key' rows').take n).map key') ↔
      ∀ a ∈ (orderBy key rows).take n, ∀ b ∈ (orderBy key rows).drop n, rank a ≤ rank b := by
  have hall : ((orderBy key rows).map rank).Perm ((orderBy key' rows').map key') :=
    ((orderBy_perm key rows).map rank).trans
      (hrows.trans ((orderBy_perm key' rows').map key').symm)
  have hlength : (orderBy key rows).length = (orderBy key' rows').length := by
    simpa using hall.length_eq
  have hsorted : ((orderBy key' rows').map key').Pairwise fun a b => a ≤ b :=
    List.pairwise_map.mpr (orderBy_pairwise_le key' rows')
  constructor
  · intro hfront a ha b hb
    -- What is left of equal multisets is equal too, and it comes after in the second order.
    have hback : (((orderBy key rows).drop n).map rank).Perm
        (((orderBy key' rows').drop n).map key') := by
      rw [← List.take_append_drop n (orderBy key rows), List.map_append,
        ← List.take_append_drop n (orderBy key' rows'), List.map_append] at hall
      exact (List.perm_append_left_iff _).mp ((hfront.symm.append_right _).trans hall)
    have ha' := hfront.mem_iff.mp (List.mem_map_of_mem ha)
    have hb' := hback.mem_iff.mp (List.mem_map_of_mem hb)
    rw [← List.take_append_drop n (orderBy key' rows'), List.map_append] at hsorted
    exact (List.pairwise_append.mp hsorted).2.2 _ ha' _ hb'
  · intro hcut
    -- The two parts in the second order, one after the other, are the second order.
    have hparts : ((orderBy rank ((orderBy key rows).take n)).map rank ++
        (orderBy rank ((orderBy key rows).drop n)).map rank).Pairwise fun a b => a ≤ b := by
      refine List.pairwise_append.mpr ⟨List.pairwise_map.mpr (orderBy_pairwise_le _ _),
        List.pairwise_map.mpr (orderBy_pairwise_le _ _), fun x hx y hy => ?_⟩
      obtain ⟨a, ha, rfl⟩ := List.mem_map.mp hx
      obtain ⟨b, hb, rfl⟩ := List.mem_map.mp hy
      exact hcut a ((mem_orderBy _ _ a).mp ha) b ((mem_orderBy _ _ b).mp hb)
    have hperm : ((orderBy rank ((orderBy key rows).take n)).map rank ++
        (orderBy rank ((orderBy key rows).drop n)).map rank).Perm (rows'.map key') := by
      rw [← List.map_append]
      refine (((orderBy_perm _ _).append (orderBy_perm _ _)).map rank).trans ?_
      rw [List.take_append_drop]
      exact hall.trans ((orderBy_perm key' rows').map key')
    have hsame := map_orderBy_eq hparts hperm
    have hfront : ((orderBy key' rows').take n).map key' =
        (orderBy rank ((orderBy key rows).take n)).map rank := by
      have hkept : ((orderBy rank ((orderBy key rows).take n)).map rank).length =
          min n (orderBy key' rows').length := by
        rw [List.length_map, (orderBy_perm _ _).length_eq, List.length_take, hlength]
      have hcutOff : ((orderBy rank ((orderBy key rows).drop n)).map rank).length =
          (orderBy key' rows').length - n := by
        rw [List.length_map, (orderBy_perm _ _).length_eq, List.length_drop, hlength]
      have hnone : ((orderBy rank ((orderBy key rows).drop n)).map rank).take
          (n - ((orderBy rank ((orderBy key rows).take n)).map rank).length) = [] := by
        refine List.eq_nil_of_length_eq_zero ?_
        rw [List.length_take]
        omega
      rw [List.map_take, hsame, List.take_append, hnone, List.append_nil,
        List.take_of_length_le (by omega)]
    rw [hfront]
    exact ((orderBy_perm _ _).map rank).symm

/-- A limit leaves rows out only. -/
theorem mem_of_mem_sqlLimit {limit : Int64} {rows : List α} {a : α}
    (h : a ∈ sqlLimit limit rows) : a ∈ rows := by
  unfold sqlLimit at h
  split at h
  · exact h
  · exact List.mem_of_mem_take h

/-- The rows up to the limit and those that it leaves out are all rows. -/
theorem sqlLimit_append_sqlRest (limit : Int64) (rows : List α) :
    sqlLimit limit rows ++ sqlRest limit rows = rows := by
  unfold sqlLimit sqlRest
  split
  · exact List.append_nil rows
  · exact List.take_append_drop _ rows

end Tellodb.Relational
