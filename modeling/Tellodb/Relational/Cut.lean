import Tellodb.Relational.OrderBy

/-!
# Ordered reads with a limit

The first rows of an order are the first rows of any part that has them (`take_orderBy_filter`). So
a list that is cut after every row that it takes up has what it would have if it had been cut once
(`take_orderBy_append`). -/

namespace Tellodb.Relational

variable {α κ : Type*} [LinearOrder κ] {key : α → κ} {rows : List α}

/-- Rows that are not among the first ones can be left out. -/
theorem Keyed.take_orderBy_filter (h : Keyed key rows) {n : ℕ} {p : α → Bool}
    (hp : ∀ a ∈ (orderBy key rows).take n, p a = true) :
    (orderBy key (rows.filter p)).take n = (orderBy key rows).take n := by
  rw [h.orderBy_filter p]
  generalize orderBy key rows = sorted at hp
  have hfront : (sorted.take n).filter p = sorted.take n := List.filter_eq_self.mpr hp
  have hsplit : sorted.filter p = sorted.take n ++ (sorted.drop n).filter p := by
    conv_lhs => rw [← List.take_append_drop n sorted]
    rw [List.filter_append, hfront]
  rw [hsplit]
  by_cases hlength : n ≤ sorted.length
  · exact List.take_left' (List.length_take_of_le hlength)
  · have hnil : sorted.drop n = [] := List.drop_eq_nil_of_le (by omega)
    rw [hnil, List.filter_nil, List.append_nil, List.take_take, Nat.min_self]

/-- Rows that have enough of those that are kept before them can be left out. -/
theorem Keyed.take_orderBy_filter_of_le (h : Keyed key rows) {n : ℕ} {p : α → Bool}
    (hp : ∀ a ∈ rows, p a = false →
      n ≤ ((rows.filter p).filter fun b => key b < key a).length) :
    (orderBy key (rows.filter p)).take n = (orderBy key rows).take n := by
  refine h.take_orderBy_filter fun a ha => ?_
  have hmem : a ∈ rows := (mem_orderBy key rows a).mp (List.mem_of_mem_take ha)
  by_contra hleft
  have hfew := (h.mem_take_orderBy_iff hmem).mp ha
  have hmany := hp a hmem (Bool.eq_false_iff.mpr hleft)
  have hpart : ((rows.filter p).filter fun b => key b < key a).length ≤
      (rows.filter fun b => key b < key a).length :=
    (List.filter_sublist.filter _).length_le
  omega

/-- Rows that have enough of the others before them can be left out. -/
theorem Keyed.take_orderBy_of_cut {cut : List α} (h : Keyed key (rows ++ cut)) {n : ℕ}
    (hcut : ∀ a ∈ cut, n ≤ (rows.filter fun b => key b < key a).length) :
    (orderBy key (rows ++ cut)).take n = (orderBy key rows).take n := by
  classical
  have hapart := (List.nodup_append.mp h.nodup).2.2
  have hkept : ∀ a ∈ rows, decide (a ∉ cut) = true :=
    fun a ha => decide_eq_true fun hmem => hapart a ha a hmem rfl
  have hleft : ∀ a ∈ cut, ¬ decide (a ∉ cut) = true :=
    fun a ha hout => of_decide_eq_true hout ha
  have hrows : (rows ++ cut).filter (fun a => decide (a ∉ cut)) = rows := by
    rw [List.filter_append, List.filter_eq_self.mpr hkept, List.filter_eq_nil_iff.mpr hleft,
      List.append_nil]
  have hfilter := h.take_orderBy_filter_of_le (n := n) (p := fun a => decide (a ∉ cut)) ?_
  · rw [hrows] at hfilter
    exact hfilter.symm
  · intro a _ hmem
    rw [hrows]
    exact hcut a (by simpa using hmem)

/-- The first rows of all are the first of some exactly if each of the others has enough of them
before it. -/
theorem Keyed.take_orderBy_append_iff {cut : List α} (h : Keyed key (rows ++ cut)) {n : ℕ} :
    (orderBy key rows).take n = (orderBy key (rows ++ cut)).take n ↔
      ∀ a ∈ cut, n ≤ (rows.filter fun b => key b < key a).length := by
  refine ⟨fun hsame a ha => ?_, fun hcut => (h.take_orderBy_of_cut hcut).symm⟩
  have hapart := (List.nodup_append.mp h.nodup).2.2
  have hmem : a ∈ rows ++ cut := List.mem_append_right _ ha
  have hout : a ∉ (orderBy key (rows ++ cut)).take n := by
    rw [← hsame]
    intro hin
    exact hapart a ((mem_orderBy key rows a).mp (List.mem_of_mem_take hin)) a ha rfl
  have hmany : n ≤ ((rows ++ cut).filter fun b => key b < key a).length :=
    not_lt.mp (mt (h.mem_take_orderBy_iff hmem).mpr hout)
  -- The first rows of all come before one that is not among them.
  have hbefore : ∀ b ∈ (orderBy key (rows ++ cut)).take n, key b < key a := by
    intro b hb
    have hpairwise := h.orderBy_pairwise
    rw [← List.take_append_drop n (orderBy key (rows ++ cut))] at hpairwise
    refine (List.pairwise_append.mp hpairwise).2.2 b hb a ?_
    have hall := (mem_orderBy key (rows ++ cut) a).mpr hmem
    rw [← List.take_append_drop n (orderBy key (rows ++ cut))] at hall
    exact (List.mem_append.mp hall).resolve_left hout
  have hlength : ((orderBy key rows).take n).length = n := by
    have hle := hmany.trans (List.length_filter_le _ _)
    rw [hsame]
    exact List.length_take_of_le (hle.trans (orderBy_perm key _).length_eq.ge)
  have hfilter : ((orderBy key rows).filter fun b => key b < key a).length =
      (rows.filter fun b => key b < key a).length := ((orderBy_perm key rows).filter _).length_eq
  have hfront : ((orderBy key rows).take n).Sublist
      ((orderBy key rows).filter fun b => key b < key a) := by
    refine List.Sublist.trans ?_ ((List.take_sublist n _).filter _)
    rw [List.filter_eq_self.mpr fun b hb => decide_eq_true (hbefore b (hsame ▸ hb))]
  have hle := hfront.length_le
  rw [hlength, hfilter] at hle
  exact hle

/-- Rows that are cut off before others are taken up are cut off after that as well. -/
theorem Keyed.take_orderBy_append {more : List α} (h : Keyed key (rows ++ more)) (n : ℕ) :
    (orderBy key ((orderBy key rows).take n ++ more)).take n =
      (orderBy key (rows ++ more)).take n := by
  have hrows : Keyed key rows := h.sublist ((List.sublist_append_left rows more).map key)
  have hperm : (rows ++ more).Perm
      ((orderBy key rows).take n ++ more ++ (orderBy key rows).drop n) := by
    refine ((orderBy_perm key rows).symm.append_right more).trans ?_
    conv_lhs => rw [← List.take_append_drop n (orderBy key rows)]
    rw [List.append_assoc, List.append_assoc]
    exact List.perm_append_comm.append_left _
  rw [← h.orderBy_congr hperm]
  refine ((h.perm hperm).take_orderBy_of_cut fun a hcut => ?_).symm
  -- All the rows that are kept come before one that is cut off.
  have hbefore : ∀ b ∈ (orderBy key rows).take n, key b < key a := by
    intro b hb
    have hpairwise := hrows.orderBy_pairwise
    rw [← List.take_append_drop n (orderBy key rows)] at hpairwise
    exact (List.pairwise_append.mp hpairwise).2.2 b hb a hcut
  have hlength : ((orderBy key rows).take n).length = n := by
    have hpos := List.length_pos_of_mem hcut
    rw [List.length_drop] at hpos
    exact List.length_take_of_le (by omega)
  rw [List.filter_append, List.filter_eq_self.mpr fun b hb => decide_eq_true (hbefore b hb),
    List.length_append]
  omega

end Tellodb.Relational
