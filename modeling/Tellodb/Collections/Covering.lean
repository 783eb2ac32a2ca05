import Mathlib.Data.Finset.Card
import Mathlib.Data.Finset.Lattice.Basic
import Mathlib.Data.List.Basic
import Mathlib.Tactic.Ring

/-!
# Covering greedily

Items cover parts. A list of them covers greedily (`CoversGreedily`) if each item covers as many of
the parts that are left as any item after it does. Then no choice of items is much better than the
beginning of the list: what a choice of `k` items covers more than the first `n` items do is at most
`(1 - 1 / k) ^ n` of all that it covers (`missing_take_le`), since of the `k` items one covers a
`k`-th of what is missing, and the next item of the list covers as much. And as many items as there
are parts cover them all (`CoversGreedily.covered_subset_take`). -/

namespace Tellodb.Collections

variable {α ι : Type*} [DecidableEq ι] (parts : α → Finset ι)

/-- The parts that are covered after some items. -/
def covered (before : Finset ι) (l : List α) : Finset ι :=
  l.foldl (fun s a => s ∪ parts a) before

/-- Each item covers as many of the parts that are left as any item after it. -/
def CoversGreedily : Finset ι → List α → Prop
  | _, [] => True
  | before, a :: l =>
    (∀ b ∈ l, (parts b \ before).card ≤ (parts a \ before).card) ∧
      CoversGreedily (before ∪ parts a) l

variable {parts} {before : Finset ι} {l best : List α} {a : α}

/-- Nothing more is covered by nothing. -/
@[simp] theorem covered_nil : covered parts before [] = before := rfl

/-- The items cover one after the other. -/
@[simp]
theorem covered_cons : covered parts before (a :: l) = covered parts (before ∪ parts a) l := rfl

/-- The first item covers most of what is not covered yet, and the others go on. -/
theorem coversGreedily_cons : CoversGreedily parts before (a :: l) ↔
    (∀ b ∈ l, (parts b \ before).card ≤ (parts a \ before).card) ∧
      CoversGreedily parts (before ∪ parts a) l :=
  Iff.rfl

/-- A part is covered from the beginning or by one of the items. -/
theorem mem_covered {x : ι} : x ∈ covered parts before l ↔ x ∈ before ∨ ∃ b ∈ l, x ∈ parts b := by
  induction l generalizing before with
  | nil => simp
  | cons a l ih =>
    rw [covered_cons, ih, Finset.mem_union, List.exists_mem_cons_iff, or_assoc]

/-- Items that cover no more than some number of new parts each cover no more than that number for
each of them. -/
theorem card_covered_le {gain : ℕ} (h : ∀ b ∈ best, (parts b \ before).card ≤ gain) :
    (covered parts before best).card ≤ before.card + best.length * gain := by
  induction best generalizing before with
  | nil => simp
  | cons b best ih =>
    have hrest : ∀ c ∈ best, (parts c \ (before ∪ parts b)).card ≤ gain := by
      intro c hc
      have hsub : parts c \ (before ∪ parts b) ⊆ parts c \ before :=
        Finset.sdiff_subset_sdiff (Finset.Subset.refl _) Finset.subset_union_left
      exact (Finset.card_le_card hsub).trans (h c (List.mem_cons_of_mem _ hc))
    have hb : (before ∪ parts b).card ≤ before.card + gain := by
      have hunion : before ∪ parts b = before ∪ parts b \ before :=
        (Finset.union_sdiff_self_eq_union).symm
      rw [hunion]
      exact (Finset.card_union_le _ _).trans
        (Nat.add_le_add_left (h b List.mem_cons_self) _)
    calc (covered parts before (b :: best)).card
        ≤ (before ∪ parts b).card + best.length * gain := ih hrest
      _ ≤ before.card + gain + best.length * gain := Nat.add_le_add_right hb _
      _ = before.card + (b :: best).length * gain := by
        rw [List.length_cons, Nat.succ_mul, Nat.add_assoc, Nat.add_comm gain]

/-- The next item of the list covers as much of what is left as any item of a choice. -/
theorem CoversGreedily.gain_le (h : CoversGreedily parts before (a :: l)) {b : α}
    (hb : b ∈ a :: l ∨ parts b ⊆ before) :
    (parts b \ before).card ≤ (parts a \ before).card := by
  rcases hb with hb | hb
  · rcases List.mem_cons.mp hb with rfl | hb
    · exact Nat.le_refl _
    · exact (coversGreedily_cons.mp h).1 b hb
  · rw [Finset.sdiff_eq_empty_iff_subset.mpr hb, Finset.card_empty]
    exact Nat.zero_le _

/-- What a choice of items covers and the first items of the list do not: with each item of the list
it gets smaller by one part in as many as there are items in the choice. -/
theorem missing_take_le (h : CoversGreedily parts before l)
    (hbest : ∀ b ∈ best, b ∈ l ∨ parts b ⊆ before) (n : ℕ) :
    best.length ^ n * ((covered parts ∅ best).card - (covered parts before (l.take n)).card) ≤
      (best.length - 1) ^ n * ((covered parts ∅ best).card - before.card) := by
  induction n generalizing before l with
  | zero => exact Nat.le_refl _
  | succ n ih =>
    cases l with
    | nil =>
      -- All parts of the choice are covered.
      have hsub : covered parts ∅ best ⊆ before := by
        intro x hx
        obtain hx | ⟨b, hb, hx⟩ := mem_covered.mp hx
        · exact absurd hx (Finset.notMem_empty x)
        · exact (hbest b hb).resolve_left List.not_mem_nil hx
      have hmissing : (covered parts ∅ best).card - before.card = 0 :=
        Nat.sub_eq_zero_of_le (Finset.card_le_card hsub)
      rw [List.take_nil, covered_nil, hmissing]
      exact Nat.le_refl _
    | cons a l =>
      have hgain : (covered parts ∅ best).card ≤
          before.card + best.length * (parts a \ before).card := by
        have hsub : covered parts ∅ best ⊆ covered parts before best := by
          intro x hx
          obtain hx | hx := mem_covered.mp hx
          · exact absurd hx (Finset.notMem_empty x)
          · exact mem_covered.mpr (.inr hx)
        exact (Finset.card_le_card hsub).trans
          (card_covered_le fun b hb => h.gain_le (hbest b hb))
      have hcard : (before ∪ parts a).card = before.card + (parts a \ before).card := by
        have hunion : before ∪ parts a = before ∪ parts a \ before :=
          (Finset.union_sdiff_self_eq_union).symm
        rw [hunion, Finset.card_union_of_disjoint Finset.disjoint_sdiff]
      have hrest : ∀ b ∈ best, b ∈ l ∨ parts b ⊆ before ∪ parts a := by
        intro b hb
        rcases hbest b hb with hb | hb
        · rcases List.mem_cons.mp hb with rfl | hb
          · exact .inr Finset.subset_union_right
          · exact .inl hb
        · exact .inr (hb.trans Finset.subset_union_left)
      have hih := ih (coversGreedily_cons.mp h).2 hrest
      rw [hcard] at hih
      rw [List.take_succ_cons, covered_cons]
      generalize (covered parts (before ∪ parts a) (l.take n)).card = reached at hih ⊢
      generalize (covered parts ∅ best).card = optimum at hgain hih ⊢
      generalize (parts a \ before).card = gain at hgain hih ⊢
      generalize best.length = k at hgain hih ⊢
      -- One step: `k` times the gain is at least what is missing.
      have hstep : k * (optimum - (before.card + gain)) ≤ (k - 1) * (optimum - before.card) := by
        have hmissing : optimum - before.card ≤ k * gain := by omega
        rw [← Nat.sub_sub, Nat.mul_sub, Nat.sub_mul, Nat.one_mul]
        exact Nat.sub_le_sub_left hmissing _
      calc k ^ (n + 1) * (optimum - reached)
          = k * (k ^ n * (optimum - reached)) := by rw [pow_succ]; ring
        _ ≤ k * ((k - 1) ^ n * (optimum - (before.card + gain))) := Nat.mul_le_mul_left k hih
        _ = (k - 1) ^ n * (k * (optimum - (before.card + gain))) := by ring
        _ ≤ (k - 1) ^ n * ((k - 1) * (optimum - before.card)) := Nat.mul_le_mul_left _ hstep
        _ = (k - 1) ^ (n + 1) * (optimum - before.card) := by rw [pow_succ]; ring

/-- As many items as parts are missing cover them all. -/
theorem CoversGreedily.covered_subset_take (h : CoversGreedily parts before l) {n : ℕ}
    (hn : (covered parts before l \ before).card ≤ n) :
    covered parts before l ⊆ covered parts before (l.take n) := by
  induction n generalizing before l with
  | zero =>
    have hempty : covered parts before l \ before = ∅ := Finset.card_eq_zero.mp (Nat.le_zero.mp hn)
    rw [List.take_zero, covered_nil]
    exact Finset.sdiff_eq_empty_iff_subset.mp hempty
  | succ n ih =>
    cases l with
    | nil => exact Finset.Subset.refl _
    | cons a l =>
      rw [List.take_succ_cons, covered_cons]
      refine ih (coversGreedily_cons.mp h).2 ?_
      have hsub : covered parts (before ∪ parts a) l \ (before ∪ parts a) ⊆
          covered parts before (a :: l) \ before :=
        Finset.sdiff_subset_sdiff (Finset.Subset.refl _) Finset.subset_union_left
      rcases (covered parts before (a :: l) \ before).eq_empty_or_nonempty with hempty | ⟨x, hx⟩
      · rw [hempty] at hsub
        rw [Finset.subset_empty.mp hsub, Finset.card_empty]
        exact Nat.zero_le n
      · -- A part is missing, so the item covers a new one.
        obtain ⟨hx, hnew⟩ := Finset.mem_sdiff.mp hx
        obtain ⟨b, hb, hxb⟩ := (mem_covered.mp hx).resolve_left hnew
        have hpos : 0 < (parts a \ before).card :=
          (Finset.card_pos.mpr ⟨x, Finset.mem_sdiff.mpr ⟨hxb, hnew⟩⟩).trans_le
            (h.gain_le (.inl hb))
        obtain ⟨y, hy⟩ := Finset.card_pos.mp hpos
        obtain ⟨hya, hybefore⟩ := Finset.mem_sdiff.mp hy
        have hlt : (covered parts (before ∪ parts a) l \ (before ∪ parts a)).card <
            (covered parts before (a :: l) \ before).card := by
          refine Finset.card_lt_card (Finset.ssubset_iff_subset_ne.mpr ⟨hsub, fun heq => ?_⟩)
          have hmem : y ∈ covered parts before (a :: l) \ before :=
            Finset.mem_sdiff.mpr
              ⟨mem_covered.mpr (.inr ⟨a, List.mem_cons_self, hya⟩), hybefore⟩
          rw [← heq] at hmem
          exact (Finset.mem_sdiff.mp hmem).2 (Finset.mem_union_right _ hya)
        omega

end Tellodb.Collections
