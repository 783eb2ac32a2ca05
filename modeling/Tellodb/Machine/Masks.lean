import Mathlib.Algebra.GroupWithZero.Nat
import Mathlib.Algebra.Order.BigOperators.Group.List
import Mathlib.Data.Nat.Bitwise
import Mathlib.Data.Nat.Count

/-!
# Words as sets of bits

A `u64` stands for the set of its bits (`bitsOf`), and `u64::count_ones` for the size of the set.
The operations on words are those on sets. A list of words is one long row of bits (`bitAt`), and
the bits on which two lists differ are counted word by word (`sum_countOnes_xor`). -/

namespace Tellodb

/-- `u64::count_ones` -/
def countOnes (mask : UInt64) : ℕ :=
  ((List.range 64).filter fun idx => mask.toNat.testBit idx).length

/-- A mask has 64 ones at most. -/
theorem countOnes_le (mask : UInt64) : countOnes mask ≤ 64 := by
  have hle := List.length_filter_le (fun idx => mask.toNat.testBit idx) (List.range 64)
  rwa [List.length_range] at hle

namespace Machine

/-! ## One word -/

/-- The bits of a word. -/
def bitsOf (mask : UInt64) : Finset ℕ :=
  ((List.range 64).filter fun idx => mask.toNat.testBit idx).toFinset

/-- Beyond the width there are no ones. -/
theorem testBit_of_large (mask : UInt64) {idx : ℕ} (h : 64 ≤ idx) :
    mask.toNat.testBit idx = false :=
  Nat.testBit_lt_two_pow (mask.toNat_lt.trans_le (Nat.pow_le_pow_right (by decide) h))

/-- The set of a mask holds the places of its ones. -/
theorem mem_bitsOf {mask : UInt64} {idx : ℕ} :
    idx ∈ bitsOf mask ↔ mask.toNat.testBit idx = true := by
  unfold bitsOf
  rw [List.mem_toFinset, List.mem_filter, List.mem_range, and_iff_right_iff_imp]
  intro hbit
  by_contra hlarge
  rw [testBit_of_large mask (Nat.not_lt.mp hlarge)] at hbit
  cases hbit

/-- The ones are as many as the set has places. -/
theorem countOnes_eq_card (mask : UInt64) : countOnes mask = (bitsOf mask).card :=
  (List.toFinset_card_of_nodup (List.nodup_range.filter _)).symm

/-- They can be counted place by place. -/
theorem countOnes_eq_count (mask : UInt64) :
    countOnes mask = Nat.count (fun idx => mask.toNat.testBit idx = true) 64 := by
  rw [Nat.count_eq_card_filter_range, countOnes_eq_card]
  congr 1
  ext idx
  rw [mem_bitsOf, Finset.mem_filter, Finset.mem_range, iff_and_self]
  intro hbit
  by_contra hlarge
  rw [testBit_of_large mask (Nat.not_lt.mp hlarge)] at hbit
  cases hbit

/-- The zero mask is the empty set. -/
@[simp]
theorem bitsOf_zero : bitsOf 0 = ∅ := by decide

/-- A mask is known by its set. -/
theorem bitsOf_injective : Function.Injective bitsOf := by
  intro mask mask' h
  refine UInt64.toNat_inj.mp (Nat.eq_of_testBit_eq fun idx => ?_)
  rw [Bool.eq_iff_iff, ← mem_bitsOf, ← mem_bitsOf, h]

/-- The union of masks is the union of their sets. -/
theorem bitsOf_or (mask mask' : UInt64) : bitsOf (mask ||| mask') = bitsOf mask ∪ bitsOf mask' := by
  ext idx
  rw [Finset.mem_union, mem_bitsOf, mem_bitsOf, mem_bitsOf, UInt64.toNat_or, Nat.testBit_or,
    Bool.or_eq_true]

/-- The bits that a word has and another one has not. -/
theorem bitsOf_and_not (mask mask' : UInt64) :
    bitsOf (mask &&& ~~~mask') = bitsOf mask \ bitsOf mask' := by
  ext idx
  rw [Finset.mem_sdiff, mem_bitsOf, mem_bitsOf, mem_bitsOf]
  have hbits : (mask &&& ~~~mask').toNat.testBit idx =
      (mask.toNat.testBit idx && (decide (idx < 64) && !mask'.toNat.testBit idx)) := by
    rw [← UInt64.toNat_toBitVec, ← UInt64.toNat_toBitVec, ← UInt64.toNat_toBitVec,
      BitVec.testBit_toNat, BitVec.testBit_toNat, BitVec.testBit_toNat, UInt64.toBitVec_and,
      UInt64.toBitVec_not, BitVec.getLsbD_and, BitVec.getLsbD_not]
  rw [hbits]
  constructor
  · intro h
    simp only [Bool.and_eq_true, Bool.not_eq_true', decide_eq_true_eq] at h
    exact ⟨h.1, by simp [h.2.2]⟩
  · rintro ⟨hmask, hnot⟩
    have hlt : idx < 64 := by
      by_contra hlarge
      rw [testBit_of_large mask (Nat.not_lt.mp hlarge)] at hmask
      cases hmask
    simp [hmask, hnot, hlt]

/-! ## Words in a row -/

/-- A bit of words in a row. -/
def bitAt (words : List UInt64) (i : ℕ) : Bool :=
  (words[i / 64]?).any fun word => word.toNat.testBit (i % 64)

/-- The first bits are those of the first word, -/
theorem bitAt_cons_of_lt (word : UInt64) (words : List UInt64) {i : ℕ} (h : i < 64) :
    bitAt (word :: words) i = word.toNat.testBit i := by
  unfold bitAt
  rw [Nat.div_eq_of_lt h, Nat.mod_eq_of_lt h]
  rfl

/-- and the others those of the words behind it. -/
theorem bitAt_cons_add (word : UInt64) (words : List UInt64) (i : ℕ) :
    bitAt (word :: words) (64 + i) = bitAt words i := by
  unfold bitAt
  rw [Nat.add_div_left i (by decide), Nat.add_mod_left, List.getElem?_cons_succ]

/-- The word with one bit. -/
theorem testBit_one_shiftLeft {k : ℕ} (h : k < 64) (i : ℕ) :
    (1 <<< UInt64.ofNat k : UInt64).toNat.testBit i = decide (k = i) := by
  have hk : (UInt64.ofNat k).toNat % 64 = k := by
    rw [UInt64.toNat_ofNat', Nat.mod_eq_of_lt (h.trans (by decide)), Nat.mod_eq_of_lt h]
  have hword : (1 <<< UInt64.ofNat k : UInt64).toNat = 2 ^ k := by
    have hlt : 2 ^ k < 2 ^ 64 := Nat.pow_lt_pow_right (by decide) h
    rw [UInt64.toNat_shiftLeft, hk, UInt64.toNat_one, Nat.one_shiftLeft, Nat.mod_eq_of_lt hlt]
  rw [hword, Nat.testBit_two_pow]

/-- One bit is set. -/
theorem bitAt_modify {words : List UInt64} {k : ℕ} (h : k / 64 < words.length) (i : ℕ) :
    bitAt (words.modify (k / 64) (· ||| 1 <<< UInt64.ofNat (k % 64))) i =
      (bitAt words i || decide (k = i)) := by
  unfold bitAt
  rw [List.getElem?_modify]
  by_cases hword : k / 64 = i / 64
  · have hsome : words[i / 64]? = some words[i / 64] := List.getElem?_eq_getElem (hword ▸ h)
    have hplace : k % 64 = i % 64 ↔ k = i := by omega
    rw [hsome, Option.map_eq_map, Option.map_some, Option.any_some, Option.any_some, if_pos hword,
      UInt64.toNat_or, Nat.testBit_or, testBit_one_shiftLeft (Nat.mod_lt _ (by decide))]
    simp only [hplace]
  · have hne : k ≠ i := fun heq => hword (heq ▸ rfl)
    simp [hword, hne]

/-- The bits on which words differ, counted word by word. -/
theorem sum_countOnes_xor {words words' : List UInt64} (h : words.length = words'.length) :
    ((words.zip words').map fun pair => countOnes (pair.1 ^^^ pair.2)).sum =
      Nat.count (fun i => bitAt words i ≠ bitAt words' i) (64 * words.length) := by
  induction words generalizing words' with
  | nil => rfl
  | cons word words ih =>
    cases words' with
    | nil => cases h
    | cons word' words' =>
      have hhead : countOnes (word ^^^ word') =
          Nat.count (fun i => bitAt (word :: words) i ≠ bitAt (word' :: words') i) 64 := by
        rw [countOnes_eq_count, Nat.count_eq_card_filter_range, Nat.count_eq_card_filter_range]
        congr 1
        refine Finset.filter_congr fun i hi => ?_
        rw [bitAt_cons_of_lt word words (Finset.mem_range.mp hi),
          bitAt_cons_of_lt word' words' (Finset.mem_range.mp hi), UInt64.toNat_xor,
          Nat.testBit_xor, bne_iff_ne]
      have hlength : 64 * (word :: words).length = 64 + 64 * words.length := by
        rw [List.length_cons]
        omega
      rw [List.zip_cons_cons, List.map_cons, List.sum_cons, hhead, ih (Nat.succ.inj h), hlength,
        Nat.count_add]
      simp only [bitAt_cons_add]

end Machine

end Tellodb
