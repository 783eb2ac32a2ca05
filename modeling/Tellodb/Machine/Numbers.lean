import Tellodb.Machine.Rounding
import Mathlib.Data.Prod.Lex

/-!
# Floating-point numbers

The numbers of a format are the rational numbers that it has, two infinities and `nan`; the two
zeros are one number here. An operation gives what is next to its exact result. In the order `nan`
comes first, so that what preserves the order of numbers preserves it throughout
(`Number.add_le_add`, `Number.mul_le_mul`); no comparison of a program holds of `nan`
(`Number.Less`). `Number.Within` bounds the size of a number, and so of sums and products. -/

namespace Tellodb.Machine

namespace Format

variable (F : Format)

/-- The format has the rational number. -/
def Has (q : ℚ) : Prop :=
  F.nearest q = q ∧ |q| < 2 ^ F.top

instance decidableHas (q : ℚ) : Decidable (F.Has q) :=
  inferInstanceAs (Decidable (F.nearest q = q ∧ |q| < 2 ^ F.top))

/-- A number of the format. -/
inductive Number where
  | nan
  | negInf
  | fin (q : ℚ) (h : F.Has q)
  | posInf
  deriving DecidableEq

/-- The number of the format for an exact result. -/
def round (q : ℚ) : F.Number :=
  if h : |F.nearest q| < 2 ^ F.top then .fin (F.nearest q) ⟨nearest_of_fits (fits_nearest q), h⟩
  else if 0 < q then .posInf else .negInf

variable {F}

/-- The format has zero. -/
theorem has_zero : F.Has 0 :=
  ⟨nearest_zero, by rw [abs_zero]; exact two_zpow_pos _⟩

/-- A format holds the negative of what it holds. -/
theorem Has.neg {q : ℚ} (h : F.Has q) : F.Has (-q) :=
  ⟨by rw [nearest_neg, h.1], by rw [abs_neg]; exact h.2⟩

/-- Numbers of the format are not rounded. -/
theorem round_of_has {q : ℚ} (h : F.Has q) : F.round q = .fin q h := by
  have hlt : |F.nearest q| < 2 ^ F.top := by
    rw [h.1]
    exact h.2
  unfold round
  rw [dif_pos hlt]
  simp only [h.1]

/-- The numbers of the last binade are multiples of one power of two. -/
theorem Has.exists_mul_zpow {q : ℚ} (h : F.Has q) (hbig : 2 ^ (F.top - 1) ≤ |q|)
    (hleast : F.least ≤ F.top - F.digits) : ∃ n : ℤ, q = n * 2 ^ (F.top - F.digits) := by
  have hq : q ≠ 0 := by
    rintro rfl
    rw [abs_zero] at hbig
    exact absurd (two_zpow_pos _) (not_lt.mpr hbig)
  have hlower : F.top - 1 < binade q + 1 :=
    zpow_lt_zpow_iff_two.mp (hbig.trans_lt (lt_zpow_binade hq))
  have hupper : binade q < F.top := zpow_lt_zpow_iff_two.mp ((zpow_binade_le hq).trans_lt h.2)
  have hscale : F.scale q = F.top - F.digits := by
    unfold scale
    omega
  refine ⟨roundEven (q / 2 ^ F.scale q), ?_⟩
  rw [← hscale]
  exact h.1.symm

/-- Formats have the integers with their digits. -/
theorem has_natCast {n : ℕ} (hdigits : n ≤ 2 ^ F.digits) (hleast : F.least ≤ 0)
    (htop : (F.digits : ℤ) < F.top) : F.Has n := by
  refine ⟨nearest_of_fits ⟨n, 0, ?_, hleast, by simp⟩, ?_⟩
  · rw [Nat.abs_cast]
    exact_mod_cast hdigits
  · have hle : (n : ℚ) ≤ 2 ^ (F.digits : ℤ) := by
      rw [zpow_natCast]
      exact_mod_cast hdigits
    rw [Nat.abs_cast]
    exact hle.trans_lt (zpow_lt_zpow_iff_two.mpr htop)

namespace Number

/-! ## Order -/

/-- Where a number stands: before, among or after the rational numbers. -/
def rank : F.Number → ℤ ×ₗ ℚ
  | nan => toLex (-2, 0)
  | negInf => toLex (-1, 0)
  | fin q _ => toLex (0, q)
  | posInf => toLex (1, 0)

/-- A number is known by its rank. -/
theorem rank_injective : Function.Injective (rank (F := F)) := by
  intro x y h
  have hpair : ofLex (rank x) = ofLex (rank y) := congrArg ofLex h
  cases x <;> cases y <;> simp_all [rank]

instance linearOrder : LinearOrder F.Number :=
  LinearOrder.lift' rank rank_injective

/-- Numbers are ordered by their ranks. -/
theorem le_iff_rank {x y : F.Number} : x ≤ y ↔ rank x ≤ rank y := Iff.rfl

/-- Among finite numbers the order is that of the values, -/
@[simp] theorem fin_le_fin {p q : ℚ} {hp : F.Has p} {hq : F.Has q} :
    fin p hp ≤ fin q hq ↔ p ≤ q := by
  rw [le_iff_rank, rank, rank, Prod.Lex.toLex_le_toLex]
  simp

/-- the strict one too. -/
@[simp] theorem fin_lt_fin {p q : ℚ} {hp : F.Has p} {hq : F.Has q} :
    fin p hp < fin q hq ↔ p < q := by
  rw [lt_iff_not_ge, fin_le_fin, not_le]

/-- NaN is put below everything. -/
@[simp] theorem nan_le (x : F.Number) : nan ≤ x := by
  rw [le_iff_rank]
  cases x <;> simp [rank, Prod.Lex.toLex_le_toLex]

/-- Nothing is above infinity. -/
@[simp] theorem le_posInf (x : F.Number) : x ≤ posInf := by
  rw [le_iff_rank]
  cases x <;> simp [rank, Prod.Lex.toLex_le_toLex]

/-- All numbers but `nan` are from the negative infinity on. -/
theorem negInf_le_iff {x : F.Number} : negInf ≤ x ↔ x ≠ nan := by
  rw [le_iff_rank]
  cases x <;> simp [rank, Prod.Lex.toLex_le_toLex]

/-- Nothing else is below NaN. -/
theorem le_nan_iff {x : F.Number} : x ≤ nan ↔ x = nan := by
  rw [le_iff_rank]
  cases x <;> simp [rank, Prod.Lex.toLex_le_toLex]

/-- Only NaN is below negative infinity. -/
theorem le_negInf_iff {x : F.Number} : x ≤ negInf ↔ x = nan ∨ x = negInf := by
  rw [le_iff_rank]
  cases x <;> simp [rank, Prod.Lex.toLex_le_toLex]

/-- Only infinity is above infinity. -/
theorem posInf_le_iff {x : F.Number} : posInf ≤ x ↔ x = posInf := by
  rw [le_iff_rank]
  cases x <;> simp [rank, Prod.Lex.toLex_le_toLex]

/-- `x < y` in a program. -/
def Less (x y : F.Number) : Prop :=
  x ≠ nan ∧ x < y

instance decidableLess (x y : F.Number) : Decidable (Less x y) :=
  inferInstanceAs (Decidable (x ≠ nan ∧ x < y))

/-! ## Rounding -/

/-- Rounding does not give NaN. -/
theorem round_ne_nan (q : ℚ) : F.round q ≠ nan := by
  unfold round
  split_ifs <;> simp

/-- A result that is too large, of the sign of the exact one. -/
private theorem pos_of_overflow {q : ℚ} (h : ¬ |F.nearest q| < 2 ^ F.top) (hq : 0 < q) :
    2 ^ F.top ≤ F.nearest q := by
  rwa [abs_of_nonneg (nearest_nonneg hq.le), not_lt] at h

/-- A number that overflows and is not positive overflows downwards. -/
private theorem neg_of_overflow {q : ℚ} (h : ¬ |F.nearest q| < 2 ^ F.top) (hq : ¬ 0 < q) :
    F.nearest q ≤ -2 ^ F.top := by
  have hnonneg := F.nearest_nonneg (q := -q) (by linarith)
  rw [nearest_neg] at hnonneg
  rw [abs_of_nonpos (by linarith), not_lt] at h
  linarith

/-- Results are in the order of the exact results. -/
theorem round_mono {p q : ℚ} (h : p ≤ q) : F.round p ≤ F.round q := by
  have hnearest := F.nearest_mono h
  have htop := two_zpow_pos F.top
  unfold round
  split_ifs with hp hq hpos hpos' hq hpos'' hpos'' hq
  · exact fin_le_fin.mpr hnearest
  · exact le_posInf _
  · have hover := neg_of_overflow hq hpos
    rw [abs_lt] at hp
    linarith
  · have hover := pos_of_overflow hp hpos'
    rw [abs_lt] at hq
    linarith
  · exact le_refl _
  · linarith
  · exact negInf_le_iff.mpr (by simp)
  · exact negInf_le_iff.mpr (by simp)
  · exact le_refl _

/-! ## Operations -/

/-- The infinity of a sign, and none for zero. -/
def signed (sign : ℚ) : F.Number :=
  if 0 < sign then posInf else if sign < 0 then negInf else nan

/-- `-x` -/
protected def neg : F.Number → F.Number
  | nan => nan
  | negInf => posInf
  | fin q h => fin (-q) h.neg
  | posInf => negInf

/-- `x + y` -/
protected def add : F.Number → F.Number → F.Number
  | fin p _, fin q _ => F.round (p + q)
  | negInf, negInf => negInf
  | negInf, fin _ _ => negInf
  | fin _ _, negInf => negInf
  | posInf, posInf => posInf
  | posInf, fin _ _ => posInf
  | fin _ _, posInf => posInf
  | _, _ => nan

/-- `x * y` -/
protected def mul : F.Number → F.Number → F.Number
  | fin p _, fin q _ => F.round (p * q)
  | posInf, fin q _ => signed q
  | fin p _, posInf => signed p
  | negInf, fin q _ => signed (-q)
  | fin p _, negInf => signed (-p)
  | posInf, posInf => posInf
  | negInf, negInf => posInf
  | posInf, negInf => negInf
  | negInf, posInf => negInf
  | _, _ => nan

/-- `x / y`, where a zero that divides has no sign. -/
protected def div : F.Number → F.Number → F.Number
  | fin p _, fin q _ => if q = 0 then signed p else F.round (p / q)
  | fin _ _, negInf => fin 0 has_zero
  | fin _ _, posInf => fin 0 has_zero
  | posInf, fin q _ => if q < 0 then negInf else posInf
  | negInf, fin q _ => if q < 0 then posInf else negInf
  | _, _ => nan

/-- `f32::min`: the other number, if one is `nan`. -/
protected def min (x y : F.Number) : F.Number :=
  if x = nan then y else if y = nan then x else Min.min x y

/-- `f32::max`: the other number, if one is `nan`. -/
protected def max (x y : F.Number) : F.Number :=
  if x = nan then y else if y = nan then x else Max.max x y

/-- `f32::clamp` -/
def clamp (x low high : F.Number) : F.Number :=
  if x = nan then nan else Max.max low (Min.min x high)

instance instNeg : Neg F.Number := ⟨Number.neg⟩
instance instAdd : Add F.Number := ⟨Number.add⟩
instance instSub : Sub F.Number := ⟨fun x y => x + -y⟩
instance instMul : Mul F.Number := ⟨Number.mul⟩
instance instDiv : Div F.Number := ⟨Number.div⟩
instance instNatCast : NatCast F.Number := ⟨fun n => F.round n⟩
instance instOfNat (n : ℕ) : OfNat F.Number n := ⟨F.round n⟩
instance instOfScientific : OfScientific F.Number :=
  ⟨fun m s e => F.round (OfScientific.ofScientific m s e)⟩

/-- Zero is finite. -/
theorem zero_eq : (0 : F.Number) = fin 0 has_zero := by
  have hzero : (0 : F.Number) = F.round ((0 : ℕ) : ℚ) := rfl
  rw [hzero, Nat.cast_zero, round_of_has has_zero]

/-- NaN plus anything is NaN, -/
@[simp] theorem nan_add (x : F.Number) : nan + x = nan := by cases x <;> rfl

/-- and anything plus NaN. -/
@[simp] theorem add_nan (x : F.Number) : x + nan = nan := by cases x <;> rfl

/-- NaN times anything is NaN. -/
@[simp] theorem nan_mul (x : F.Number) : nan * x = nan := by cases x <;> rfl

/-- Negative infinity absorbs finite numbers, -/
@[simp] theorem negInf_add_fin (q : ℚ) (h : F.Has q) : negInf + fin q h = negInf := rfl

/-- and so does infinity. -/
@[simp] theorem posInf_add_fin (q : ℚ) (h : F.Has q) : posInf + fin q h = posInf := rfl

/-- What is up to a number that is not the positive infinity is not either. -/
private theorem ne_posInf_of_le {x y : F.Number} (h : x ≤ y) (hy : y ≠ posInf) : x ≠ posInf := by
  rintro rfl
  exact hy (posInf_le_iff.mp h)

/-- The negative infinity stays in a sum without the other one. -/
private theorem negInf_add {x : F.Number} (hx : x ≠ nan) (h : x ≠ posInf) :
    negInf + x = negInf := by
  cases x with
  | nan => exact absurd rfl hx
  | negInf => rfl
  | fin q hq => rfl
  | posInf => exact absurd rfl h

/-- It absorbs everything but NaN and infinity. -/
private theorem add_negInf {x : F.Number} (hx : x ≠ nan) (h : x ≠ posInf) :
    x + negInf = negInf := by
  cases x with
  | nan => exact absurd rfl hx
  | negInf => rfl
  | fin q hq => rfl
  | posInf => exact absurd rfl h

/-- Sums of numbers are in the order of their terms. -/
protected theorem add_le_add {x x' y y' : F.Number} (hx : x ≤ x') (hy : y ≤ y')
    (h : x' + y' ≠ nan) : x + y ≤ x' + y' := by
  -- A sum with NaN is below everything, so neither of the smaller terms is NaN.
  by_cases hxnan : x = nan
  · rw [hxnan, nan_add]
    exact nan_le _
  by_cases hynan : y = nan
  · rw [hynan, add_nan]
    exact nan_le _
  -- The cases are those of the larger terms, whose sum is not NaN.
  cases x' with
  | nan => exact absurd (nan_add y') h
  | posInf =>
    cases y' with
    | nan => exact absurd rfl h
    | negInf => exact absurd rfl h
    | fin q hq => exact le_posInf _
    | posInf => exact le_posInf _
  | negInf =>
    obtain rfl := (le_negInf_iff.mp hx).resolve_left hxnan
    cases y' with
    | nan => exact absurd rfl h
    | posInf => exact absurd rfl h
    | negInf => exact (negInf_add hynan (ne_posInf_of_le hy (by simp))).le
    | fin q hq => exact (negInf_add hynan (ne_posInf_of_le hy (by simp))).le
  | fin p hp =>
    have hxfin := ne_posInf_of_le hx (by simp)
    cases y' with
    | nan => exact absurd rfl h
    | posInf => exact le_posInf _
    | negInf =>
      obtain rfl := (le_negInf_iff.mp hy).resolve_left hynan
      exact (add_negInf hxnan hxfin).le
    | fin q hq =>
      have hyfin := ne_posInf_of_le hy (by simp)
      -- Both are finite, and then so are the smaller ones or they are negative infinity.
      cases x with
      | nan => exact absurd rfl hxnan
      | posInf => exact absurd rfl hxfin
      | negInf =>
        rw [negInf_add hynan hyfin]
        exact negInf_le_iff.mpr h
      | fin a ha =>
        cases y with
        | nan => exact absurd rfl hynan
        | posInf => exact absurd rfl hyfin
        | negInf => exact negInf_le_iff.mpr h
        | fin b hb => exact round_mono (add_le_add (fin_le_fin.mp hx) (fin_le_fin.mp hy))

/-! ## Sizes -/

/-- A number is of a size at most. -/
def Within : F.Number → ℕ → Prop
  | fin q _, c => |q| ≤ c
  | _, _ => False

instance decidableWithin (x : F.Number) (c : ℕ) : Decidable (x.Within c) := by
  unfold Within
  cases x <;> infer_instance

/-- What has a size is a rational number. -/
theorem Within.exists_fin {x : F.Number} {c : ℕ} (h : x.Within c) :
    ∃ q hq, x = fin q hq ∧ |q| ≤ c := by
  cases x with
  | fin q hq => exact ⟨q, hq, rfl, h⟩
  | nan => exact absurd h id
  | negInf => exact absurd h id
  | posInf => exact absurd h id

/-- A bounded number is not NaN. -/
theorem Within.ne_nan {x : F.Number} {c : ℕ} (h : x.Within c) : x ≠ nan := by
  obtain ⟨q, hq, rfl, -⟩ := h.exists_fin
  simp

/-- A bound may be widened. -/
theorem Within.mono {x : F.Number} {c d : ℕ} (h : x.Within c) (hle : c ≤ d) : x.Within d := by
  obtain ⟨q, hq, rfl, hsize⟩ := h.exists_fin
  exact hsize.trans (by exact_mod_cast hle)

/-- A result is of the size of the exact result, if the format has that. -/
theorem within_round {q : ℚ} {c : ℕ} (hc : F.Has c) (h : |q| ≤ c) : (F.round q).Within c := by
  rw [abs_le] at h
  have hupper := round_mono (F := F) h.2
  have hlower := round_mono (F := F) h.1
  rw [round_of_has hc] at hupper
  rw [round_of_has hc.neg] at hlower
  generalize F.round q = x at hupper hlower
  cases x with
  | nan => exact absurd (le_nan_iff.mp hlower) (by simp)
  | negInf => exact absurd (le_negInf_iff.mp hlower) (by simp)
  | posInf => exact absurd (posInf_le_iff.mp hupper) (by simp)
  | fin p hp => exact abs_le.mpr ⟨fin_le_fin.mp hlower, fin_le_fin.mp hupper⟩

/-- The bound of a number is that of its negative. -/
theorem Within.neg {x : F.Number} {c : ℕ} (h : x.Within c) : (-x).Within c := by
  obtain ⟨q, hq, rfl, hsize⟩ := h.exists_fin
  exact (abs_neg q).le.trans hsize

/-- The sizes of two terms bound that of their sum. -/
theorem Within.add {x y : F.Number} {c d : ℕ} (hx : x.Within c) (hy : y.Within d)
    (h : F.Has ((c + d : ℕ) : ℚ)) : (x + y).Within (c + d) := by
  obtain ⟨p, hp, rfl, hpsize⟩ := hx.exists_fin
  obtain ⟨q, hq, rfl, hqsize⟩ := hy.exists_fin
  refine within_round h ((abs_add_le p q).trans ?_)
  push_cast
  exact add_le_add hpsize hqsize

/-- The sizes of two factors bound that of their product. -/
theorem Within.mul {x y : F.Number} {c d : ℕ} (hx : x.Within c) (hy : y.Within d)
    (h : F.Has ((c * d : ℕ) : ℚ)) : (x * y).Within (c * d) := by
  obtain ⟨p, hp, rfl, hpsize⟩ := hx.exists_fin
  obtain ⟨q, hq, rfl, hqsize⟩ := hy.exists_fin
  refine within_round h ?_
  rw [abs_mul]
  push_cast
  exact mul_le_mul hpsize hqsize (abs_nonneg q) (Nat.cast_nonneg c)

/-- Products with a positive number are in the order of the other factors. -/
protected theorem mul_le_mul {x x' w : F.Number} (hx : x ≤ x') {c : ℕ} (hw : w.Within c)
    (hpos : 0 < w) : x * w ≤ x' * w := by
  obtain ⟨q, h, rfl, -⟩ := hw.exists_fin
  rw [zero_eq] at hpos
  have hq : 0 < q := fin_lt_fin.mp hpos
  -- The factor is positive, so it keeps the infinities.
  have hneg : negInf * fin q h = (negInf : F.Number) := by
    have hsigned : negInf * fin q h = signed (F := F) (-q) := rfl
    rw [hsigned, signed, if_neg (by linarith), if_pos (by linarith)]
  have hpos : posInf * fin q h = (posInf : F.Number) := if_pos hq
  -- The cases are those of the larger number.
  cases x' with
  | nan => rw [le_nan_iff.mp hx]
  | posInf =>
    rw [hpos]
    exact le_posInf _
  | negInf =>
    rcases le_negInf_iff.mp hx with rfl | rfl
    · rw [nan_mul]
      exact nan_le _
    · exact le_refl _
  | fin a ha =>
    cases x with
    | nan =>
      rw [nan_mul]
      exact nan_le _
    | posInf => exact absurd (posInf_le_iff.mp hx) (by simp)
    | negInf =>
      rw [hneg]
      exact negInf_le_iff.mpr (round_ne_nan _)
    | fin b hb => exact round_mono (mul_le_mul_of_nonneg_right (fin_le_fin.mp hx) hq.le)

/-- No number, or none below zero. -/
def NonNeg (x : F.Number) : Prop :=
  x = nan ∨ 0 ≤ x

/-- A count is not negative. -/
theorem nonNeg_natCast (n : ℕ) : NonNeg ((n : ℕ) : F.Number) := by
  refine .inr ?_
  have hle := round_mono (F := F) (Nat.cast_nonneg (α := ℚ) n)
  rw [round_of_has has_zero] at hle
  rw [zero_eq]
  exact hle

/-- A quotient of numbers that are not below zero is not. -/
theorem NonNeg.div {x y : F.Number} (hx : NonNeg x) (hy : NonNeg y) : NonNeg (x / y) := by
  unfold NonNeg at hx hy ⊢
  rw [zero_eq] at hx hy ⊢
  -- The cases are those of the two numbers, where zero may be divided by.
  cases x with
  | nan => exact .inl (by cases y <;> rfl)
  | negInf => exact absurd (le_negInf_iff.mp (hx.resolve_left (by simp))) (by simp)
  | posInf =>
    cases y with
    | nan => exact .inl rfl
    | negInf => exact .inl rfl
    | posInf => exact .inl rfl
    | fin q hq =>
      have hnonneg := fin_le_fin.mp (hy.resolve_left (by simp))
      have hdiv : (posInf / fin q hq : F.Number) = posInf := if_neg (not_lt.mpr hnonneg)
      rw [hdiv]
      exact .inr (le_posInf _)
  | fin p hp =>
    have hpos := fin_le_fin.mp (hx.resolve_left (by simp))
    cases y with
    | nan => exact .inl rfl
    | negInf => exact .inr (le_refl _)
    | posInf => exact .inr (le_refl _)
    | fin q hq =>
      have hnonneg := fin_le_fin.mp (hy.resolve_left (by simp))
      have hdiv : (fin p hp / fin q hq : F.Number) =
          if q = 0 then signed p else F.round (p / q) := rfl
      rw [hdiv]
      -- A positive number by zero is infinite, and zero by zero is NaN.
      split_ifs with hzero
      · unfold signed
        rw [if_neg (not_lt.mpr hpos)]
        split_ifs
        · exact .inr (le_posInf _)
        · exact .inl rfl
      · have hle := round_mono (F := F) (div_nonneg hpos hnonneg)
        rw [round_of_has has_zero] at hle
        exact .inr hle

/-- A number from zero up to a size has the size. -/
theorem within_of_le {x : F.Number} {c : ℕ} (hc : F.Has c) (hzero : 0 ≤ x) (h : x ≤ fin c hc) :
    x.Within c := by
  rw [zero_eq] at hzero
  cases x with
  | nan => exact absurd (le_nan_iff.mp hzero) (by simp)
  | negInf => exact absurd (le_negInf_iff.mp hzero) (by simp)
  | posInf => exact absurd (posInf_le_iff.mp h) (by simp)
  | fin q hq => exact (abs_of_nonneg (fin_le_fin.mp hzero)).le.trans (fin_le_fin.mp h)

/-- Zero is below every count. -/
theorem zero_le_natCast {c : ℕ} (hc : F.Has c) : (0 : F.Number) ≤ fin c hc := by
  rw [zero_eq]
  exact fin_le_fin.mpr (Nat.cast_nonneg c)

/-- A number that is cut at a number is not greater. -/
theorem NonNeg.within_min {x : F.Number} (hx : NonNeg x) {c : ℕ} (hc : F.Has c) :
    (x.min (fin c hc)).Within c := by
  unfold Number.min
  rw [if_neg (by simp : ¬ (fin (c : ℚ) hc : F.Number) = nan)]
  split_ifs with hnan
  · exact (Nat.abs_cast c).le
  · exact within_of_le hc (le_min (hx.resolve_left hnan) (zero_le_natCast hc)) (min_le_right _ _)

/-- A number that is cut at zero and at a number has the size of that. -/
theorem within_clamp {x : F.Number} (hx : x ≠ nan) {c : ℕ} (hc : F.Has c) :
    (x.clamp 0 (OfNat.ofNat c)).Within c := by
  have hliteral : (OfNat.ofNat c : F.Number) = fin c hc := round_of_has hc
  unfold clamp
  rw [if_neg hx, hliteral]
  exact within_of_le hc (le_max_left _ _) (max_le (zero_le_natCast hc) (min_le_right _ _))

/-- The same for a literal. -/
theorem NonNeg.within_min_ofNat {x : F.Number} (hx : NonNeg x) {c : ℕ} (hc : F.Has c) :
    (x.min (OfNat.ofNat c)).Within c := by
  have hliteral : (OfNat.ofNat c : F.Number) = fin c hc := round_of_has hc
  rw [hliteral]
  exact hx.within_min hc

/-- One of two numbers of a size has the size. -/
theorem Within.ite {p : Prop} [Decidable p] {x y : F.Number} {c : ℕ} (hx : x.Within c)
    (hy : y.Within c) : (if p then x else y).Within c := by
  split_ifs
  · exact hx
  · exact hy

/-- A sum with a rational number is a number. -/
theorem add_ne_nan {x y : F.Number} {c : ℕ} (hx : x ≠ nan) (hy : y.Within c) : x + y ≠ nan := by
  obtain ⟨q, hq, rfl, -⟩ := hy.exists_fin
  cases x with
  | nan => exact absurd rfl hx
  | negInf => simp
  | posInf => simp
  | fin p hp => exact round_ne_nan _

/-- The negative infinity stays in a sum with a rational number. -/
theorem negInf_add_of_within {y : F.Number} {c : ℕ} (hy : y.Within c) : negInf + y = negInf := by
  obtain ⟨q, hq, rfl, -⟩ := hy.exists_fin
  exact negInf_add_fin q hq

/-- A number that a size does not change bounds all sums of numbers from it on with that size. -/
theorem le_add_of_absorbed {l x y : F.Number} {c : ℕ} (hc : F.Has c)
    (habsorbed : l + fin (-c) hc.neg = l) (hx : l ≤ x) (hxnan : x ≠ nan) (hy : y.Within c) :
    l ≤ x + y := by
  have hsum := add_ne_nan hxnan hy
  obtain ⟨q, hq, rfl, hsize⟩ := hy.exists_fin
  rw [← habsorbed]
  exact Number.add_le_add hx (fin_le_fin.mpr (abs_le.mp hsize).1) hsum

/-! ## Numbers from zero on -/

/-- A number from zero on is rational, or the infinity. -/
theorem eq_posInf_or_fin_of_nonneg {x : F.Number} (h : 0 ≤ x) :
    x = posInf ∨ ∃ q hq, x = fin q hq ∧ 0 ≤ q := by
  rw [zero_eq] at h
  cases x with
  | nan => exact absurd (le_nan_iff.mp h) (by simp)
  | negInf => exact absurd (le_negInf_iff.mp h) (by simp)
  | posInf => exact .inl rfl
  | fin q hq => exact .inr ⟨q, hq, rfl, fin_le_fin.mp h⟩

/-- What is not negative is not rounded below zero. -/
theorem zero_le_round {q : ℚ} (h : 0 ≤ q) : (0 : F.Number) ≤ F.round q := by
  have hle := round_mono (F := F) h
  rw [round_of_has has_zero] at hle
  rw [zero_eq]
  exact hle

/-- The greater one of a number and zero, also for `nan`. -/
theorem zero_le_max_zero (x : F.Number) : 0 ≤ x.max 0 := by
  unfold Number.max
  split_ifs with hx hzero
  · exact le_refl _
  · rw [zero_eq] at hzero
    exact absurd hzero (by simp)
  · exact le_max_right _ _

/-- The greater one of zero and a number from zero on. -/
theorem zero_max_eq {x : F.Number} (h : 0 ≤ x) : (0 : F.Number).max x = x := by
  unfold Number.max
  split_ifs with hzero hx
  · rfl
  · exact absurd (le_nan_iff.mp (hx ▸ h)) (by rw [zero_eq]; simp)
  · exact max_eq_right h

/-- A sum of numbers from zero on is one. -/
protected theorem add_nonneg {x y : F.Number} (hx : 0 ≤ x) (hy : 0 ≤ y) : 0 ≤ x + y := by
  rcases eq_posInf_or_fin_of_nonneg hx with rfl | ⟨p, hp, rfl, hpos⟩
  · rcases eq_posInf_or_fin_of_nonneg hy with rfl | ⟨q, hq, rfl, -⟩
    · exact hx
    · exact le_posInf _
  · rcases eq_posInf_or_fin_of_nonneg hy with rfl | ⟨q, hq, rfl, hqos⟩
    · exact hy
    · exact zero_le_round (add_nonneg hpos hqos)

/-- A quotient of a number above zero by a rational one from zero on is from zero on. -/
theorem div_fin_nonneg {x : F.Number} (hx : 0 ≤ x) (hne : x ≠ 0) {q : ℚ} (hq : F.Has q)
    (hnonneg : 0 ≤ q) : 0 ≤ x / fin q hq := by
  rcases eq_posInf_or_fin_of_nonneg hx with rfl | ⟨p, hp, rfl, hpnonneg⟩
  · have hdiv : (posInf / fin q hq : F.Number) = posInf := if_neg (not_lt.mpr hnonneg)
    rw [hdiv]
    exact hx
  · have hdiv : (fin p hp / fin q hq : F.Number) =
        if q = 0 then signed p else F.round (p / q) := rfl
    rw [hdiv]
    split_ifs
    · have hpos : 0 < p := by
        refine lt_of_le_of_ne hpnonneg fun hzero => hne ?_
        rw [zero_eq]
        congr 1
        exact hzero.symm
      unfold signed
      rw [if_pos hpos]
      exact le_posInf _
    · exact zero_le_round (div_nonneg hpnonneg hnonneg)

end Number

end Format

/-! ## The numbers of `f32` -/

/-- The numbers of `f32`. -/
abbrev F32 := Format.Number .binary32

namespace F32

open Format Format.Number

/-- Counts of up to 24 bits are single-precision numbers. -/
theorem has_natCast {n : ℕ} (h : n ≤ 2 ^ 24) : Format.binary32.Has n :=
  Format.has_natCast h (by decide) (by decide)

/-- Small sizes add up. -/
theorem within_add {x y : F32} {c d : ℕ} (hx : x.Within c) (hy : y.Within d)
    (h : c + d ≤ 2 ^ 24) : (x + y).Within (c + d) :=
  hx.add hy (has_natCast h)

/-- The bounds of factors multiply. -/
theorem within_mul {x y : F32} {c d : ℕ} (hx : x.Within c) (hy : y.Within d)
    (h : c * d ≤ 2 ^ 24) : (x * y).Within (c * d) :=
  hx.mul hy (has_natCast h)

/-- A term that is added under a condition. -/
theorem within_add_if {p : Prop} [Decidable p] {x y : F32} {c d : ℕ} (hx : x.Within c)
    (hy : y.Within d) (h : c + d ≤ 2 ^ 24) : (if p then x + y else x).Within (c + d) :=
  (within_add hx hy h).ite (hx.mono (Nat.le_add_right c d))

/-- The bounds add up in a difference. -/
theorem within_sub {x y : F32} {c d : ℕ} (hx : x.Within c) (hy : y.Within d)
    (h : c + d ≤ 2 ^ 24) : (x - y).Within (c + d) :=
  within_add hx hy.neg h

/-- A term that is taken away under a condition. -/
theorem within_sub_if {p : Prop} [Decidable p] {x y : F32} {c d : ℕ} (hx : x.Within c)
    (hy : y.Within d) (h : c + d ≤ 2 ^ 24) : (if p then x - y else x).Within (c + d) :=
  (within_sub hx hy h).ite (hx.mono (Nat.le_add_right c d))

/-- A count that is not large. -/
theorem within_natCast {n c : ℕ} (hn : n ≤ c) (hc : c ≤ 2 ^ 24) : (n : F32).Within c := by
  refine Number.within_round (has_natCast hc) ?_
  rw [Nat.abs_cast]
  exact_mod_cast hn

/-- A count that is cut at a literal. -/
theorem within_natCast_min (n : ℕ) {c : ℕ} (hc : c ≤ 2 ^ 24) :
    ((n : F32).min (OfNat.ofNat c)).Within c :=
  (Number.nonNeg_natCast n).within_min_ofNat (has_natCast hc)

/-- A finite number is of the greatest size, or up to the next one. -/
theorem abs_eq_or_le {q : ℚ} (h : Format.binary32.Has q) :
    |q| = (2 ^ 24 - 1) * 2 ^ 104 ∨ |q| ≤ (2 ^ 24 - 2) * 2 ^ 104 := by
  -- In the last binade the number is a multiple of the last unit there.
  by_cases hbig : (2 : ℚ) ^ (127 : ℤ) ≤ |q|
  · obtain ⟨n, hn⟩ := h.exists_mul_zpow hbig (by decide)
    have habs : |q| = (|n| : ℤ) * 2 ^ 104 := by
      rw [hn, abs_mul, Int.cast_abs]
      exact congrArg _ (abs_of_pos (two_zpow_pos _))
    have hlt : (|n| : ℤ) < 2 ^ 24 := by
      have htop : |q| < 2 ^ (128 : ℤ) := h.2
      rw [habs] at htop
      have hcast : ((|n| : ℤ) : ℚ) < 2 ^ 24 := by
        refine lt_of_mul_lt_mul_right (htop.trans_eq ?_) (by positivity : (0 : ℚ) ≤ 2 ^ 104)
        norm_num
      exact_mod_cast hcast
    rw [habs]
    -- The greatest number and the next one differ by a unit.
    rcases (Int.le_sub_one_of_lt hlt).lt_or_eq with hless | heq
    · right
      have hle : ((|n| : ℤ) : ℚ) ≤ 2 ^ 24 - 2 := by
        have hint : (|n| : ℤ) ≤ 2 ^ 24 - 2 := by omega
        exact_mod_cast hint
      exact mul_le_mul_of_nonneg_right hle (by positivity)
    · left
      rw [heq]
      norm_num
  · right
    exact (not_le.mp hbig).le.trans (by norm_num)

/-- `f32::MIN` -/
def lowest : F32 := .fin (-((2 ^ 24 - 1) * 2 ^ 104)) (by decide +kernel)

/-- The number after `f32::MIN`. -/
def afterLowest : F32 := .fin (-((2 ^ 24 - 2) * 2 ^ 104)) (by decide +kernel)

/-- The greatest size of a finite number. -/
def greatest : ℕ := (2 ^ 24 - 1) * 2 ^ 104

/-- Every finite number is bounded by the greatest. -/
theorem within_greatest {q : ℚ} (h : Format.binary32.Has q) : Within (.fin q h : F32) greatest := by
  have hgreatest : ((greatest : ℕ) : ℚ) = (2 ^ 24 - 1) * 2 ^ 104 := by
    unfold greatest
    norm_num
  refine le_trans (b := ((2 ^ 24 - 1) * 2 ^ 104 : ℚ)) ?_ hgreatest.ge
  rcases abs_eq_or_le h with heq | hle
  · exact heq.le
  · exact hle.trans (by norm_num)

/-- The lowest number is below every bounded one. -/
theorem lowest_le {x : F32} (h : x.Within greatest) : lowest ≤ x := by
  obtain ⟨q, hq, rfl, hsize⟩ := h.exists_fin
  have hle := (abs_le.mp hsize).1
  unfold greatest at hle
  refine fin_le_fin.mpr (le_trans (le_of_eq ?_) hle)
  norm_num

/-- All finite numbers but `f32::MIN` are from the next one on. -/
theorem afterLowest_le {q : ℚ} {h : Format.binary32.Has q} (hne : .fin q h ≠ lowest) :
    afterLowest ≤ .fin q h := by
  refine fin_le_fin.mpr ?_
  rcases abs_eq_or_le h with heq | hle
  · rcases abs_choice q with hpos | hneg
    · have hnonneg := abs_nonneg q
      rw [hpos] at hnonneg
      exact le_trans (by norm_num) hnonneg
    · refine absurd ?_ hne
      unfold lowest
      congr 1
      linarith
  · exact (abs_le.mp hle).1

/-- A sum with a small number is from `afterLowest` on if the other term is. -/
theorem afterLowest_le_add {x y : F32} {c : ℕ} (hx : afterLowest ≤ x) (hy : y.Within c)
    (hc : c ≤ 64) : afterLowest ≤ x + y := by
  have hnan : x ≠ nan := by
    rintro rfl
    exact absurd (le_nan_iff.mp hx) (by decide +kernel)
  exact le_add_of_absorbed (has_natCast (by decide)) (by decide +kernel) hx hnan (hy.mono hc)

/-- Machine words are rational numbers of `f32`. -/
theorem exists_fin_natCast (n : UInt64) :
    ∃ q hq, ((n.toNat : ℕ) : F32) = .fin q hq ∧ 0 ≤ q := by
  have hword : Format.binary32.Has (2 ^ 64) := by decide +kernel
  have hle := round_mono (F := .binary32) (p := (n.toNat : ℚ)) (q := 2 ^ 64)
    (by exact_mod_cast n.toNat_lt.le)
  rw [round_of_has hword] at hle
  have hzero : (0 : F32) ≤ ((n.toNat : ℕ) : F32) := zero_le_round (Nat.cast_nonneg _)
  rcases eq_posInf_or_fin_of_nonneg hzero with hinf | ⟨q, hq, hfin, hnonneg⟩
  · have hround : Format.binary32.round (n.toNat : ℚ) = .posInf := hinf
    exact absurd (posInf_le_iff.mp (hround ▸ hle)) (by simp)
  · exact ⟨q, hq, hfin, hnonneg⟩

end F32

end Tellodb.Machine
