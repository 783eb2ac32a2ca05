import Mathlib.Algebra.Order.Field.Basic
import Mathlib.Tactic.FieldSimp
import Mathlib.Tactic.NormNum
import Mathlib.Tactic.Positivity
import Tellodb.Machine.Numbers

/-!
# Rounding errors

How far the result of an operation on `f32` is from the exact one. A number that is not too small is
rounded by a part of itself (`F32.near_round`), so that a product of numbers each near an exact
value is near the product (`F32.scaled_near`). `f32::sqrt` is computed exactly, as a square root in
whole numbers of many digits that is rounded once (`F32.sqrt`), and `f32::round` goes to whole
numbers (`roundAway`). -/

namespace Tellodb.Machine

/-! ## Whole numbers -/

/-- Rounding to even moves a number by a half at most, -/
theorem abs_roundEven_sub_le (q : ℚ) : |(roundEven q : ℚ) - q| ≤ 1 / 2 := by
  have hle := Int.floor_le q
  have hlt := Int.lt_floor_add_one q
  unfold roundEven
  rw [abs_le]
  split_ifs
  all_goals
    push_cast
    constructor <;> linarith

/-- `f32::round`: the whole number next to a number, and of two the one farther from zero. -/
def roundAway (q : ℚ) : ℤ :=
  if 0 ≤ q then ⌊q + 1 / 2⌋ else -⌊-q + 1 / 2⌋

/-- and so does rounding away from zero. -/
theorem abs_roundAway_sub_le (q : ℚ) : |(roundAway q : ℚ) - q| ≤ 1 / 2 := by
  unfold roundAway
  rw [abs_le]
  split_ifs
  · have hle := Int.floor_le (q + 1 / 2)
    have hlt := Int.lt_floor_add_one (q + 1 / 2)
    constructor <;> linarith
  · have hle := Int.floor_le (-q + 1 / 2)
    have hlt := Int.lt_floor_add_one (-q + 1 / 2)
    push_cast
    constructor <;> linarith

/-- A number less than a half beyond a whole one is not rounded beyond it. -/
theorem abs_roundAway_le {q : ℚ} {n : ℤ} (h : |q| < n + 1 / 2) : |roundAway q| ≤ n := by
  have hnear := abs_roundAway_sub_le q
  have habs : |(roundAway q : ℚ)| < n + 1 := by
    have htriangle := abs_add_le ((roundAway q : ℚ) - q) q
    rw [sub_add_cancel] at htriangle
    linarith
  rw [← Int.cast_abs] at habs
  have hlt : |roundAway q| < n + 1 := by exact_mod_cast habs
  omega

/-! ## Numbers of a format -/

namespace Format

variable (F : Format)

/-- The nearest number of a format is within half a unit of the last place. -/
theorem abs_nearest_sub_le (q : ℚ) : |F.nearest q - q| ≤ 2 ^ F.scale q / 2 := by
  have hpos := two_zpow_pos (F.scale q)
  have hsplit : F.nearest q - q =
      (roundEven (q / 2 ^ F.scale q) - q / 2 ^ F.scale q) * 2 ^ F.scale q := by
    unfold nearest
    rw [sub_mul, div_mul_cancel₀ _ hpos.ne']
  rw [hsplit, abs_mul, abs_of_pos hpos]
  have hround := abs_roundEven_sub_le (q / 2 ^ F.scale q)
  nlinarith

/-- A number that is not too small is rounded by a part of itself. -/
theorem abs_nearest_sub_le_mul {q : ℚ} (h : 2 ^ (F.least + F.digits - 1) ≤ |q|) :
    |F.nearest q - q| ≤ |q| / 2 ^ F.digits := by
  have hq : q ≠ 0 := by
    rintro rfl
    rw [abs_zero] at h
    exact absurd h (not_le.mpr (two_zpow_pos _))
  have hbinade : F.least + F.digits - 1 ≤ binade q := by
    have hlt := (h.trans_lt (lt_zpow_binade hq))
    rw [zpow_lt_zpow_iff_two] at hlt
    omega
  have hscale : F.scale q = binade q + 1 - F.digits := by
    unfold scale
    omega
  refine (F.abs_nearest_sub_le q).trans ?_
  have hle := zpow_binade_le hq
  rw [hscale, zpow_sub₀ two_ne_zero, zpow_add₀ two_ne_zero, zpow_one, zpow_natCast, div_div,
    div_le_div_iff₀ (by positivity) (by positivity)]
  have hpos : (0 : ℚ) < 2 ^ F.digits := by positivity
  nlinarith

/-- A number below a power of two is rounded by half a unit of its digits at most. -/
theorem abs_nearest_sub_le_of_lt {q : ℚ} {e : ℤ} (h : |q| < 2 ^ e) (he : F.least ≤ e - F.digits) :
    |F.nearest q - q| ≤ 2 ^ (e - F.digits) / 2 := by
  by_cases hq : q = 0
  · rw [hq, nearest_zero, sub_zero, abs_zero]
    exact div_nonneg (two_zpow_pos _).le (by norm_num)
  · have hbinade := (zpow_binade_le hq).trans_lt h
    rw [zpow_lt_zpow_iff_two] at hbinade
    have hscale : F.scale q ≤ e - F.digits := by
      unfold scale
      omega
    exact (F.abs_nearest_sub_le q).trans
      (div_le_div_of_nonneg_right (zpow_le_zpow_two hscale) (by norm_num))

/-- `is_finite` -/
def Number.isFinite {F : Format} : F.Number → Bool
  | fin _ _ => true
  | _ => false

/-- The value of a finite number. -/
def Number.value {F : Format} : F.Number → ℚ
  | fin q _ => q
  | _ => 0

/-- `f32::abs` -/
def Number.abs {F : Format} : F.Number → F.Number
  | nan => nan
  | negInf => posInf
  | fin q h => if q < 0 then fin (-q) h.neg else fin q h
  | posInf => posInf

variable {F}

/-- A number with a value is finite. -/
@[simp] theorem Number.isFinite_fin {q : ℚ} (h : F.Has q) : (Number.fin q h).isFinite = true := rfl

/-- Its value is that which it carries. -/
@[simp] theorem Number.value_fin {q : ℚ} (h : F.Has q) : (Number.fin q h).value = q := rfl

/-- Its absolute value is finite. -/
theorem Number.abs_fin {q : ℚ} (h : F.Has q) :
    ∃ habs : F.Has |q|, (Number.fin q h).abs = Number.fin |q| habs := by
  rcases lt_or_ge q 0 with hneg | hpos
  · have habs := abs_of_neg hneg
    refine ⟨habs ▸ h.neg, ?_⟩
    simp only [Number.abs, if_pos hneg, habs]
  · have habs := abs_of_nonneg hpos
    refine ⟨habs.symm ▸ h, ?_⟩
    simp only [Number.abs, if_neg (not_lt.mpr hpos), habs]

/-- The quotient of finite numbers is rounded once. -/
theorem Number.fin_div_fin {p q : ℚ} (hp : F.Has p) (hq : F.Has q) (hne : q ≠ 0) :
    (fin p hp / fin q hq : F.Number) = F.round (p / q) :=
  if_neg hne

/-- What is from zero on is a number that is from zero on, or the positive infinity. -/
theorem Number.zero_le_cases {x : F.Number} (h : 0 ≤ x) :
    x = posInf ∨ ∃ q hq, 0 ≤ q ∧ x = fin q hq := by
  rw [zero_eq] at h
  cases x with
  | nan => exact absurd (le_nan_iff.mp h) (by simp)
  | negInf => exact absurd (le_negInf_iff.mp h) (by simp)
  | fin q hq => exact .inr ⟨q, hq, fin_le_fin.mp h, rfl⟩
  | posInf => exact .inl rfl

/-- A sum of numbers from zero on is not less than any of them. -/
theorem Number.le_add_of_nonneg {x y : F.Number} (hx : 0 ≤ x) (hy : 0 ≤ y) :
    x ≤ x + y ∧ y ≤ x + y := by
  obtain rfl | ⟨p, hp, hp0, rfl⟩ := zero_le_cases hx
  · obtain rfl | ⟨q, hq, -, rfl⟩ := zero_le_cases hy
    · exact ⟨le_refl _, le_refl _⟩
    · exact ⟨le_refl _, le_posInf _⟩
  · obtain rfl | ⟨q, hq, hq0, rfl⟩ := zero_le_cases hy
    · exact ⟨le_posInf _, le_refl _⟩
    · have hsum : (fin p hp + fin q hq : F.Number) = F.round (p + q) := rfl
      rw [hsum, ← round_of_has hp, ← round_of_has hq]
      exact ⟨round_mono (by linarith), round_mono (by linarith)⟩

/-- A sum of numbers from zero on is not less than the first one nor any other one. -/
theorem Number.le_foldl_add {l : List F.Number} (hl : ∀ x ∈ l, 0 ≤ x) {first : F.Number}
    (hfirst : 0 ≤ first) :
    first ≤ l.foldl (· + ·) first ∧ ∀ x ∈ l, x ≤ l.foldl (· + ·) first := by
  induction l generalizing first with
  | nil => exact ⟨le_refl _, by simp⟩
  | cons x l ih =>
    obtain ⟨hleft, hright⟩ := le_add_of_nonneg hfirst (hl x List.mem_cons_self)
    obtain ⟨hsum, hall⟩ := ih (fun y hy => hl y (List.mem_cons_of_mem _ hy)) (hfirst.trans hleft)
    refine ⟨hleft.trans hsum, fun y hy => ?_⟩
    rcases List.mem_cons.mp hy with rfl | hy
    · exact hright.trans hsum
    · exact hall y hy

/-- A finite number carries its value. -/
theorem Number.exists_fin {x : F.Number} (h : x.isFinite = true) :
    ∃ hx : F.Has x.value, x = fin x.value hx := by
  cases x with
  | fin q hq => exact ⟨hq, rfl⟩
  | _ => cases h

end Format

/-! ## Numbers of 32 bits -/

namespace F32

open Format Number

/-- `f32::EPSILON` -/
def epsilon : F32 := fin (1 / 2 ^ 23) (by decide +kernel)

/-- `x.round().clamp(-127.0, 127.0) as i8` -/
def toInt8 : F32 → Int8
  | nan => 0
  | negInf => -127
  | fin q _ => Int8.ofInt (max (-127) (min 127 (roundAway q)))
  | posInf => 127

/-- A number is near an exact value. -/
def Near (x : F32) (q : ℚ) : Prop :=
  x.isFinite = true ∧ |x.value - q| ≤ |q| / 2 ^ 24

/-- An exact value that is zero, or neither too small nor too large, is rounded by a part of
itself. -/
theorem near_round {q : ℚ} (hsmall : q ≠ 0 → 2 ^ (-126 : ℤ) ≤ |q|) (hbig : |q| ≤ 2 ^ 100) :
    Near (Format.binary32.round q) q := by
  have herror : |Format.binary32.nearest q - q| ≤ |q| / 2 ^ 24 := by
    by_cases hq : q = 0
    · rw [hq, nearest_zero, sub_zero, abs_zero, zero_div]
    · exact Format.binary32.abs_nearest_sub_le_mul (hsmall hq)
  have hlt : |Format.binary32.nearest q| < 2 ^ Format.binary32.top := by
    have htriangle := abs_add_le (Format.binary32.nearest q - q) q
    rw [sub_add_cancel] at htriangle
    have hpart : |q| / 2 ^ 24 ≤ |q| := div_le_self (abs_nonneg q) (by norm_num)
    have htop : (2 : ℚ) ^ Format.binary32.top = 2 ^ 128 := rfl
    rw [htop]
    have hpow : (2 : ℚ) ^ 100 + 2 ^ 100 < 2 ^ 128 := by norm_num
    linarith
  unfold Format.round
  rw [dif_pos hlt]
  exact ⟨rfl, herror⟩

/-- `f32::sqrt`: the root of the number times `2 ^ 200`, which is whole, with one binary digit more
that says whether there is a rest, and is enough to round it right. -/
def sqrt : F32 → F32
  | nan => nan
  | negInf => nan
  | posInf => posInf
  | fin q _ =>
    if q < 0 then nan
    else
      let scaled : ℕ := ⌊q * 2 ^ 200⌋.toNat
      let root : ℕ := Nat.sqrt scaled
      let rest : ℚ := if root * root = scaled then 0 else 1 / 2
      Format.binary32.round ((root + rest) / 2 ^ 100)

/-- The whole root of the whole part of a number. -/
theorem natSqrt_bounds {q : ℚ} (hq : 0 ≤ q) :
    ((Nat.sqrt ⌊q⌋.toNat : ℕ) : ℚ) ^ 2 ≤ q ∧ q < ((Nat.sqrt ⌊q⌋.toNat : ℕ) + 1 : ℚ) ^ 2 := by
  have hcast : ((⌊q⌋.toNat : ℕ) : ℚ) = (⌊q⌋ : ℤ) := by
    exact_mod_cast congrArg (Int.cast (R := ℚ)) (Int.toNat_of_nonneg (Int.floor_nonneg.mpr hq))
  constructor
  · have hroot : ((Nat.sqrt ⌊q⌋.toNat : ℕ) : ℚ) ^ 2 ≤ (⌊q⌋.toNat : ℕ) := by
      exact_mod_cast Nat.sqrt_le' ⌊q⌋.toNat
    rw [hcast] at hroot
    exact hroot.trans (Int.floor_le q)
  · have hroot : ((⌊q⌋.toNat : ℕ) : ℚ) + 1 ≤ ((Nat.sqrt ⌊q⌋.toNat : ℕ) + 1 : ℚ) ^ 2 := by
      exact_mod_cast Nat.lt_succ_sqrt' ⌊q⌋.toNat
    rw [hcast] at hroot
    exact (Int.lt_floor_add_one q).trans_le hroot

/-- The least number other than zero. -/
theorem least_le_of_has {q : ℚ} (h : Format.binary32.Has q) (hq : q ≠ 0) :
    2 ^ (-149 : ℤ) ≤ |q| := by
  have hnearest : (roundEven (q / 2 ^ Format.binary32.scale q) : ℚ) *
      2 ^ Format.binary32.scale q = q := h.1
  have hpos := two_zpow_pos (Format.binary32.scale q)
  have hne : roundEven (q / 2 ^ Format.binary32.scale q) ≠ 0 := by
    intro hzero
    rw [hzero, Int.cast_zero, zero_mul] at hnearest
    exact hq hnearest.symm
  have hone : (1 : ℚ) ≤ |(roundEven (q / 2 ^ Format.binary32.scale q) : ℚ)| := by
    exact_mod_cast Int.one_le_abs hne
  have hscale : (2 : ℚ) ^ (-149 : ℤ) ≤ 2 ^ Format.binary32.scale q :=
    zpow_le_zpow_two (le_max_right _ _)
  rw [← hnearest, abs_mul, abs_of_pos hpos]
  exact hscale.trans (le_mul_of_one_le_left hpos.le hone)

/-- A root is found digit by digit: an integer root, with a half where the root is not exact, is
rounded once. -/
theorem exists_sqrt {q : ℚ} (h : Format.binary32.Has q) (hq : 0 ≤ q) :
    ∃ (root : ℕ) (rest : ℚ), sqrt (fin q h) = Format.binary32.round ((root + rest) / 2 ^ 100) ∧
      (rest = 0 ∨ rest = 1 / 2) ∧ (root : ℚ) ^ 2 ≤ q * 2 ^ 200 ∧
        q * 2 ^ 200 < (root + 1 : ℚ) ^ 2 := by
  refine ⟨Nat.sqrt ⌊q * 2 ^ 200⌋.toNat, _, if_neg (not_lt.mpr hq), ?_,
    natSqrt_bounds (by positivity)⟩
  split_ifs
  · exact .inl rfl
  · exact .inr rfl

/-- What is rounded in a root is zero, or large enough to be rounded by a part of itself. -/
theorem near_root {root : ℕ} {rest : ℚ} (hrest : rest = 0 ∨ rest = 1 / 2)
    (hbig : (root : ℚ) / 2 ^ 100 ≤ 2 ^ 64) :
    Near (Format.binary32.round ((root + rest) / 2 ^ 100)) ((root + rest) / 2 ^ 100) := by
  have hroot0 : (0 : ℚ) ≤ root := Nat.cast_nonneg root
  have hrest0 : 0 ≤ rest := by
    rcases hrest with rfl | rfl <;> norm_num
  have hrest1 : rest ≤ 1 := by
    rcases hrest with rfl | rfl <;> norm_num
  have hnonneg : (0 : ℚ) ≤ (root + rest) / 2 ^ 100 := by positivity
  refine near_round (fun hne => ?_) ?_
  · -- The exact value is at least a half.
    have hhalf : (1 : ℚ) / 2 ≤ root + rest := by
      rcases hrest with rfl | rfl
      · have hpos : root ≠ 0 := by
          rintro rfl
          simp at hne
        have hone : (1 : ℚ) ≤ root := by exact_mod_cast Nat.one_le_iff_ne_zero.mpr hpos
        linarith
      · linarith
    rw [abs_of_nonneg hnonneg]
    refine le_trans ?_ (div_le_div_of_nonneg_right hhalf (by positivity))
    norm_num
  · rw [abs_of_nonneg hnonneg, add_div]
    have hsmall : rest / 2 ^ 100 ≤ 1 := (div_le_one (by positivity)).mpr
      (hrest1.trans (by norm_num))
    have hpow : (2 : ℚ) ^ 64 + 1 ≤ 2 ^ 100 := by norm_num
    linarith

/-- The integer root of a number that is not zero is so large that one more is hardly larger. -/
theorem succ_root_le {q : ℚ} {root : ℕ} (hleast : (2 : ℚ) ^ (-149 : ℤ) ≤ q)
    (hlt : q * 2 ^ 200 < (root + 1 : ℚ) ^ 2) : (root : ℚ) + 1 ≤ root * (1 + 1 / 2 ^ 25) := by
  have hroot : (2 : ℚ) ^ 25 ≤ root := by
    by_contra hsmall
    have hsucc : (root : ℚ) + 1 ≤ 2 ^ 25 := by
      have hnat : root < 2 ^ 25 := by exact_mod_cast not_le.mp hsmall
      exact_mod_cast hnat
    have hscaled : (2 : ℚ) ^ 51 ≤ q * 2 ^ 200 := by
      have hmul := mul_le_mul_of_nonneg_right hleast (by positivity : (0 : ℚ) ≤ 2 ^ 200)
      have hpow : (2 : ℚ) ^ (-149 : ℤ) * 2 ^ 200 = 2 ^ 51 := by norm_num
      rwa [hpow] at hmul
    have hsq : ((root : ℚ) + 1) ^ 2 ≤ (2 ^ 25) ^ 2 :=
      pow_le_pow_left₀ (by positivity) hsucc 2
    have hpow : ((2 : ℚ) ^ 25) ^ 2 < 2 ^ 51 := by norm_num
    linarith
  have hone : (1 : ℚ) ≤ root * (1 / 2 ^ 25) := by
    rw [mul_one_div, le_div_iff₀ (by positivity)]
    linarith
  linarith

/-- The root of a number is not much too small. -/
theorem sqrt_spec {q : ℚ} (h : Format.binary32.Has q) (hq : 0 ≤ q) :
    (sqrt (fin q h)).isFinite = true ∧ 0 ≤ (sqrt (fin q h)).value ∧
      q ≤ 2 * (sqrt (fin q h)).value ^ 2 := by
  obtain ⟨root, rest, hsqrt, hrest, hle, hlt⟩ := exists_sqrt h hq
  have hroot0 : (0 : ℚ) ≤ root := Nat.cast_nonneg root
  have hrest0 : 0 ≤ rest := by
    rcases hrest with rfl | rfl <;> norm_num
  -- The root is small enough not to overflow.
  have hbig : (root : ℚ) / 2 ^ 100 ≤ 2 ^ 64 := by
    have hsq : ((root : ℚ) / 2 ^ 100) ^ 2 ≤ (2 ^ 64) ^ 2 := by
      have hq128 : q < 2 ^ 128 := (abs_lt.mp h.2).2
      calc ((root : ℚ) / 2 ^ 100) ^ 2 = (root : ℚ) ^ 2 / 2 ^ 200 := by rw [div_pow, ← pow_mul]
        _ ≤ q := (div_le_iff₀ (by positivity)).mpr hle
        _ ≤ (2 ^ 64) ^ 2 := by linarith
    exact (sq_le_sq₀ (by positivity) (by positivity)).mp hsq
  obtain ⟨hfinite, herror⟩ := near_root hrest hbig
  have hexact : (0 : ℚ) ≤ (root + rest) / 2 ^ 100 := by positivity
  rw [abs_of_nonneg hexact] at herror
  rw [hsqrt]
  generalize Format.binary32.round (((root : ℚ) + rest) / 2 ^ 100) = r at hfinite herror ⊢
  -- The rounded root is not much smaller than the exact one.
  have hlow : (root : ℚ) / 2 ^ 100 * (1 - 1 / 2 ^ 24) ≤ r.value := by
    have hroot : (root : ℚ) / 2 ^ 100 ≤ (root + rest) / 2 ^ 100 :=
      div_le_div_of_nonneg_right (by linarith) (by positivity)
    have hr := (abs_le.mp herror).1
    have hpart := mul_le_mul_of_nonneg_right hroot (by norm_num : (0 : ℚ) ≤ 1 - 1 / 2 ^ 24)
    linarith
  refine ⟨hfinite, le_trans (by positivity) hlow, ?_⟩
  rcases hq.eq_or_lt with rfl | hpos
  · positivity
  · have hleast : (2 : ℚ) ^ (-149 : ℤ) ≤ q := by
      have hbound := least_le_of_has h hpos.ne'
      rwa [abs_of_pos hpos] at hbound
    -- The square of the exact root and a little more is above the number.
    have hsq : q ≤ (root / 2 ^ 100 * (1 + 1 / 2 ^ 25)) ^ 2 := by
      have hpow : (root / 2 ^ 100 * (1 + 1 / 2 ^ 25)) ^ 2 =
          (root * (1 + 1 / 2 ^ 25) : ℚ) ^ 2 / 2 ^ 200 := by
        rw [div_mul_eq_mul_div, div_pow, ← pow_mul]
      rw [hpow, le_div_iff₀ (by positivity)]
      exact hlt.le.trans (pow_le_pow_left₀ (by positivity) (succ_root_le hleast hlt) 2)
    have hlowsq : (root / 2 ^ 100 * (1 - 1 / 2 ^ 24) : ℚ) ^ 2 ≤ r.value ^ 2 :=
      pow_le_pow_left₀ (by positivity) hlow 2
    rw [mul_pow] at hsq hlowsq
    -- What is lost in both steps is less than the factor of two.
    have hfactor : ((1 : ℚ) + 1 / 2 ^ 25) ^ 2 ≤ 2 * (1 - 1 / 2 ^ 24) ^ 2 := by norm_num
    have hscale := mul_le_mul_of_nonneg_left hfactor (sq_nonneg ((root : ℚ) / 2 ^ 100))
    linarith

/-- A number whose square is rounded to no more than twice that of another one is not more than
twice as large. -/
theorem abs_le_of_round_square {x m s : ℚ} (hm : 1 / 2 ^ 23 ≤ m) {hs : Format.binary32.Has s}
    (hsquare : Format.binary32.round (x * x) ≤ fin s hs) (hle : s ≤ 2 * m ^ 2) : |x| ≤ 2 * m := by
  by_contra hlt
  have hm0 : 0 < m := lt_of_lt_of_le (by norm_num) hm
  have hlarger : (2 * m) ^ 2 ≤ x * x := by
    rw [← abs_mul_abs_self x, ← sq]
    exact pow_le_pow_left₀ (by positivity) (not_le.mp hlt).le 2
  have hround := (round_mono hlarger).trans hsquare
  -- If it were larger, its square would be rounded above the other number.
  have hnearest := Format.binary32.abs_nearest_sub_le_mul (q := (2 * m) ^ 2) (by
    rw [abs_of_nonneg (by positivity)]
    have hleast : (2 : ℚ) ^ (Format.binary32.least + Format.binary32.digits - 1) =
        2 ^ (-126 : ℤ) := rfl
    rw [hleast]
    refine le_trans ?_ (pow_le_pow_left₀ (by norm_num) (mul_le_mul_of_nonneg_left hm two_pos.le) 2)
    norm_num)
  rw [abs_of_nonneg (sq_nonneg (2 * m))] at hnearest
  have hlow : (2 * m) ^ 2 - (2 * m) ^ 2 / 2 ^ 24 ≤ Format.binary32.nearest ((2 * m) ^ 2) := by
    have hsub := (abs_le.mp hnearest).1
    have hdigits : (2 : ℚ) ^ Format.binary32.digits = 2 ^ 24 := rfl
    rw [hdigits] at hsub
    linarith
  unfold Format.round at hround
  -- The square is finite, or it overflows upwards.
  split_ifs at hround with hsmall hpos
  · have hnum := fin_le_fin.mp hround
    have hsq : 0 < m ^ 2 := by positivity
    linarith
  · exact absurd (posInf_le_iff.mp hround) (by simp)
  · exact hpos (by positivity)

/-! ## Products -/

/-- Parts of numbers that follow one another. -/
theorem abs_sub_le_trans {x y z a b : ℚ} (hy : |y - z| ≤ |z| * a) (hx : |x - y| ≤ |y| * b)
    (hb : 0 ≤ b) : |x - z| ≤ |z| * (a + b + a * b) := by
  have htriangle : |x - z| ≤ |x - y| + |y - z| := abs_sub_le x y z
  have hsize : |y| ≤ |z| + |z| * a := by
    have hsum := abs_add_le (y - z) z
    rw [sub_add_cancel] at hsum
    linarith
  have hpart : |y| * b ≤ (|z| + |z| * a) * b := mul_le_mul_of_nonneg_right hsize hb
  linarith

/-- A number that is near an exact value is zero with it, and not much smaller or larger. -/
theorem Near.bounds {x : F32} {q : ℚ} (h : Near x q) :
    |q| / 2 ≤ |x.value| ∧ |x.value| ≤ 2 * |q| := by
  obtain ⟨-, herror⟩ := h
  have hpart : |q| / 2 ^ 24 ≤ |q| / 2 := by
    have hq := abs_nonneg q
    rw [div_le_div_iff₀ (by norm_num) (by norm_num)]
    nlinarith
  have hlow := abs_sub_abs_le_abs_sub q x.value
  have hhigh := abs_sub_abs_le_abs_sub x.value q
  rw [abs_sub_comm] at hlow
  constructor <;> linarith

/-- A product that is neither too small nor too large. -/
theorem near_mul {x y : F32} (hx : x.isFinite = true) (hy : y.isFinite = true)
    (hsmall : x.value * y.value ≠ 0 → 2 ^ (-126 : ℤ) ≤ |x.value * y.value|)
    (hbig : |x.value * y.value| ≤ 2 ^ 100) : Near (x * y) (x.value * y.value) := by
  obtain ⟨p, hp, rfl⟩ : ∃ p hp, x = fin p hp := ⟨_, exists_fin hx⟩
  obtain ⟨q, hq, rfl⟩ : ∃ q hq, y = fin q hq := ⟨_, exists_fin hy⟩
  exact near_round hsmall hbig

/-- A number that is zero or from some size on times a scale that is zero or from `2 ^ -40` on. -/
theorem near_mul_scale {x s : F32} {size : ℤ} (hx : x.isFinite = true) (hs : s.isFinite = true)
    (hx0 : x.value ≠ 0 → 2 ^ size ≤ |x.value|) (hs0 : s.value ≠ 0 → 2 ^ (-40 : ℤ) ≤ |s.value|)
    (hsize : -86 ≤ size) (hxbig : |x.value| ≤ 2 ^ 68) (hsbig : |s.value| ≤ 2 ^ 32) :
    Near (x * s) (x.value * s.value) := by
  refine near_mul hx hs (fun hne => ?_) ?_
  · have hxs := mul_ne_zero_iff.mp hne
    have hpow : (2 : ℚ) ^ (-126 : ℤ) ≤ 2 ^ size * 2 ^ (-40 : ℤ) := by
      rw [← zpow_add₀ two_ne_zero]
      exact zpow_le_zpow_two (by omega)
    rw [abs_mul]
    exact hpow.trans
      (mul_le_mul (hx0 hxs.1) (hs0 hxs.2) (two_zpow_pos _).le (abs_nonneg _))
  · rw [abs_mul]
    calc |x.value| * |s.value| ≤ 2 ^ 68 * 2 ^ 32 :=
          mul_le_mul hxbig hsbig (abs_nonneg _) (by norm_num)
      _ = 2 ^ 100 := by norm_num

/-- The product of a whole number with two scales. -/
theorem scaled_near {n : ℤ} (hn : |n| ≤ 2 ^ 31) {s t : F32} (hs : s.isFinite = true)
    (ht : t.isFinite = true) (hs0 : s.value ≠ 0 → 2 ^ (-40 : ℤ) ≤ |s.value|)
    (ht0 : t.value ≠ 0 → 2 ^ (-40 : ℤ) ≤ |t.value|) (hsbig : |s.value| ≤ 2 ^ 32)
    (htbig : |t.value| ≤ 2 ^ 32) :
    (Format.binary32.round n * s * t).isFinite = true ∧
      |(Format.binary32.round n * s * t).value - n * s.value * t.value| ≤
        |n * s.value * t.value| / 2 ^ 22 := by
  have hnbig : |(n : ℚ)| ≤ 2 ^ 31 := by exact_mod_cast hn
  have hnone : (n : ℚ) ≠ 0 → 1 ≤ |(n : ℚ)| := by
    intro hne
    exact_mod_cast Int.one_le_abs (Int.cast_ne_zero.mp hne)
  -- The integer is rounded to a number close to it.
  have hn' : Near (Format.binary32.round n) n := by
    refine near_round (fun hne => ?_) (hnbig.trans (by norm_num))
    exact (zpow_le_one_of_nonpos₀ one_le_two (by norm_num)).trans (hnone hne)
  generalize Format.binary32.round (n : ℚ) = d at hn' ⊢
  have hd := hn'.bounds
  -- It is zero or not small.
  have hd0 : d.value ≠ 0 → (2 : ℚ) ^ (-1 : ℤ) ≤ |d.value| := by
    intro hne
    have hnne : (n : ℚ) ≠ 0 := by
      intro hzero
      rw [hzero, abs_zero, mul_zero] at hd
      exact hne (abs_nonpos_iff.mp hd.2)
    have hone := hnone hnne
    have hhalf : (2 : ℚ) ^ (-1 : ℤ) = 1 / 2 := by norm_num
    rw [hhalf]
    linarith [hd.1]
  -- The product with the first factor is rounded once more,
  have hds := near_mul_scale hn'.1 hs hd0 hs0 (by norm_num) (by
    refine hd.2.trans ?_
    have hpow : (2 : ℚ) * 2 ^ 31 ≤ 2 ^ 68 := by norm_num
    linarith) hsbig
  generalize d * s = e at hds ⊢
  have he := hds.bounds
  have he0 : e.value ≠ 0 → (2 : ℚ) ^ (-42 : ℤ) ≤ |e.value| := by
    intro hne
    have hdsne : d.value * s.value ≠ 0 := by
      intro hzero
      rw [hzero, abs_zero, mul_zero] at he
      exact hne (abs_nonpos_iff.mp he.2)
    obtain ⟨hdne, hsne⟩ := mul_ne_zero_iff.mp hdsne
    have hprod : (2 : ℚ) ^ (-1 : ℤ) * 2 ^ (-40 : ℤ) ≤ |d.value| * |s.value| :=
      mul_le_mul (hd0 hdne) (hs0 hsne) (two_zpow_pos _).le (abs_nonneg _)
    rw [← abs_mul] at hprod
    have hpow : (2 : ℚ) ^ (-42 : ℤ) = 2 ^ (-1 : ℤ) * 2 ^ (-40 : ℤ) / 2 := by norm_num
    rw [hpow]
    exact (div_le_div_of_nonneg_right hprod (by norm_num)).trans he.1
  have hebig : |e.value| ≤ 2 ^ 68 := by
    have hprod : |d.value| * |s.value| ≤ (2 * 2 ^ 31) * 2 ^ 32 :=
      mul_le_mul (by linarith [hd.2]) hsbig (abs_nonneg _) (by norm_num)
    rw [← abs_mul] at hprod
    have hpow : (2 : ℚ) * (2 * 2 ^ 31 * 2 ^ 32) ≤ 2 ^ 68 := by norm_num
    linarith [he.2]
  -- and so is the product with the second one.
  have het := near_mul_scale hds.1 ht he0 ht0 (by norm_num) hebig htbig
  refine ⟨het.1, ?_⟩
  -- The three parts follow one another.
  have hfirst : |d.value * s.value * t.value - n * s.value * t.value| ≤
      |n * s.value * t.value| * (1 / 2 ^ 24) := by
    have hpart := mul_le_mul_of_nonneg_right hn'.2 (abs_nonneg (s.value * t.value))
    calc |d.value * s.value * t.value - n * s.value * t.value|
        = |d.value - n| * |s.value * t.value| := by
          rw [← abs_mul]
          congr 1
          ring
      _ ≤ |(n : ℚ)| / 2 ^ 24 * |s.value * t.value| := hpart
      _ = |n * s.value * t.value| * (1 / 2 ^ 24) := by
          rw [mul_assoc (n : ℚ), abs_mul (n : ℚ)]
          ring
  have hsecond : |e.value * t.value - d.value * s.value * t.value| ≤
      |d.value * s.value * t.value| * (1 / 2 ^ 24) := by
    have hpart := mul_le_mul_of_nonneg_right hds.2 (abs_nonneg t.value)
    calc |e.value * t.value - d.value * s.value * t.value|
        = |e.value - d.value * s.value| * |t.value| := by rw [← sub_mul, abs_mul]
      _ ≤ |d.value * s.value| / 2 ^ 24 * |t.value| := hpart
      _ = |d.value * s.value * t.value| * (1 / 2 ^ 24) := by
          rw [abs_mul (d.value * s.value)]
          ring
  have hthird : |(e * t).value - e.value * t.value| ≤ |e.value * t.value| * (1 / 2 ^ 24) := by
    rw [mul_one_div]
    exact het.2
  have htwo := abs_sub_le_trans hfirst hsecond (by norm_num)
  have hthree := abs_sub_le_trans htwo hthird (by norm_num)
  have hparts : (1 / 2 ^ 24 + 1 / 2 ^ 24 + 1 / 2 ^ 24 * (1 / 2 ^ 24) + 1 / 2 ^ 24 +
      (1 / 2 ^ 24 + 1 / 2 ^ 24 + 1 / 2 ^ 24 * (1 / 2 ^ 24)) * (1 / 2 ^ 24) : ℚ) ≤ 1 / 2 ^ 22 := by
    norm_num
  calc |(e * t).value - n * s.value * t.value| ≤ _ := hthree
    _ ≤ |n * s.value * t.value| * (1 / 2 ^ 22) :=
        mul_le_mul_of_nonneg_left hparts (abs_nonneg _)
    _ = |n * s.value * t.value| / 2 ^ 22 := mul_one_div _ _

end F32

end Tellodb.Machine
