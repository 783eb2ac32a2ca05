import Mathlib.Data.Rat.Floor
import Mathlib.Algebra.Order.Field.Power
import Mathlib.Tactic.Linarith

/-!
# Rounding to a floating-point format

A format has the multiples of powers of two with so many binary digits, down to a least power.
`Format.nearest` is the one next to a rational number, and of two that are equally near the one with
the even multiple. It preserves the order (`nearest_mono`) and leaves the numbers of the format as
they are (`nearest_of_fits`). -/

namespace Tellodb.Machine

/-- A floating-point format: how many binary digits its numbers have, the least power of two that
they are multiples of, and the power that they stay below. -/
structure Format where
  digits : ℕ
  least : ℤ
  top : ℤ
  digits_pos : 0 < digits

/-- The format of `f32`. -/
def Format.binary32 : Format := ⟨24, -149, 128, by decide⟩

/-! ## Integers -/

/-- The integer next to a number, and of two the even one. -/
def roundEven (q : ℚ) : ℤ :=
  if q - ⌊q⌋ < 1 / 2 then ⌊q⌋
  else if 1 / 2 < q - ⌊q⌋ then ⌊q⌋ + 1
  else if ⌊q⌋ % 2 = 0 then ⌊q⌋ else ⌊q⌋ + 1

/-- An integer is its own rounding. -/
@[simp] theorem roundEven_intCast (n : ℤ) : roundEven n = n := by
  unfold roundEven
  rw [Int.floor_intCast, sub_self, if_pos (by norm_num)]

/-- The rounding is the floor, -/
theorem floor_le_roundEven (q : ℚ) : ⌊q⌋ ≤ roundEven q := by
  unfold roundEven
  split_ifs <;> omega

/-- or the integer above it. -/
theorem roundEven_le_floor_add_one (q : ℚ) : roundEven q ≤ ⌊q⌋ + 1 := by
  unfold roundEven
  split_ifs <;> omega

/-- Rounding keeps the order. -/
theorem roundEven_mono {p q : ℚ} (h : p ≤ q) : roundEven p ≤ roundEven q := by
  rcases (Int.floor_le_floor h).lt_or_eq with hlt | heq
  · exact (roundEven_le_floor_add_one p).trans (hlt.trans_le (floor_le_roundEven q))
  · unfold roundEven
    rw [heq]
    split_ifs
    all_goals first | omega | (exfalso; linarith)

/-- Rounding is odd. -/
theorem roundEven_neg (q : ℚ) : roundEven (-q) = -roundEven q := by
  by_cases hint : (⌊q⌋ : ℚ) = q
  · rw [← hint, ← Int.cast_neg, roundEven_intCast, roundEven_intCast]
  · have hlt : (⌊q⌋ : ℚ) < q := lt_of_le_of_ne (Int.floor_le q) hint
    have hfloor : ⌊-q⌋ = -⌊q⌋ - 1 := by
      rw [Int.floor_eq_iff]
      push_cast
      constructor
      · linarith [Int.lt_floor_add_one q]
      · linarith
    unfold roundEven
    rw [hfloor]
    push_cast
    split_ifs
    all_goals first | omega | (exfalso; linarith)

/-- A number up to an integer is rounded to it at most. -/
theorem roundEven_le {q : ℚ} {n : ℤ} (h : q ≤ n) : roundEven q ≤ n := by
  have hround := roundEven_mono h
  rwa [roundEven_intCast] at hround

/-- A number from an integer on is rounded to it at least. -/
theorem le_roundEven {q : ℚ} {n : ℤ} (h : (n : ℚ) ≤ q) : n ≤ roundEven q := by
  have hround := roundEven_mono h
  rwa [roundEven_intCast] at hround

/-! ## Powers of two -/

/-- The exponent of the power of two that a number other than zero is between, and the next one. -/
def binade (q : ℚ) : ℤ :=
  let e : ℤ := q.num.natAbs.log2 - q.den.log2
  if (2 : ℚ) ^ e ≤ |q| then e else e - 1

/-- The powers of two are positive. -/
theorem two_zpow_pos (e : ℤ) : (0 : ℚ) < 2 ^ e := zpow_pos two_pos e

/-- The powers of two grow with the exponent, -/
theorem zpow_le_zpow_two {a b : ℤ} (h : a ≤ b) : (2 : ℚ) ^ a ≤ 2 ^ b :=
  zpow_le_zpow_right₀ one_le_two h

/-- strictly. -/
theorem zpow_lt_zpow_iff_two {a b : ℤ} : (2 : ℚ) ^ a < 2 ^ b ↔ a < b :=
  zpow_lt_zpow_iff_right₀ one_lt_two

/-- A power of two from the exponent zero on is an integer. -/
theorem exists_intCast_eq_zpow {e : ℤ} (h : 0 ≤ e) : ∃ n : ℤ, (n : ℚ) = 2 ^ e := by
  obtain ⟨k, rfl⟩ := Int.eq_ofNat_of_zero_le h
  exact ⟨2 ^ k, by rw [zpow_natCast]; push_cast; rfl⟩

/-- A number is the quotient of its numerator and denominator, each next to a power of two. -/
private theorem abs_bounds {q : ℚ} (hq : q ≠ 0) :
    (2 : ℚ) ^ ((q.num.natAbs.log2 : ℤ) - q.den.log2 - 1) ≤ |q| ∧
      |q| < 2 ^ ((q.num.natAbs.log2 : ℤ) - q.den.log2 + 1) := by
  -- The numerator and the denominator are each between two powers of two.
  have habs : |q| = (q.num.natAbs : ℚ) / q.den := by
    conv_lhs => rw [← Rat.num_div_den q]
    rw [abs_div, Nat.abs_cast, Nat.cast_natAbs, Int.cast_abs]
  have hnum : q.num.natAbs ≠ 0 := Int.natAbs_ne_zero.mpr (Rat.num_ne_zero.mpr hq)
  have hden : (0 : ℚ) < q.den := by exact_mod_cast q.den_pos
  have hnumLower : (2 : ℚ) ^ (q.num.natAbs.log2 : ℤ) ≤ q.num.natAbs := by
    rw [zpow_natCast]
    exact_mod_cast Nat.log2_self_le hnum
  have hnumUpper : (q.num.natAbs : ℚ) < 2 ^ ((q.num.natAbs.log2 : ℤ) + 1) := by
    rw [← Nat.cast_one, ← Nat.cast_add, zpow_natCast]
    exact_mod_cast Nat.lt_log2_self
  have hdenLower : (2 : ℚ) ^ (q.den.log2 : ℤ) ≤ q.den := by
    rw [zpow_natCast]
    exact_mod_cast Nat.log2_self_le q.den_nz
  have hdenUpper : (q.den : ℚ) < 2 ^ ((q.den.log2 : ℤ) + 1) := by
    rw [← Nat.cast_one, ← Nat.cast_add, zpow_natCast]
    exact_mod_cast Nat.lt_log2_self
  rw [habs]
  constructor
  · rw [le_div_iff₀ hden, sub_sub, zpow_sub₀ two_ne_zero, div_mul_eq_mul_div,
      div_le_iff₀ (two_zpow_pos _)]
    exact mul_le_mul hnumLower hdenUpper.le hden.le (Nat.cast_nonneg _)
  · rw [div_lt_iff₀ hden, sub_add_eq_add_sub, zpow_sub₀ two_ne_zero, div_mul_eq_mul_div,
      lt_div_iff₀ (two_zpow_pos _)]
    exact mul_lt_mul hnumUpper hdenLower (two_zpow_pos _) (two_zpow_pos _).le

/-- A number is at least the power of two of its binade, -/
theorem zpow_binade_le {q : ℚ} (hq : q ≠ 0) : (2 : ℚ) ^ binade q ≤ |q| := by
  unfold binade
  dsimp only
  split_ifs with h
  · exact h
  · exact (abs_bounds hq).1

/-- and below the next one. -/
theorem lt_zpow_binade {q : ℚ} (hq : q ≠ 0) : |q| < 2 ^ (binade q + 1) := by
  unfold binade
  dsimp only
  split_ifs with h
  · exact (abs_bounds hq).2
  · rw [sub_add_cancel]
    exact not_le.mp h

/-- The binade ignores the sign, -/
@[simp] theorem binade_neg (q : ℚ) : binade (-q) = binade q := by
  unfold binade
  rw [Rat.num_neg_eq_neg_num, Rat.den_neg_eq_den, Int.natAbs_neg, abs_neg]

/-- A greater number is in the same binade or in a later one. -/
theorem binade_mono {p q : ℚ} (hp : p ≠ 0) (hq : q ≠ 0) (h : |p| ≤ |q|) :
    binade p ≤ binade q := by
  have hlt := ((zpow_binade_le hp).trans h).trans_lt (lt_zpow_binade hq)
  exact Int.lt_add_one_iff.mp (zpow_lt_zpow_iff_two.mp hlt)

/-! ## Numbers of a format -/

namespace Format

variable (F : Format)

/-- The exponent of the power of two that the numbers of the format next to `q` are multiples of. -/
def scale (q : ℚ) : ℤ :=
  max (binade q + 1 - F.digits) F.least

/-- The number of the format next to `q`, if there is no greatest one. -/
def nearest (q : ℚ) : ℚ :=
  roundEven (q / 2 ^ F.scale q) * 2 ^ F.scale q

/-- A multiple of a power of two, of as many digits as the format has. -/
def Fits (q : ℚ) : Prop :=
  ∃ (m e : ℤ), |m| ≤ 2 ^ F.digits ∧ F.least ≤ e ∧ q = m * 2 ^ e

variable {F} {p q : ℚ}

/-- and so does the scale. -/
theorem scale_neg (q : ℚ) : F.scale (-q) = F.scale q := by
  unfold scale
  rw [binade_neg]

/-- Zero is the nearest number to itself. -/
@[simp] theorem nearest_zero : F.nearest 0 = 0 := by
  unfold nearest
  rw [zero_div, ← Int.cast_zero, roundEven_intCast, Int.cast_zero, zero_mul]

/-- The nearest number to the negative is the negative. -/
theorem nearest_neg (q : ℚ) : F.nearest (-q) = -F.nearest q := by
  unfold nearest
  rw [scale_neg, neg_div, roundEven_neg, Int.cast_neg, neg_mul]

/-- A number up to a multiple of its power of two is rounded to it at most. -/
theorem nearest_le {n : ℤ} (h : q ≤ n * 2 ^ F.scale q) : F.nearest q ≤ n * 2 ^ F.scale q := by
  refine mul_le_mul_of_nonneg_right ?_ (two_zpow_pos _).le
  exact_mod_cast roundEven_le ((div_le_iff₀ (two_zpow_pos _)).mpr h)

/-- A number from a multiple of its power of two on is rounded to it at least. -/
theorem le_nearest {n : ℤ} (h : n * 2 ^ F.scale q ≤ q) : n * 2 ^ F.scale q ≤ F.nearest q := by
  refine mul_le_mul_of_nonneg_right ?_ (two_zpow_pos _).le
  exact_mod_cast le_roundEven ((le_div_iff₀ (two_zpow_pos _)).mpr h)

/-- The nearest number to one that is not negative is not negative. -/
theorem nearest_nonneg (h : 0 ≤ q) : 0 ≤ F.nearest q := by
  have hle := F.le_nearest (q := q) (n := 0) (by simpa using h)
  simpa using hle

/-- A power of two that is a multiple of another. -/
private theorem exists_mul_zpow {a b : ℤ} (h : a ≤ b) : ∃ n : ℤ, (n : ℚ) * 2 ^ a = 2 ^ b := by
  obtain ⟨n, hn⟩ := exists_intCast_eq_zpow (sub_nonneg.mpr h)
  exact ⟨n, by rw [hn, ← zpow_add₀ two_ne_zero, sub_add_cancel]⟩

/-- Rounding preserves the order of positive numbers. -/
private theorem nearest_mono_of_pos (hp : 0 < p) (h : p ≤ q) : F.nearest p ≤ F.nearest q := by
  have hq : 0 < q := hp.trans_le h
  -- The larger number is not in an earlier binade, and its unit is not smaller.
  have hbinade : binade p ≤ binade q :=
    binade_mono hp.ne' hq.ne' (by rwa [abs_of_pos hp, abs_of_pos hq])
  have hscale : F.scale p ≤ F.scale q := max_le_max_right _ (by omega)
  rcases hscale.lt_or_eq with hlt | heq
  · -- A power of two that both are multiples of lies between the two numbers.
    have hleast : F.least ≤ F.scale p := le_max_right _ _
    have hbinadeLe : binade p + 1 - F.digits ≤ F.scale p := le_max_left _ _
    have hscaleq : F.scale q = binade q + 1 - F.digits := by
      unfold scale at hlt hleast ⊢
      omega
    have hdigits := F.digits_pos
    have hpBelow : p ≤ 2 ^ binade q := by
      have hlt := lt_zpow_binade hp.ne'
      rw [abs_of_pos hp] at hlt
      exact hlt.le.trans (zpow_le_zpow_two (by omega))
    have hqAbove : 2 ^ binade q ≤ q := by
      have hle := zpow_binade_le hq.ne'
      rwa [abs_of_pos hq] at hle
    obtain ⟨m, hm⟩ := exists_mul_zpow (a := F.scale p) (b := binade q) (by omega)
    obtain ⟨n, hn⟩ := exists_mul_zpow (a := F.scale q) (b := binade q) (by omega)
    calc F.nearest p ≤ m * 2 ^ F.scale p := F.nearest_le (by rw [hm]; exact hpBelow)
      _ = n * 2 ^ F.scale q := by rw [hm, hn]
      _ ≤ F.nearest q := F.le_nearest (by rw [hn]; exact hqAbove)
  -- In one unit the multiples are in order.
  · unfold nearest
    rw [heq]
    refine mul_le_mul_of_nonneg_right ?_ (two_zpow_pos _).le
    exact_mod_cast roundEven_mono (div_le_div_of_nonneg_right h (two_zpow_pos _).le)

/-- Rounding preserves the order. -/
theorem nearest_mono (h : p ≤ q) : F.nearest p ≤ F.nearest q := by
  rcases lt_or_ge 0 p with hp | hp
  · exact nearest_mono_of_pos hp h
  · have hpneg : F.nearest p ≤ 0 := by
      have hnonneg := F.nearest_nonneg (q := -p) (by linarith)
      rw [nearest_neg] at hnonneg
      linarith
    rcases lt_or_ge q 0 with hq | hq
    · have hflip := nearest_mono_of_pos (F := F) (p := -q) (q := -p) (by linarith) (by linarith)
      rw [nearest_neg, nearest_neg] at hflip
      linarith
    · exact hpneg.trans (F.nearest_nonneg hq)

/-- What is rounded has the digits of the format. -/
theorem fits_nearest (q : ℚ) : F.Fits (F.nearest q) := by
  refine ⟨roundEven (q / 2 ^ F.scale q), F.scale q, ?_, le_max_right _ _, rfl⟩
  by_cases hq : q = 0
  · rw [hq, zero_div, ← Int.cast_zero, roundEven_intCast, abs_zero]
    positivity
  · have hlt : |q / 2 ^ F.scale q| ≤ ((2 ^ F.digits : ℤ) : ℚ) := by
      rw [abs_div, abs_of_pos (two_zpow_pos _), div_le_iff₀ (two_zpow_pos _)]
      push_cast
      rw [← zpow_natCast, ← zpow_add₀ two_ne_zero]
      have hscale : binade q + 1 - F.digits ≤ F.scale q := le_max_left _ _
      exact (lt_zpow_binade hq).le.trans (zpow_le_zpow_two (by omega))
    rw [abs_le] at hlt ⊢
    refine ⟨le_roundEven ?_, roundEven_le hlt.2⟩
    push_cast at hlt ⊢
    exact hlt.1

/-- A number of the format is a multiple of its power of two. -/
private theorem Fits.exists_mul_zpow_scale (h : F.Fits q) (hq : q ≠ 0) :
    ∃ n : ℤ, (n : ℚ) * 2 ^ F.scale q = q := by
  obtain ⟨m, e, hm, he, rfl⟩ := h
  -- Either the unit divides the power of the number.
  by_cases hscale : F.scale (m * 2 ^ e) ≤ e
  · obtain ⟨n, hn⟩ := exists_mul_zpow hscale
    exact ⟨m * n, by rw [Int.cast_mul, mul_assoc, hn]⟩
  · -- The number is the power of two next to all that have the digits of the format.
    have hdigits := F.digits_pos
    have hbinade : F.scale (m * 2 ^ e) = binade (m * 2 ^ e) + 1 - F.digits := by
      unfold scale at hscale ⊢
      omega
    have hmabs : |(m : ℚ)| ≤ 2 ^ (F.digits : ℤ) := by
      rw [zpow_natCast]
      exact_mod_cast hm
    have hupper : |(m : ℚ) * 2 ^ e| ≤ 2 ^ (F.digits + e) := by
      rw [abs_mul, abs_of_pos (two_zpow_pos e), zpow_add₀ two_ne_zero]
      exact mul_le_mul_of_nonneg_right hmabs (two_zpow_pos e).le
    have hlower : (2 : ℚ) ^ (F.digits + e) ≤ |(m : ℚ) * 2 ^ e| :=
      (zpow_le_zpow_two (by omega)).trans (zpow_binade_le hq)
    have hbinadeLe : binade ((m : ℚ) * 2 ^ e) < F.digits + e + 1 :=
      zpow_lt_zpow_iff_two.mp (((zpow_binade_le hq).trans hupper).trans_lt
        (zpow_lt_zpow_iff_two.mpr (lt_add_one _)))
    obtain ⟨n, hn⟩ := exists_mul_zpow (a := F.scale (m * 2 ^ e)) (b := F.digits + e) (by omega)
    rcases abs_choice ((m : ℚ) * 2 ^ e) with hpos | hneg
    · exact ⟨n, by rw [hn, ← hpos]; exact le_antisymm hlower hupper⟩
    · refine ⟨-n, ?_⟩
      rw [Int.cast_neg, neg_mul, hn, neg_eq_iff_eq_neg, ← hneg]
      exact le_antisymm hlower hupper

/-- The numbers of the format are left as they are. -/
theorem nearest_of_fits (h : F.Fits q) : F.nearest q = q := by
  by_cases hq : q = 0
  · rw [hq, nearest_zero]
  obtain ⟨n, hn⟩ := h.exists_mul_zpow_scale hq
  have hquotient : q / 2 ^ F.scale q = n := (eq_div_of_mul_eq (two_zpow_pos _).ne' hn).symm
  unfold nearest
  rw [hquotient, roundEven_intCast, hn]

end Format

end Tellodb.Machine
