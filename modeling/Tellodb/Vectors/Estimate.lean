import Tellodb.Machine.Errors
import Tellodb.Vectors.Scan

/-!
# What eight bits are worth

A segment of `Quantization::I8` holds a code of eight bits for each number of a vector and one
scale, and a scan estimates the product of two vectors by that of their codes. The numbers are those
of `f32` here, with every result rounded. A code times its scale is near the number
(`quantizeI8_near`), so the estimate is near the exact product (`estimate_near`), and so the scan of
a segment after any upserts and removals finds vectors that are nearly the best: one that is left
out is more similar than one that is found by no more than the two errors (`i8_scan_near`). -/

namespace Tellodb

open Relational Collections Machine Machine.Format Machine.Format.Number

/-! ## Sizes -/

/-- The largest size of a number of a vector. -/
def amplitude (v : List F32) : ℚ :=
  v.foldl (fun m x => max m |x.value|) 0

/-- The exact product of two vectors. -/
def exactDot (a b : List F32) : ℚ :=
  ((a.zip b).map fun p => p.1.value * p.2.value).sum

/-- The numbers of a vector are finite. -/
def FiniteVector (v : List F32) : Prop :=
  ∀ x ∈ v, x.isFinite = true

instance (v : List F32) : Decidable (FiniteVector v) :=
  inferInstanceAs (Decidable (∀ x ∈ v, x.isFinite = true))

/-- A maximum is below a bound if all its parts are. -/
theorem foldl_max_le_iff {v : List F32} {m c : ℚ} :
    v.foldl (fun m x => max m |x.value|) m ≤ c ↔ m ≤ c ∧ ∀ x ∈ v, |x.value| ≤ c := by
  induction v generalizing m with
  | nil => simp
  | cons x v ih => rw [List.foldl_cons, ih, max_le_iff, List.forall_mem_cons, and_assoc]

/-- The amplitude is below a bound if all the components are. -/
theorem amplitude_le_iff {v : List F32} {c : ℚ} :
    amplitude v ≤ c ↔ 0 ≤ c ∧ ∀ x ∈ v, |x.value| ≤ c :=
  foldl_max_le_iff

/-- No component exceeds the amplitude. -/
theorem abs_le_amplitude {v : List F32} {x : F32} (hx : x ∈ v) : |x.value| ≤ amplitude v :=
  (amplitude_le_iff.mp (le_refl _)).2 x hx

/-- The amplitude is not negative. -/
theorem amplitude_nonneg (v : List F32) : 0 ≤ amplitude v :=
  (amplitude_le_iff.mp (le_refl _)).1

/-- The largest size is found as a number. -/
theorem foldl_max_fin {v : List F32} (hv : FiniteVector v) {m : ℚ} (hm : binary32.Has m) :
    ∃ h, v.foldl (fun m x => Number.max m (Number.abs x)) (.fin m hm) =
      (.fin (v.foldl (fun m x => max m |x.value|) m) h : F32) := by
  induction v generalizing m with
  | nil => exact ⟨hm, rfl⟩
  | cons x v ih =>
    obtain ⟨hx, hxfin⟩ := exists_fin (hv x List.mem_cons_self)
    obtain ⟨habs, hxabs⟩ := abs_fin hx
    have hmax : ∃ hmax, Number.max (.fin m hm) (Number.abs x) =
        (.fin (max m |x.value|) hmax : F32) := by
      rw [hxfin, hxabs]
      simp only [value_fin]
      rcases le_total m |x.value| with hle | hle
      · refine ⟨(max_eq_right hle).symm ▸ habs, ?_⟩
        have hnum : (Number.fin m hm : F32) ≤ .fin |x.value| habs := fin_le_fin.mpr hle
        simp [Number.max, max_eq_right hle, max_eq_right hnum]
      · refine ⟨(max_eq_left hle).symm ▸ hm, ?_⟩
        have hnum : (Number.fin |x.value| habs : F32) ≤ .fin m hm := fin_le_fin.mpr hle
        simp [Number.max, max_eq_left hle, max_eq_left hnum]
    obtain ⟨hmax, hmaxfin⟩ := hmax
    rw [List.foldl_cons, List.foldl_cons, hmaxfin]
    exact ih (fun y hy => hv y (List.mem_cons_of_mem _ hy)) hmax

/-! ## Codes -/

/-- A code times its scale is near a number. -/
structure CodeNear (amplitude scale : ℚ) (code : Int8) (x : F32) : Prop where
  error : |x.value - code.toInt * scale| ≤ amplitude / 253 + 1 / 2 ^ 23
  size : |code.toInt * scale| ≤ amplitude * (1 + 1 / 2 ^ 20)

/-- The codes and the scale of a vector. -/
structure CodesNear (v : List F32) (codes : List Int8) (scale : F32) : Prop where
  finite : scale.isFinite = true
  least : scale.value ≠ 0 → 2 ^ (-40 : ℤ) ≤ |scale.value|
  most : |scale.value| ≤ 2 ^ 32
  near : List.Forall₂ (CodeNear (amplitude v) scale.value) codes v

/-- The code of a number that is a little more than 127 at most. -/
theorem toInt_toInt8 {q : ℚ} (hq : binary32.Has q) (h : |q| < 127 + 1 / 2) :
    |((F32.toInt8 (.fin q hq)).toInt : ℚ) - q| ≤ 1 / 2 ∧
      |((F32.toInt8 (.fin q hq)).toInt : ℚ)| ≤ 127 := by
  have hround : |roundAway q| ≤ 127 := abs_roundAway_le (by exact_mod_cast h)
  obtain ⟨hlow, hhigh⟩ := abs_le.mp hround
  have hcode : (F32.toInt8 (.fin q hq)).toInt = roundAway q := by
    unfold F32.toInt8
    dsimp only
    rw [min_eq_right hhigh, max_eq_right hlow]
    exact Int8.toInt_ofInt_of_le (by omega) (by omega)
  rw [hcode]
  exact ⟨abs_roundAway_sub_le q, by exact_mod_cast hround⟩

section

variable {H : Type} {halfZero : H} {toHalf : F32 → H} {toFull : H → F32}

/-- A number divided by the scale and rounded, where the scale is near a 127th of the largest one.
-/
theorem codeNear_of_scale {m s : ℚ} (hm : 0 < m) (hs : binary32.Has s)
    (hnear : |s - m / 127| ≤ m / 127 / 2 ^ 24) {x : F32} (hx : x.isFinite = true)
    (hxm : |x.value| ≤ m) : CodeNear m s (F32.toInt8 (x / .fin s hs)) x := by
  obtain ⟨hlow, hhigh⟩ := abs_le.mp hnear
  have hs0 : 0 < s := by linarith
  -- The quotient is within the range of the codes, up to a little.
  have hratio : |x.value / s| < 127 + 1 / 4 := by
    rw [abs_div, abs_of_pos hs0, div_lt_iff₀ hs0]
    linarith
  -- The division is rounded, by less than a code.
  have herror : |binary32.nearest (x.value / s) - x.value / s| ≤ 1 / 2 ^ 18 := by
    have hhalf := binary32.abs_nearest_sub_le_of_lt (q := x.value / s) (e := 7)
      (hratio.trans (by norm_num)) (by decide)
    refine hhalf.trans (le_of_eq ?_)
    have hdigits : (7 - (binary32.digits : ℤ)) = -17 := by decide
    rw [hdigits]
    norm_num
  have hnearest : |binary32.nearest (x.value / s)| < 127 + 1 / 2 := by
    have htriangle := abs_add_le (binary32.nearest (x.value / s) - x.value / s) (x.value / s)
    rw [sub_add_cancel] at htriangle
    have hnum : (1 : ℚ) / 2 ^ 18 + (127 + 1 / 4) < 127 + 1 / 2 := by norm_num
    linarith
  obtain ⟨hx, hxfin⟩ := exists_fin hx
  obtain ⟨hy, hdiv⟩ : ∃ hy, x / .fin s hs = (.fin (binary32.nearest (x.value / s)) hy : F32) := by
    have hlt : |binary32.nearest (x.value / s)| < 2 ^ binary32.top := by
      have htop : (2 : ℚ) ^ binary32.top = 2 ^ 128 := rfl
      rw [htop]
      exact hnearest.trans (by norm_num)
    rw [hxfin, fin_div_fin hx hs hs0.ne']
    unfold Format.round
    rw [dif_pos hlt]
    exact ⟨_, rfl⟩
  rw [hdiv]
  obtain ⟨hcode, hsize⟩ := toInt_toInt8 hy hnearest
  have htop : s ≤ m / 127 * (1 + 1 / 2 ^ 24) := by linarith
  refine ⟨?_, ?_⟩
  -- The code is half a step away at most, and the scale is rounded.
  · generalize (F32.toInt8 (.fin (binary32.nearest (x.value / s)) hy)).toInt = code at hcode ⊢
    have hapart : |x.value / s - code| ≤ 1 / 2 + 1 / 2 ^ 18 := by
      have htriangle := abs_sub_le (code : ℚ) (binary32.nearest (x.value / s)) (x.value / s)
      rw [abs_sub_comm]
      linarith
    calc |x.value - code * s| = |x.value / s - code| * s := by
          rw [← abs_of_pos hs0, ← abs_mul, abs_of_pos hs0, sub_mul, div_mul_cancel₀ _ hs0.ne']
      _ ≤ (1 / 2 + 1 / 2 ^ 18) * (m / 127 * (1 + 1 / 2 ^ 24)) :=
          mul_le_mul hapart htop hs0.le (by norm_num)
      _ ≤ m / 253 + 1 / 2 ^ 23 := by
          have hnum : (1 / 2 + 1 / 2 ^ 18 : ℚ) * (1 / 127 * (1 + 1 / 2 ^ 24)) ≤ 1 / 253 := by
            norm_num
          have hscale := mul_le_mul_of_nonneg_right hnum hm.le
          have hrest : (0 : ℚ) ≤ 1 / 2 ^ 23 := by norm_num
          linarith
  -- The code has seven bits, and the scale is rounded.
  · generalize (F32.toInt8 (.fin (binary32.nearest (x.value / s)) hy)).toInt = code at hsize ⊢
    calc |code * s| = |(code : ℚ)| * s := by rw [abs_mul, abs_of_pos hs0]
      _ ≤ 127 * (m / 127 * (1 + 1 / 2 ^ 24)) := mul_le_mul hsize htop hs0.le (by norm_num)
      _ ≤ m * (1 + 1 / 2 ^ 20) := by
          have hnum : (127 : ℚ) * (1 / 127 * (1 + 1 / 2 ^ 24)) ≤ 1 + 1 / 2 ^ 20 := by norm_num
          have hscale := mul_le_mul_of_nonneg_right hnum hm.le
          linarith

variable (halfZero toHalf toFull) in

/-- `quantize_i8` -/
theorem quantizeI8_near {v : List F32} (hv : FiniteVector v) (hbig : amplitude v ≤ 2 ^ 32) :
    CodesNear v (quantizeI8 (f32Ops halfZero toHalf toFull).toFloatOps v).1
      (quantizeI8 (f32Ops halfZero toHalf toFull).toFloatOps v).2 := by
  -- The largest size is found without rounding.
  obtain ⟨hhas, hmax⟩ := foldl_max_fin hv has_zero
  have hlargest : v.foldl (fun m x => (f32Ops halfZero toHalf toFull).max m
      ((f32Ops halfZero toHalf toFull).abs x)) (f32Ops halfZero toHalf toFull).zero =
        .fin (amplitude v) hhas := by
    have hzero : (f32Ops halfZero toHalf toFull).zero = .fin 0 has_zero := zero_eq
    rw [hzero]
    exact hmax
  unfold quantizeI8
  rw [hlargest]
  dsimp only
  by_cases hsmall : amplitude v ≤ 1 / 2 ^ 23
  · -- All numbers are too small, and so are their codes.
    have hwithin : (f32Ops halfZero toHalf toFull).withinEpsilon (.fin (amplitude v) hhas) = true :=
      decide_eq_true ⟨by simp, fin_le_fin.mpr hsmall⟩
    have hzero : (f32Ops halfZero toHalf toFull).zero = .fin 0 has_zero := zero_eq
    rw [if_pos hwithin, hzero]
    refine ⟨rfl, fun hne => absurd rfl hne, by norm_num, ?_⟩
    rw [← List.map_const', List.forall₂_map_left_iff, List.forall₂_same]
    intro x hx
    have hxm := abs_le_amplitude hx
    have hpart : 0 ≤ amplitude v / 253 := div_nonneg (amplitude_nonneg v) (by norm_num)
    refine ⟨?_, ?_⟩
    · rw [value_fin, mul_zero, sub_zero]
      linarith
    · rw [value_fin, mul_zero, abs_zero]
      exact mul_nonneg (amplitude_nonneg v) (by norm_num)
  · have hwithin : ¬ (f32Ops halfZero toHalf toFull).withinEpsilon (.fin (amplitude v) hhas) =
        true := fun hwithin => hsmall (fin_le_fin.mp (of_decide_eq_true hwithin).2)
    rw [if_neg hwithin]
    have hm : 1 / 2 ^ 23 < amplitude v := not_le.mp hsmall
    have hm0 : 0 < amplitude v := lt_trans (by norm_num) hm
    -- The scale is the largest size by 127, rounded once.
    have h127 : (f32Ops halfZero toHalf toFull).c127 = .fin 127 (by decide +kernel) :=
      round_of_has _
    have hdiv : (f32Ops halfZero toHalf toFull).div (.fin (amplitude v) hhas)
        (f32Ops halfZero toHalf toFull).c127 = binary32.round (amplitude v / 127) := by
      rw [h127]
      exact fin_div_fin hhas _ (by norm_num)
    have hpart0 : 0 < amplitude v / 127 := by positivity
    have hscale : F32.Near (binary32.round (amplitude v / 127)) (amplitude v / 127) := by
      refine F32.near_round (fun _ => ?_) ?_
      · rw [abs_of_pos (by positivity)]
        refine le_trans ?_ (div_le_div_of_nonneg_right hm.le (by norm_num))
        norm_num
      · rw [abs_of_pos (by positivity)]
        refine (div_le_self hm0.le (by norm_num)).trans (hbig.trans (by norm_num))
    rw [hdiv]
    -- Only the distance of the scale from the quotient is needed.
    generalize binary32.round (amplitude v / 127) = scale at hscale ⊢
    obtain ⟨hfinite, herror⟩ := hscale
    rw [abs_of_pos hpart0] at herror
    obtain ⟨hlow, hhigh⟩ := abs_le.mp herror
    have hvalue0 : 0 < scale.value := by linarith
    refine ⟨hfinite, fun _ => ?_, ?_, ?_⟩
    · rw [abs_of_pos hvalue0]
      have hnum : (2 : ℚ) ^ (-40 : ℤ) ≤ 1 / 2 ^ 23 / 127 * (1 - 1 / 2 ^ 24) := by norm_num
      refine hnum.trans ?_
      change _ ≤ scale.value
      linarith
    · rw [abs_of_pos hvalue0]
      linarith
    · rw [List.forall₂_map_left_iff, List.forall₂_same]
      intro x hx
      obtain ⟨hs, hscalefin⟩ := exists_fin hfinite
      have hcode := codeNear_of_scale hm0 hs herror (hv x hx) (abs_le_amplitude hx)
      rwa [← hscalefin] at hcode

end

/-! ## Products -/

/-- The product of two numbers and that of their codes. -/
theorem CodeNear.mul {a b s t : ℚ} {c d : Int8} {x y : F32} (hx : CodeNear a s c x)
    (hy : CodeNear b t d y) (hxa : |x.value| ≤ a) :
    |x.value * y.value - c.toInt * d.toInt * (s * t)| ≤
        a * (b / 253 + 1 / 2 ^ 23) + (a / 253 + 1 / 2 ^ 23) * (b * (1 + 1 / 2 ^ 20)) ∧
      |c.toInt * d.toInt * (s * t)| ≤ a * (1 + 1 / 2 ^ 20) * (b * (1 + 1 / 2 ^ 20)) := by
  have ha : 0 ≤ a := (abs_nonneg _).trans hxa
  constructor
  · have hsplit : x.value * y.value - c.toInt * d.toInt * (s * t) =
        x.value * (y.value - d.toInt * t) + (x.value - c.toInt * s) * (d.toInt * t) := by ring
    rw [hsplit]
    refine (abs_add_le _ _).trans (add_le_add ?_ ?_)
    · rw [abs_mul]
      exact mul_le_mul hxa hy.error (abs_nonneg _) ha
    · rw [abs_mul]
      exact mul_le_mul hx.error hy.size (abs_nonneg _) (by positivity)
  · have hsplit : (c.toInt * d.toInt * (s * t) : ℚ) = c.toInt * s * (d.toInt * t) := by ring
    rw [hsplit, abs_mul]
    exact mul_le_mul hx.size hy.size (abs_nonneg _) (by positivity)

/-- The product of two vectors and that of their codes. -/
theorem abs_exactDot_sub_le {a b s t : ℚ} {v w : List F32} {c d : List Int8}
    (hv : List.Forall₂ (CodeNear a s) c v) (hw : List.Forall₂ (CodeNear b t) d w)
    (hva : ∀ x ∈ v, |x.value| ≤ a) (ha : 0 ≤ a) (hb : 0 ≤ b) :
    |exactDot v w - codeProduct c d * (s * t)| ≤
        v.length * (a * (b / 253 + 1 / 2 ^ 23) + (a / 253 + 1 / 2 ^ 23) * (b * (1 + 1 / 2 ^ 20))) ∧
      |codeProduct c d * (s * t)| ≤
        v.length * (a * (1 + 1 / 2 ^ 20) * (b * (1 + 1 / 2 ^ 20))) := by
  induction hv generalizing d w with
  | nil => simp [exactDot, codeProduct]
  | @cons code x c v hx hv ih =>
    cases hw with
    -- A longer vector is cut to the shorter one in both sums.
    | nil =>
      have hlength : (0 : ℚ) ≤ ((x :: v).length : ℕ) := Nat.cast_nonneg _
      simp only [exactDot, codeProduct, List.zip_nil_right, List.map_nil, List.sum_nil,
        Int.cast_zero, zero_mul, sub_zero, abs_zero]
      constructor <;> positivity
    | @cons code' y d w hy hw =>
      obtain ⟨hterm, hsize⟩ := hx.mul hy (hva x List.mem_cons_self)
      obtain ⟨hrest, hrestSize⟩ := ih hw fun z hz => hva z (List.mem_cons_of_mem _ hz)
      have hdot : exactDot (x :: v) (y :: w) = x.value * y.value + exactDot v w := rfl
      have hcodes : ((codeProduct (code :: c) (code' :: d) : ℤ) : ℚ) =
          code.toInt * code'.toInt + (codeProduct c d : ℤ) := by
        unfold codeProduct
        rw [List.zip_cons_cons, List.map_cons, List.sum_cons]
        push_cast
        rfl
      rw [hdot, hcodes, List.length_cons]
      push_cast
      -- The errors of the terms add up.
      constructor
      · have hsplit : x.value * y.value + exactDot v w -
            (code.toInt * code'.toInt + codeProduct c d) * (s * t) =
              (x.value * y.value - code.toInt * code'.toInt * (s * t)) +
                (exactDot v w - codeProduct c d * (s * t)) := by ring
        rw [hsplit]
        refine (abs_add_le _ _).trans ?_
        linarith
      · rw [add_mul (_ * _ : ℚ)]
        refine (abs_add_le _ _).trans ?_
        linarith

/-- The product of codes fits in 32 bits. -/
theorem abs_codeProduct_le (c d : List Int8) : |codeProduct c d| ≤ 2 ^ 14 * c.length := by
  induction c generalizing d with
  | nil => simp [codeProduct]
  | cons code c ih =>
    cases d with
    | nil =>
      simp only [codeProduct, List.zip_nil_right, List.map_nil, List.sum_nil, abs_zero]
      positivity
    | cons code' d =>
      have hterm := (toInt_mul_toInt32 code code').2
      have hrest := ih d
      have hcodes : codeProduct (code :: c) (code' :: d) =
          code.toInt * code'.toInt + codeProduct c d := rfl
      rw [hcodes, List.length_cons]
      refine (abs_add_le _ _).trans ?_
      push_cast
      linarith

/-- The estimate of the product of two vectors from their codes. -/
def i8Estimate {F H : Type} (ops : ScanOps F H) (query v : List F) : F :=
  let a := quantizeI8 ops.toFloatOps query
  let b := quantizeI8 ops.toFloatOps v
  ops.mul (ops.mul (ops.ofInt (codeProduct a.1 b.1)) b.2) a.2

/-- The error of an estimate, of so many numbers of some sizes. -/
def i8Error (dims : ℕ) (a b : ℚ) : ℚ :=
  dims * (a * b / 126 + (a + b) / 2 ^ 22)

section

variable {H : Type} (halfZero : H) (toHalf : F32 → H) (toFull : H → F32)

/-- The estimate from the codes of two vectors is near their product. -/
theorem estimate_near {query v : List F32} (hquery : FiniteVector query) (hv : FiniteVector v)
    (hquerybig : amplitude query ≤ 2 ^ 32) (hvbig : amplitude v ≤ 2 ^ 32)
    (hdims : query.length < 2 ^ 17) :
    (i8Estimate (f32Ops halfZero toHalf toFull) query v).isFinite = true ∧
      |(i8Estimate (f32Ops halfZero toHalf toFull) query v).value - exactDot query v| ≤
        i8Error query.length (amplitude query) (amplitude v) := by
  unfold i8Estimate
  -- Both vectors are near their codes.
  have hq := quantizeI8_near halfZero toHalf toFull hquery hquerybig
  have hv := quantizeI8_near halfZero toHalf toFull hv hvbig
  generalize quantizeI8 (f32Ops halfZero toHalf toFull).toFloatOps query = a at hq ⊢
  generalize quantizeI8 (f32Ops halfZero toHalf toFull).toFloatOps v = b at hv ⊢
  -- The sum of the products is small enough to be exact.
  have hcodes : |codeProduct a.1 b.1| ≤ 2 ^ 31 := by
    have hle := abs_codeProduct_le a.1 b.1
    rw [hq.near.length_eq] at hle
    omega
  obtain ⟨hfinite, hrounded⟩ :=
    F32.scaled_near hcodes hv.finite hq.finite hv.least hq.least hv.most hq.most
  refine ⟨hfinite, ?_⟩
  obtain ⟨hexact, hsize⟩ := abs_exactDot_sub_le hq.near hv.near (fun x hx => abs_le_amplitude hx)
    (amplitude_nonneg query) (amplitude_nonneg v)
  have hsame : (codeProduct a.1 b.1 : ℚ) * b.2.value * a.2.value =
      codeProduct a.1 b.1 * (a.2.value * b.2.value) := by ring
  rw [hsame] at hrounded
  have hA := amplitude_nonneg query
  have hB := amplitude_nonneg v
  rw [abs_sub_comm] at hexact
  -- The rounding of the product and the distance of the codes add up.
  refine (abs_sub_le _ _ _).trans ((add_le_add hrounded hexact).trans ?_)
  generalize amplitude query = A at hA hsize ⊢
  generalize amplitude v = B at hB hsize ⊢
  generalize |(codeProduct a.1 b.1 : ℚ) * (a.2.value * b.2.value)| = size at hsize ⊢
  have hAB : (1 / 253 + (1 + 1 / 2 ^ 20) / 253 + (1 + 1 / 2 ^ 20) ^ 2 / 2 ^ 22) * (A * B) ≤
      1 / 126 * (A * B) := mul_le_mul_of_nonneg_right (by norm_num) (mul_nonneg hA hB)
  have hterm : A * (1 + 1 / 2 ^ 20) * (B * (1 + 1 / 2 ^ 20)) / 2 ^ 22 +
      (A * (B / 253 + 1 / 2 ^ 23) + (A / 253 + 1 / 2 ^ 23) * (B * (1 + 1 / 2 ^ 20))) ≤
        A * B / 126 + (A + B) / 2 ^ 22 := by
    linarith
  have hn : (0 : ℚ) ≤ query.length := Nat.cast_nonneg _
  have hscaled := mul_le_mul_of_nonneg_left hterm hn
  unfold i8Error
  linarith

end

/-! ## Vectors of length one -/

/-- A number between others is finite, and so is its size. -/
theorem isFinite_round {p m : ℚ} (hm : binary32.Has m) (h : |p| ≤ m) :
    (binary32.round p).isFinite = true ∧ |(binary32.round p).value| ≤ m := by
  obtain ⟨hlow, hhigh⟩ := abs_le.mp h
  have hle := round_mono (F := binary32) hhigh
  have hge := round_mono (F := binary32) hlow
  rw [round_of_has hm] at hle
  rw [round_of_has hm.neg] at hge
  generalize binary32.round p = r at hle hge ⊢
  cases r with
  | nan => exact absurd (le_nan_iff.mp hge) (by simp)
  | negInf => exact absurd (le_negInf_iff.mp hge) (by simp)
  | fin q hq => exact ⟨rfl, abs_le.mpr ⟨fin_le_fin.mp hge, fin_le_fin.mp hle⟩⟩
  | posInf => exact absurd (posInf_le_iff.mp hle) (by simp)

/-- Two is a single-precision number. -/
theorem has_two : binary32.Has 2 := by decide +kernel

/-- The sum of the squares is from zero on, and not less than any of them. -/
theorem square_le_sum {v : List F32} (hv : FiniteVector v) :
    0 ≤ (v.map fun x => x * x).foldl (· + ·) (0 : F32) ∧
      ∀ x ∈ v, binary32.round (x.value * x.value) ≤
        (v.map fun x => x * x).foldl (· + ·) (0 : F32) := by
  have hsquare : ∀ x ∈ v, x * x = binary32.round (x.value * x.value) := by
    intro x hx
    obtain ⟨h, hfin⟩ := exists_fin (hv x hx)
    rw [hfin]
    rfl
  have hnonneg : ∀ y ∈ v.map fun x => x * x, 0 ≤ y := by
    intro y hy
    obtain ⟨x, hx, rfl⟩ := List.mem_map.mp hy
    rw [hsquare x hx, zero_eq, ← round_of_has has_zero]
    exact round_mono (mul_self_nonneg _)
  obtain ⟨hzero, hall⟩ := le_foldl_add hnonneg (le_refl 0)
  refine ⟨hzero, fun x hx => ?_⟩
  rw [← hsquare x hx]
  exact hall _ (List.mem_map_of_mem hx)

section

variable {H : Type} (halfZero : H) (toHalf : F32 → H) (toFull : H → F32)

/-- `normalized` gives finite numbers that are not much larger than one. -/
theorem normalized_spec {v : List F32} (hv : FiniteVector v) :
    FiniteVector (normalized (f32Ops halfZero toHalf toFull).toFloatOps v) ∧
      amplitude (normalized (f32Ops halfZero toHalf toFull).toFloatOps v) ≤ 2 := by
  -- It is enough to look at each number.
  have hsuffices : ∀ w : List F32, (∀ y ∈ w, y.isFinite = true ∧ |y.value| ≤ 2) →
      FiniteVector w ∧ amplitude w ≤ 2 := fun w hw =>
    ⟨fun y hy => (hw y hy).1, amplitude_le_iff.mpr ⟨by norm_num, fun y hy => (hw y hy).2⟩⟩
  refine hsuffices _ ?_
  -- No square is larger than the sum, even though the sum is rounded.
  obtain ⟨hzero, hsquares⟩ := square_le_sum hv
  unfold normalized
  dsimp only
  have hsum : (f32Ops halfZero toHalf toFull).sum
      (v.map fun x => (f32Ops halfZero toHalf toFull).mul x x) =
        (v.map fun x => x * x).foldl (· + ·) (0 : F32) := rfl
  rw [hsum]
  generalize (v.map fun x => x * x).foldl (· + ·) (0 : F32) = sum at hzero hsquares ⊢
  obtain rfl | ⟨s, hs, hs0, rfl⟩ := zero_le_cases hzero
  · -- The sum is too large, so all numbers become zero.
    have habove : (f32Ops halfZero toHalf toFull).aboveEpsilon
        ((f32Ops halfZero toHalf toFull).sqrt posInf) = true :=
      decide_eq_true (show Number.Less F32.epsilon posInf by decide +kernel)
    rw [if_pos habove]
    intro y hy
    obtain ⟨x, hx, rfl⟩ := List.mem_map.mp hy
    obtain ⟨h, hfin⟩ := exists_fin (hv x hx)
    have hdiv : (f32Ops halfZero toHalf toFull).div x ((f32Ops halfZero toHalf toFull).sqrt posInf)
        = .fin 0 has_zero := by
      rw [hfin]
      rfl
    rw [hdiv]
    exact ⟨rfl, by simp⟩
  -- The sum is finite, and so is its root.
  · obtain ⟨hfinite, hnorm0, hnorm⟩ := F32.sqrt_spec hs hs0
    have hsqrt : (f32Ops halfZero toHalf toFull).sqrt (.fin s hs) = F32.sqrt (.fin s hs) := rfl
    rw [hsqrt]
    obtain ⟨hn, hnfin⟩ := exists_fin hfinite
    rw [hnfin]
    generalize (F32.sqrt (.fin s hs)).value = n at hnorm0 hnorm hn ⊢
    -- The vector is divided by its norm, or it is left as it is when that is small.
    by_cases habove : 1 / 2 ^ 23 < n
    · have habove' : (f32Ops halfZero toHalf toFull).aboveEpsilon (.fin n hn) = true :=
        decide_eq_true ⟨by simp [F32.epsilon], fin_lt_fin.mpr habove⟩
      rw [if_pos habove']
      intro y hy
      obtain ⟨x, hx, rfl⟩ := List.mem_map.mp hy
      have hn0 : 0 < n := lt_trans (by norm_num) habove
      have hx2 := F32.abs_le_of_round_square habove.le (hsquares x hx) hnorm
      obtain ⟨h, hfin⟩ := exists_fin (hv x hx)
      have hdiv : (f32Ops halfZero toHalf toFull).div x (.fin n hn) =
          binary32.round (x.value / n) := by
        rw [hfin]
        exact fin_div_fin h hn hn0.ne'
      rw [hdiv]
      refine isFinite_round has_two ?_
      rwa [abs_div, abs_of_pos hn0, div_le_iff₀ hn0]
    · have habove' : ¬ (f32Ops halfZero toHalf toFull).aboveEpsilon (.fin n hn) = true :=
        fun h => habove (fin_lt_fin.mp (of_decide_eq_true h).2)
      rw [if_neg habove']
      intro x hx
      have hnorm' : s ≤ 2 * (1 / 2 ^ 23) ^ 2 :=
        hnorm.trans (mul_le_mul_of_nonneg_left
          (pow_le_pow_left₀ hnorm0 (not_lt.mp habove) 2) two_pos.le)
      refine ⟨hv x hx, (F32.abs_le_of_round_square (le_refl _) (hsquares x hx) hnorm').trans ?_⟩
      norm_num

end

/-! ## The scan -/

/-- The numbers of an upserted vector are finite. -/
def SegmentCall.IsFinite : SegmentCall F32 → Prop
  | .upsert _ vector => FiniteVector vector
  | .remove _ => True

instance (c : SegmentCall F32) : Decidable c.IsFinite :=
  match c with
  | .upsert _ vector => inferInstanceAs (Decidable (FiniteVector vector))
  | .remove _ => .isTrue trivial

/-- Nearly the best of what is held: some of the identifiers, each with its similarity up to an
error, and one that is left out is more similar than one that is found by no more than both errors.
-/
structure NearBest {α : Type} (similarity error : α → ℚ) (held : ℕ → Option α) (k : ℕ)
    (hits : List (ℕ × F32)) : Prop where
  sound : ∀ hit ∈ hits, ∃ a, held hit.1 = some a ∧ |hit.2.value - similarity a| ≤ error a
  nodup : (hits.map Prod.fst).Nodup
  best : ∀ id a, held id = some a → id ∉ hits.map Prod.fst → hits.length = k ∧
    ∀ hit ∈ hits, ∀ b, held hit.1 = some b → similarity a ≤ similarity b + error b + error a

/-- The best by an estimate are nearly the best. -/
theorem BestHits.nearBest {α : Type} {estimate : α → F32} {similarity error : α → ℚ}
    {held : ℕ → Option α} {k : ℕ} {hits : List (ℕ × F32)} (h : BestHits estimate held k hits)
    (hnear : ∀ id a, held id = some a →
      (estimate a).isFinite = true ∧ |(estimate a).value - similarity a| ≤ error a) :
    NearBest similarity error held k hits := by
  refine ⟨fun hit hhit => ?_, h.nodup, fun id a ha hout => ?_⟩
  · obtain ⟨a, ha, heq⟩ := h.sound hit hhit
    exact ⟨a, ha, heq ▸ (hnear _ a ha).2⟩
  · obtain ⟨hlength, hall⟩ := h.best id a ha hout
    refine ⟨hlength, fun hit hhit b hb => ?_⟩
    obtain ⟨b', hb', heq⟩ := h.sound hit hhit
    obtain rfl : b' = b := Option.some.inj (hb'.symm.trans hb)
    obtain ⟨hafinite, haerror⟩ := hnear id a ha
    obtain ⟨hbfinite, hberror⟩ := hnear _ b' hb
    have hle := hall hit hhit
    rw [heq] at hle
    obtain ⟨hp, hpfin⟩ := exists_fin hafinite
    obtain ⟨hq, hqfin⟩ := exists_fin hbfinite
    rw [hpfin, hqfin] at hle
    have hvalues := fin_le_fin.mp hle
    have hlow := (abs_le.mp haerror).1
    have hhigh := (abs_le.mp hberror).2
    linarith

/-- After any upserts and removals of finite vectors, a scan of a segment of `Quantization::I8`
finds nearly the best of the vectors that are held, by their exact product with the query. -/
theorem i8_scan_near {H : Type} (halfZero : H) (toHalf : F32 → H) (toFull : H → F32) (dims : ℕ)
    (hpositive : 0 < dims) (hsmall : dims < 2 ^ 17) (calls : List (SegmentCall F32))
    (hdims : ∀ c ∈ calls, c.HasDims dims) (hfinite : ∀ c ∈ calls, c.IsFinite) :
    ∃ s, calls.foldlM (FlatArrays.call (f32Ops halfZero toHalf toFull).toFloatOps)
        (FlatArrays.new dims .i8) = some s ∧
      ∀ (query : List F32) (k : ℕ), query.length = dims → FiniteVector query → ∃ hits,
        s.scan (f32Ops halfZero toHalf toFull)
            (normalized (f32Ops halfZero toHalf toFull).toFloatOps query) k = some hits ∧
          NearBest (fun v => exactDot (normalized (f32Ops halfZero toHalf toFull).toFloatOps query)
              (normalized (f32Ops halfZero toHalf toFull).toFloatOps v))
            (fun v => i8Error dims
              (amplitude (normalized (f32Ops halfZero toHalf toFull).toFloatOps query))
              (amplitude (normalized (f32Ops halfZero toHalf toFull).toFloatOps v)))
            (lastUpserts calls) k hits := by
  obtain ⟨s, f, hrun, rfl, h, hfind⟩ :=
    exists_represents_calls (f32Ops halfZero toHalf toFull).toFloatOps .i8 hdims
  -- Each vector is normalized before it is encoded, and so is the query.
  refine ⟨s, hrun, fun query k hquery hqueryfinite => ?_⟩
  have hlength : (normalized (f32Ops halfZero toHalf toFull).toFloatOps query).length = s.dims := by
    rw [length_normalized, hquery]
  obtain ⟨hq, hqsize⟩ := normalized_spec halfZero toHalf toFull hqueryfinite
  obtain ⟨hits, hhits, hbest⟩ := h.exists_bestHits hfind hdims hpositive hsmall hlength k
  -- The order is that of the estimates, each of which is near.
  refine ⟨hits, hhits, hbest.nearBest fun id v hv => ?_⟩
  obtain ⟨hw, hwsize⟩ := normalized_spec halfZero toHalf toFull
    (hfinite _ (upsert_mem_of_lastUpserts hv))
  have hnear := estimate_near halfZero toHalf toFull hq hw (hqsize.trans (by norm_num))
    (hwsize.trans (by norm_num)) (hlength.symm ▸ hsmall)
  rw [hlength] at hnear
  exact hnear

/-- Two vectors, one of them replaced. -/
theorem i8_scan_near_replaced :
    ∃ s, [SegmentCall.upsert 7 [1, 0], .upsert 4 [0.5, 2], .upsert 7 [0, -1], .remove 5].foldlM
        (FlatArrays.call (f32Ops (0 : F32) id id).toFloatOps) (FlatArrays.new 2 .i8) = some s ∧
      ∀ (query : List F32) (k : ℕ), query.length = 2 → FiniteVector query → ∃ hits,
        s.scan (f32Ops (0 : F32) id id)
            (normalized (f32Ops (0 : F32) id id).toFloatOps query) k = some hits ∧
          NearBest (fun v => exactDot (normalized (f32Ops (0 : F32) id id).toFloatOps query)
              (normalized (f32Ops (0 : F32) id id).toFloatOps v))
            (fun v => i8Error 2
              (amplitude (normalized (f32Ops (0 : F32) id id).toFloatOps query))
              (amplitude (normalized (f32Ops (0 : F32) id id).toFloatOps v)))
            (lastUpserts [SegmentCall.upsert 7 [1, 0], .upsert 4 [0.5, 2], .upsert 7 [0, -1],
              .remove 5]) k hits :=
  i8_scan_near 0 id id 2 (by decide) (by decide) _ (by decide) (by decide +kernel)

end Tellodb
