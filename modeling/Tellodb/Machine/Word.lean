import Mathlib.Algebra.GroupWithZero.Nat
import Mathlib.Algebra.Order.Group.Int
import Mathlib.Data.Int.Init
import Mathlib.Data.List.Defs

/-!
# Machine integers

A `Word` is a type of machine integers, an interval of the integers. `Word.result` is what an
operation gives whose exact result is `x`: `x` where it fits, and where it does not a panic if
overflow is checked, else the value that is congruent to `x`. -/

namespace Tellodb.Machine

/-- A type of machine integers: the least one and how many there are. -/
structure Word where
  least : ℤ
  size : ℤ
  size_pos : 0 < size

/-- The signed word of 32 bits. -/
def i32 : Word := ⟨-2 ^ 31, 2 ^ 32, by decide⟩

/-- The signed word of 64 bits. -/
def i64 : Word := ⟨-2 ^ 63, 2 ^ 64, by decide⟩

/-- The unsigned word of 32 bits. -/
def u32 : Word := ⟨0, 2 ^ 32, by decide⟩

/-- The unsigned word of 64 bits. -/
def u64 : Word := ⟨0, 2 ^ 64, by decide⟩

namespace Word

/-- The type has the value. -/
def Has (w : Word) (x : ℤ) : Prop :=
  w.least ≤ x ∧ x < w.least + w.size

instance decidableHas (w : Word) (x : ℤ) : Decidable (w.Has x) :=
  inferInstanceAs (Decidable (w.least ≤ x ∧ x < w.least + w.size))

/-- `x as w`. -/
def cast (w : Word) (x : ℤ) : ℤ :=
  w.least + (x - w.least) % w.size

/-- What an operation with the exact result `x` gives. -/
def result (w : Word) (overflowChecks : Bool) (x : ℤ) : Option ℤ :=
  if w.Has x then some x
  else if overflowChecks then none
  else some (w.cast x)

variable {w : Word} {overflowChecks : Bool} {x r : ℤ}

/-- A cast falls into the word. -/
theorem has_cast (w : Word) (x : ℤ) : w.Has (w.cast x) := by
  have hnonneg := Int.emod_nonneg (x - w.least) w.size_pos.ne'
  have hlt := Int.emod_lt_of_pos (x - w.least) w.size_pos
  unfold Has cast
  omega

/-- A cast does not change what the word has. -/
theorem cast_of_has (h : w.Has x) : w.cast x = x := by
  obtain ⟨hle, hlt⟩ := h
  unfold cast
  rw [Int.emod_eq_of_lt (by omega) (by omega)]
  omega

/-- Without checks, an operation gives the value that is congruent to its exact result. -/
theorem result_unchecked (x : ℤ) : w.result false x = some (w.cast x) := by
  unfold result
  split
  · rename_i h
    rw [cast_of_has h]
  · rfl

/-- What is wrapped on the way is wrapped at the end. -/
theorem cast_cast_add (x y : ℤ) : w.cast (w.cast x + y) = w.cast (x + y) := by
  have hexact : w.least + (x - w.least) % w.size + y - w.least =
      (x - w.least) % w.size + y := by omega
  have hsum : x + y - w.least = (x - w.least) + y := by omega
  unfold cast
  rw [hexact, hsum, Int.emod_add_emod]

/-- An operation whose result the word has gives it. -/
theorem result_of_has (h : w.Has x) : w.result overflowChecks x = some x :=
  if_pos h

/-- With checks, an operation gives its exact result or none. -/
theorem result_checked : w.result true x = some r ↔ w.Has x ∧ x = r := by
  unfold result
  split
  · simp [*]
  · simp [*]

/-- Every result is a value of the type. -/
theorem has_of_result (h : w.result overflowChecks x = some r) : w.Has r := by
  unfold result at h
  split at h
  · rename_i hx
    rw [← Option.some.inj h]
    exact hx
  · split at h
    · cases h
    · rw [← Option.some.inj h]
      exact w.has_cast x

/-- `if z >= 0 { z } else { z - (k - 1) } / k`. -/
def floorDiv (w : Word) (overflowChecks : Bool) (z k : ℤ) : Option ℤ :=
  if 0 ≤ z then some (z.tdiv k)
  else (w.result overflowChecks (z - (k - 1))).map fun shifted => shifted.tdiv k

/-- Where the shift fits, the quotient is rounded down. -/
theorem floorDiv_eq {z k : ℤ} (hk : 0 < k) (h : 0 ≤ z ∨ w.Has (z - (k - 1))) :
    w.floorDiv overflowChecks z k = some (z / k) := by
  unfold floorDiv
  split
  · rename_i hz
    rw [Int.tdiv_eq_ediv_of_nonneg hz]
  · rename_i hz
    rw [result_of_has (h.resolve_left hz), Option.map_some]
    have hneg : z - (k - 1) = -((k - 1 - z % k) + -(z / k) * k) := by
      have hsplit := Int.mul_ediv_add_emod z k
      rw [Int.neg_mul, Int.mul_comm (z / k) k]
      omega
    have hrem : 0 ≤ k - 1 - z % k := by
      have hlt := Int.emod_lt_of_pos z hk
      omega
    have hlt : k - 1 - z % k < k := by
      have hnonneg := Int.emod_nonneg z hk.ne'
      omega
    have hpos : 0 ≤ (k - 1 - z % k) + -(z / k) * k := by omega
    rw [hneg, Int.neg_tdiv, Int.tdiv_eq_ediv_of_nonneg hpos, Int.add_mul_ediv_right _ _ hk.ne',
      Int.ediv_eq_zero_of_lt hrem hlt]
    simp

/-- The number that a text of decimal digits stands for. -/
def digits (text : List Char) : Option ℕ :=
  if text.isEmpty || !text.all Char.isDigit then none else some (Nat.ofDigitChars 10 text 0)

/-- `str::parse`: digits after a sign or not, `-` only for a signed type, for a value of the
type. -/
def parse (w : Word) (text : List Char) : Option ℤ :=
  let value : Option ℤ :=
    if text.head? = some '+' then (digits text.tail).map fun n => (n : ℤ)
    else if text.head? = some '-' && decide (w.least < 0) then
      (digits text.tail).map fun n => -(n : ℤ)
    else (digits text).map fun n => (n : ℤ)
  value.filter fun x => decide (w.Has x)

/-- What is parsed is a value of the type. -/
theorem has_of_parse {text : List Char} (h : w.parse text = some x) : w.Has x := by
  unfold parse at h
  exact of_decide_eq_true (Option.filter_eq_some_iff.mp h).2

end Word

/-! ## Casts of fixed width -/

/-- `u64 as i64` -/
theorem toInt_toInt64_eq (u : UInt64) :
    u.toInt64.toInt = if u.toNat < 2 ^ 63 then (u.toNat : ℤ) else u.toNat - 2 ^ 64 := by
  have hlt := u.toNat_lt
  rw [← Int64.toInt_toBitVec, UInt64.toBitVec_toInt64, BitVec.toInt_eq_toNat_cond,
    UInt64.toNat_toBitVec]
  split_ifs
  · rfl
  · omega
  · omega
  · rfl

/-- Below `2^63` the cast to `i64` keeps the value. -/
theorem toInt_toInt64 {u : UInt64} (h : u.toNat < 2 ^ 63) : u.toInt64.toInt = u.toNat := by
  rw [toInt_toInt64_eq, if_pos h]

end Tellodb.Machine
