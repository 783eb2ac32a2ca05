import Mathlib.Algebra.GroupWithZero.Nat
import Mathlib.Data.List.Basic

/-!
# Bytes of machine words

A word of 32 bits and its four bytes, the least first, and lists of words as lists of bytes. Reading
back what was written gives the words (`ofLeChunks_flatMap`). -/

namespace Tellodb.Machine

/-- `u32::to_le_bytes` -/
def leBytes (word : UInt32) : List UInt8 :=
  [UInt8.ofNat word.toNat, UInt8.ofNat (word.toNat / 2 ^ 8), UInt8.ofNat (word.toNat / 2 ^ 16),
    UInt8.ofNat (word.toNat / 2 ^ 24)]

/-- `u32::from_le_bytes` -/
def ofLeBytes (a b c d : UInt8) : UInt32 :=
  UInt32.ofNat (a.toNat + 2 ^ 8 * b.toNat + 2 ^ 16 * c.toNat + 2 ^ 24 * d.toNat)

/-- The words of the whole chunks of four bytes. -/
def ofLeChunks : List UInt8 → List UInt32
  | a :: b :: c :: d :: rest => ofLeBytes a b c d :: ofLeChunks rest
  | _ => []

/-- A word is read back from its bytes. -/
theorem ofLeBytes_leBytes (word : UInt32) :
    ofLeBytes (UInt8.ofNat word.toNat) (UInt8.ofNat (word.toNat / 2 ^ 8))
      (UInt8.ofNat (word.toNat / 2 ^ 16)) (UInt8.ofNat (word.toNat / 2 ^ 24)) = word := by
  have hword : word.toNat < 2 ^ 32 := word.toNat_lt
  apply UInt32.toNat.inj
  unfold ofLeBytes
  rw [UInt32.toNat_ofNat', UInt8.toNat_ofNat', UInt8.toNat_ofNat', UInt8.toNat_ofNat',
    UInt8.toNat_ofNat']
  omega

/-- Four bytes for each word. -/
theorem length_flatMap_leBytes (words : List UInt32) :
    (words.flatMap leBytes).length = 4 * words.length := by
  induction words with
  | nil => rfl
  | cons word words ih =>
    rw [List.flatMap_cons, List.length_append, ih, List.length_cons]
    show 4 + _ = _
    omega

/-- Words are read back from their bytes. -/
theorem ofLeChunks_flatMap (words : List UInt32) : ofLeChunks (words.flatMap leBytes) = words := by
  induction words with
  | nil => rfl
  | cons word words ih =>
    show ofLeBytes _ _ _ _ :: ofLeChunks (words.flatMap leBytes) = word :: words
    rw [ofLeBytes_leBytes, ih]

end Tellodb.Machine
