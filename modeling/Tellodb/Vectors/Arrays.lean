import Tellodb.Collections.Rows
import Tellodb.Vectors.Segment

/-!
# The arrays of a flat segment

`FlatSegment` of `vector_index.rs` as its parallel arrays: the identifiers, the position of each,
and the codes of all vectors in one array or two, whose rows are of a width that depends on the
quantization. `Codes.Holds` says which code a row holds, and each operation on the arrays is read
back on it once (`grow_spec`, `write_spec`, `swapRow_spec`), for all quantizations. So the arrays
stand for the list of rows that the index works with (`FlatArrays.Represents`), after every sequence
of calls (`flatArrays_run`). -/

namespace Tellodb

open Relational Collections

/-! ## The encodings -/

/-- `Quantization` -/
inductive Quantization where
  | f32
  | f16
  | i8
  | binary
  deriving DecidableEq

/-- The operations on `f32` that the encodings use, and the conversion to `f16`. -/
structure FloatOps (F H : Type) where
  zero : F
  /-- `iter().sum()` -/
  sum : List F → F
  mul : F → F → F
  div : F → F → F
  sqrt : F → F
  abs : F → F
  max : F → F → F
  /-- `x > f32::EPSILON` -/
  aboveEpsilon : F → Bool
  /-- `x <= f32::EPSILON` -/
  withinEpsilon : F → Bool
  /-- `x > 0.0` -/
  positive : F → Bool
  /-- `127.0` -/
  c127 : F
  /-- `x.round().clamp(-127.0, 127.0) as i8` -/
  toInt8 : F → Int8
  /-- `f16::ZERO` -/
  halfZero : H
  /-- `f16::from_f32` -/
  toHalf : F → H

/-- A vector as it is held: its numbers, its numbers with a scale, or its signs. -/
inductive Code (F H : Type) where
  | f32 (row : List F)
  | f16 (row : List H)
  | i8 (row : List Int8) (scale : F)
  | binary (row : List UInt64)
  deriving DecidableEq

section

variable {F H : Type} (ops : FloatOps F H)

/-- `normalized` -/
def normalized (vector : List F) : List F :=
  let norm := ops.sqrt (ops.sum (vector.map fun x => ops.mul x x))
  if ops.aboveEpsilon norm then vector.map fun x => ops.div x norm else vector

/-- `quantize_i8` -/
def quantizeI8 (v : List F) : List Int8 × F :=
  let max := v.foldl (fun m x => ops.max m (ops.abs x)) ops.zero
  if ops.withinEpsilon max then (List.replicate v.length 0, ops.zero)
  else
    let scale := ops.div max ops.c127
    (v.map fun x => ops.toInt8 (ops.div x scale), scale)

/-- `dims.div_ceil(64)` -/
def wordsOf (dims : ℕ) : ℕ :=
  (dims + 63) / 64

/-- `sign_bits` -/
def signBits (v : List F) : List UInt64 :=
  v.zipIdx.foldl (fun words x =>
    if ops.positive x.1 then words.modify (x.2 / 64) (· ||| 1 <<< UInt64.ofNat (x.2 % 64))
    else words) (List.replicate (wordsOf v.length) 0)

/-- The code of a vector. -/
def encodeVector (q : Quantization) (vector : List F) : Code F H :=
  let v := normalized ops vector
  match q with
  | .f32 => .f32 v
  | .f16 => .f16 (v.map ops.toHalf)
  | .i8 => .i8 (quantizeI8 ops v).1 (quantizeI8 ops v).2
  | .binary => .binary (signBits ops v)

/-- Normalizing keeps the length. -/
@[simp]
theorem length_normalized (vector : List F) : (normalized ops vector).length = vector.length := by
  unfold normalized
  dsimp only
  split
  · exact List.length_map _
  · rfl

/-- A vector has a code for each component. -/
@[simp]
theorem length_quantizeI8 (v : List F) : (quantizeI8 ops v).1.length = v.length := by
  unfold quantizeI8
  dsimp only
  split
  · exact List.length_replicate
  · exact List.length_map _

/-- The signs fill as many words as the components need. -/
@[simp]
theorem length_signBits (v : List F) : (signBits ops v).length = wordsOf v.length := by
  have hfold : ∀ (bits : List (F × ℕ)) (words : List UInt64),
      (bits.foldl (fun words x => if ops.positive x.1 then
        words.modify (x.2 / 64) (· ||| 1 <<< UInt64.ofNat (x.2 % 64)) else words) words).length =
          words.length := by
    intro bits
    induction bits with
    | nil => exact fun _ => rfl
    | cons x bits ih =>
      intro words
      rw [List.foldl_cons, ih]
      split
      · exact List.length_modify _ _ _
      · rfl
  unfold signBits
  rw [hfold, List.length_replicate]

end

/-! ## The codes of a segment -/

/-- `Codes`: row `i` belongs to `ids[i]`. -/
inductive Codes (F H : Type) where
  | f32 (data : List F)
  | f16 (data : List H)
  | i8 (codes : List Int8) (scales : List F)
  | binary (data : List UInt64)
  deriving DecidableEq

namespace Codes

variable {F H : Type} (ops : FloatOps F H)

/-- The codes of an empty segment. -/
def new : Quantization → Codes F H
  | .f32 => f32 []
  | .f16 => f16 []
  | .i8 => i8 [] []
  | .binary => binary []

/-- Room for one more row. -/
def grow (dims : ℕ) : Codes F H → Codes F H
  | f32 data => f32 (data ++ List.replicate dims ops.zero)
  | f16 data => f16 (data ++ List.replicate dims ops.halfZero)
  | i8 codes scales => i8 (codes ++ List.replicate dims 0) (scales ++ [ops.zero])
  | binary data => binary (data ++ List.replicate (wordsOf dims) 0)

/-- Writes a normalized vector to a row. -/
def write (dims row : ℕ) (v : List F) : Codes F H → Option (Codes F H)
  | f32 data => (writeRow data dims row v).map f32
  -- The slots of the row are zipped with the vector, so of two lengths the shorter one counts.
  | f16 data => (writeRow data dims row
      ((v.map ops.toHalf).take dims ++ (Collections.rowOf data dims row).drop v.length)).map f16
  | i8 codes scales =>
    (writeRow codes dims row (quantizeI8 ops v).1).bind fun codes =>
      (writeRow scales 1 row [(quantizeI8 ops v).2]).map fun scales => i8 codes scales
  | binary data => (writeRow data (wordsOf dims) row (signBits ops v)).map binary

/-- Moves the last row to the place of another one, which is dropped. -/
def swapRow (dims row last : ℕ) : Codes F H → Option (Codes F H)
  | f32 data => (Collections.swapRow data row last dims).map f32
  | f16 data => (Collections.swapRow data row last dims).map f16
  | i8 codes scales =>
    (Collections.swapRow codes row last dims).bind fun codes =>
      (Collections.swapRow scales row last 1).map fun scales => i8 codes scales
  | binary data => (Collections.swapRow data row last (wordsOf dims)).map binary

/-- The codes of a quantization with some number of rows. -/
def Has (q : Quantization) (dims n : ℕ) : Codes F H → Prop
  | f32 data => q = .f32 ∧ data.length = n * dims
  | f16 data => q = .f16 ∧ data.length = n * dims
  | i8 codes scales => q = .i8 ∧ codes.length = n * dims ∧ scales.length = n
  | binary data => q = .binary ∧ data.length = n * wordsOf dims

/-- A row holds a code. -/
def Holds (dims i : ℕ) : Codes F H → Code F H → Prop
  | f32 data, .f32 row => Collections.rowOf data dims i = row
  | f16 data, .f16 row => Collections.rowOf data dims i = row
  | i8 codes scales, .i8 row scale =>
    Collections.rowOf codes dims i = row ∧ Collections.rowOf scales 1 i = [scale]
  | binary data, .binary row => Collections.rowOf data (wordsOf dims) i = row
  | _, _ => False

variable {q : Quantization} {dims n : ℕ} {codes : Codes F H}

/-- New codes have no row. -/
theorem has_new (q : Quantization) (dims : ℕ) : (Codes.new q : Codes F H).Has q dims 0 := by
  cases q with
  | i8 => exact ⟨rfl, (Nat.zero_mul dims).symm, rfl⟩
  | f32 => exact ⟨rfl, (Nat.zero_mul dims).symm⟩
  | f16 => exact ⟨rfl, (Nat.zero_mul dims).symm⟩
  | binary => exact ⟨rfl, (Nat.zero_mul _).symm⟩

/-- One row more, and the others hold what they held. -/
theorem grow_spec (h : codes.Has q dims n) :
    (codes.grow ops dims).Has q dims (n + 1) ∧
      ∀ i < n, ∀ code, codes.Holds dims i code → (codes.grow ops dims).Holds dims i code := by
  -- The four quantizations grow alike, and the codes of `i8` have scales as well.
  cases codes with
  | f32 data =>
    obtain ⟨hq, hlength⟩ := h
    refine ⟨⟨hq, ?_⟩, fun i hi code hcode => ?_⟩
    · rw [List.length_append, List.length_replicate, hlength, Nat.succ_mul]
    · cases code with
      | f32 row => exact (rowOf_append hlength hi).trans hcode
      | _ => exact hcode
  | f16 data =>
    obtain ⟨hq, hlength⟩ := h
    refine ⟨⟨hq, ?_⟩, fun i hi code hcode => ?_⟩
    · rw [List.length_append, List.length_replicate, hlength, Nat.succ_mul]
    · cases code with
      | f16 row => exact (rowOf_append hlength hi).trans hcode
      | _ => exact hcode
  | i8 data scales =>
    obtain ⟨hq, hlength, hscales⟩ := h
    refine ⟨⟨hq, ?_, ?_⟩, fun i hi code hcode => ?_⟩
    · rw [List.length_append, List.length_replicate, hlength, Nat.succ_mul]
    · rw [List.length_append, List.length_singleton, hscales]
    · cases code with
      | i8 row scale =>
        exact ⟨(rowOf_append hlength hi).trans hcode.1,
          (rowOf_append (hscales.trans (Nat.mul_one n).symm) hi).trans hcode.2⟩
      | _ => exact hcode
  | binary data =>
    obtain ⟨hq, hlength⟩ := h
    refine ⟨⟨hq, ?_⟩, fun i hi code hcode => ?_⟩
    · rw [List.length_append, List.length_replicate, hlength, Nat.succ_mul]
    · cases code with
      | binary row => exact (rowOf_append hlength hi).trans hcode
      | _ => exact hcode

/-- A row is written, and the others hold what they held. -/
theorem write_spec (h : codes.Has q dims n) {row : ℕ} (hrow : row < n) {vector : List F}
    (hvector : vector.length = dims) :
    ∃ codes', codes.write ops dims row (normalized ops vector) = some codes' ∧
      codes'.Has q dims n ∧ codes'.Holds dims row (encodeVector ops q vector) ∧
        ∀ i, i ≠ row → ∀ code, codes.Holds dims i code → codes'.Holds dims i code := by
  have hv : (normalized ops vector).length = dims := (length_normalized ops vector).trans hvector
  -- The row is overwritten, whatever was there.
  cases codes with
  | f32 data =>
    obtain ⟨rfl, hlength⟩ := h
    obtain ⟨data', hwrite, hlength', hself, hother⟩ := exists_writeRow hlength hrow hv
    refine ⟨f32 data', by simp only [write, hwrite, Option.map_some], ⟨rfl, hlength'⟩, hself,
      fun i hi code hcode => ?_⟩
    cases code with
    | f32 row => exact (hother i hi).trans hcode
    | _ => exact hcode
  | f16 data =>
    obtain ⟨rfl, hlength⟩ := h
    -- The slots and the numbers are as many, so nothing is left of the old row.
    have hslots : ((normalized ops vector).map ops.toHalf).take dims ++
        (Collections.rowOf data dims row).drop (normalized ops vector).length =
          (normalized ops vector).map ops.toHalf := by
      have hdrop : (Collections.rowOf data dims row).drop dims = [] :=
        List.drop_eq_nil_of_le (Nat.le_of_eq (length_rowOf (end_le hlength hrow)))
      rw [List.take_of_length_le (Nat.le_of_eq ((List.length_map _).trans hv)), hv, hdrop,
        List.append_nil]
    obtain ⟨data', hwrite, hlength', hself, hother⟩ :=
      exists_writeRow hlength hrow ((List.length_map ops.toHalf).trans hv)
    refine ⟨f16 data', by simp only [write, hslots, hwrite, Option.map_some], ⟨rfl, hlength'⟩,
      hself, fun i hi code hcode => ?_⟩
    cases code with
    | f16 row => exact (hother i hi).trans hcode
    | _ => exact hcode
  | i8 data scales =>
    obtain ⟨rfl, hlength, hscales⟩ := h
    obtain ⟨data', hwrite, hlength', hself, hother⟩ :=
      exists_writeRow hlength hrow ((length_quantizeI8 ops _).trans hv)
    obtain ⟨scales', hscale, hscales', hscaleSelf, hscaleOther⟩ :=
      exists_writeRow (hscales.trans (Nat.mul_one n).symm) hrow
        (List.length_singleton : [(quantizeI8 ops (normalized ops vector)).2].length = 1)
    refine ⟨i8 data' scales', by
        simp only [write, hwrite, hscale, Option.bind_some, Option.map_some],
      ⟨rfl, hlength', hscales'.trans (Nat.mul_one n)⟩, ⟨hself, hscaleSelf⟩,
      fun i hi code hcode => ?_⟩
    cases code with
    | i8 row scale => exact ⟨(hother i hi).trans hcode.1, (hscaleOther i hi).trans hcode.2⟩
    | _ => exact hcode
  | binary data =>
    obtain ⟨rfl, hlength⟩ := h
    have hbits : (signBits ops (normalized ops vector)).length = wordsOf dims := by
      rw [length_signBits, hv]
    obtain ⟨data', hwrite, hlength', hself, hother⟩ := exists_writeRow hlength hrow hbits
    refine ⟨binary data', by simp only [write, hwrite, Option.map_some], ⟨rfl, hlength'⟩, hself,
      fun i hi code hcode => ?_⟩
    cases code with
    | binary row => exact (hother i hi).trans hcode
    | _ => exact hcode

/-- The last row takes the place of the one that is dropped, and the others hold what they held. -/
theorem swapRow_spec {row last : ℕ} (h : codes.Has q dims (last + 1)) (hrow : row ≤ last) :
    ∃ codes', codes.swapRow dims row last = some codes' ∧ codes'.Has q dims last ∧
      ∀ i < last, ∀ code, codes.Holds dims (if i = row then last else i) code →
        codes'.Holds dims i code := by
  -- The last row is moved to the place of the one that is removed.
  cases codes with
  | f32 data =>
    obtain ⟨hq, hlength⟩ := h
    obtain ⟨data', hswap, hlength', hrows⟩ := exists_swapRow hlength hrow
    refine ⟨f32 data', by simp only [swapRow, hswap, Option.map_some], ⟨hq, hlength'⟩,
      fun i hi code hcode => ?_⟩
    cases code with
    | f32 row => exact (hrows i hi).trans hcode
    | _ => exact hcode
  | f16 data =>
    obtain ⟨hq, hlength⟩ := h
    obtain ⟨data', hswap, hlength', hrows⟩ := exists_swapRow hlength hrow
    refine ⟨f16 data', by simp only [swapRow, hswap, Option.map_some], ⟨hq, hlength'⟩,
      fun i hi code hcode => ?_⟩
    cases code with
    | f16 row => exact (hrows i hi).trans hcode
    | _ => exact hcode
  | i8 data scales =>
    obtain ⟨hq, hlength, hscales⟩ := h
    obtain ⟨data', hswap, hlength', hrows⟩ := exists_swapRow hlength hrow
    obtain ⟨scales', hscale, hscales', hscaleRows⟩ :=
      exists_swapRow (hscales.trans (Nat.mul_one _).symm) hrow
    refine ⟨i8 data' scales', by
        simp only [swapRow, hswap, hscale, Option.bind_some, Option.map_some],
      ⟨hq, hlength', hscales'.trans (Nat.mul_one _)⟩, fun i hi code hcode => ?_⟩
    cases code with
    | i8 row scale => exact ⟨(hrows i hi).trans hcode.1, (hscaleRows i hi).trans hcode.2⟩
    | _ => exact hcode
  | binary data =>
    obtain ⟨hq, hlength⟩ := h
    obtain ⟨data', hswap, hlength', hrows⟩ := exists_swapRow hlength hrow
    refine ⟨binary data', by simp only [swapRow, hswap, Option.map_some], ⟨hq, hlength'⟩,
      fun i hi code hcode => ?_⟩
    cases code with
    | binary row => exact (hrows i hi).trans hcode
    | _ => exact hcode

end Codes

/-! ## The segment -/

/-- `FlatSegment` -/
structure FlatArrays (F H : Type) where
  dims : ℕ
  ids : List ℕ
  positions : ℕ → Option ℕ
  codes : Codes F H

/-- A call on a segment. -/
inductive SegmentCall (F : Type) where
  | upsert (id : ℕ) (vector : List F)
  | remove (id : ℕ)

namespace FlatArrays

variable {F H : Type} (ops : FloatOps F H)

/-- `FlatSegment::new` -/
def new (dims : ℕ) (q : Quantization) : FlatArrays F H :=
  ⟨dims, [], fun _ => none, .new q⟩

/-- The row of an identifier, which is a new one if it has none. -/
def place (s : FlatArrays F H) (id : ℕ) : FlatArrays F H × ℕ :=
  match s.positions id with
  | some row => (s, row)
  | none =>
    ({ s with
        ids := s.ids ++ [id]
        positions := Function.update s.positions id (some s.ids.length)
        codes := s.codes.grow ops s.dims }, s.ids.length)

/-- `FlatSegment::upsert` -/
def upsert (s : FlatArrays F H) (id : ℕ) (vector : List F) : Option (FlatArrays F H) :=
  let placed := s.place ops id
  (placed.1.codes.write ops s.dims placed.2 (normalized ops vector)).map fun codes =>
    { placed.1 with codes := codes }

/-- `FlatSegment::remove`: the segment, and whether it held the vector. -/
def remove (s : FlatArrays F H) (id : ℕ) : Option (FlatArrays F H × Bool) :=
  match s.positions id with
  | none => some (s, false)
  | some row =>
    let last := s.ids.length - 1
    let positions := Function.update s.positions id none
    (s.codes.swapRow s.dims row last).bind fun codes =>
      let ids := swapRemove s.ids row
      if row = last then some (⟨s.dims, ids, positions, codes⟩, true)
      else (ids[row]?).map fun moved =>
        (⟨s.dims, ids, Function.update positions moved (some row), codes⟩, true)

/-- The segment after a call. -/
def call (s : FlatArrays F H) : SegmentCall F → Option (FlatArrays F H)
  | .upsert id vector => s.upsert ops id vector
  | .remove id => (s.remove id).map Prod.fst

end FlatArrays

/-- The vector of a call has as many numbers as the segment has dimensions, which is checked before
the segment is called. -/
def SegmentCall.HasDims {F : Type} (dims : ℕ) : SegmentCall F → Prop
  | .upsert _ vector => vector.length = dims
  | .remove _ => True

instance {F : Type} (dims : ℕ) (c : SegmentCall F) : Decidable (c.HasDims dims) :=
  match c with
  | .upsert _ vector => inferInstanceAs (Decidable (vector.length = dims))
  | .remove _ => .isTrue trivial

/-- What is stored after a call, when it is the last vector upserted for each identifier. -/
def SegmentCall.applyTo {F : Type} (held : ℕ → Option (List F)) :
    SegmentCall F → ℕ → Option (List F)
  | .upsert id vector => Function.update held id (some vector)
  | .remove id => Function.update held id none

/-- The last vector that was upserted for each identifier, unless it was removed since. -/
def lastUpserts {F : Type} (calls : List (SegmentCall F)) : ℕ → Option (List F) :=
  calls.foldl SegmentCall.applyTo fun _ => none

/-- The position of each identifier is that in the list, and there is none for another one. -/
def IsIndexOf (ids : List ℕ) (positions : ℕ → Option ℕ) : Prop :=
  ∀ id i, positions id = some i ↔ ids[i]? = some id

/-- The arrays are aligned, and are the map of some vectors: the identifiers are those of the map,
the position of each is its row, and the row holds the code of its vector. -/
structure FlatArrays.IsMapOf {F H : Type} (ops : FloatOps F H) (q : Quantization)
    (s : FlatArrays F H) (held : ℕ → Option (List F)) : Prop where
  positions : IsIndexOf s.ids s.positions
  rows : s.codes.Has q s.dims s.ids.length
  holds : ∀ id i, s.ids[i]? = some id →
    ∃ vector, held id = some vector ∧ s.codes.Holds s.dims i (encodeVector ops q vector)
  ids : ∀ id, id ∈ s.ids ↔ (held id).isSome

/-! ## Rows and arrays -/

section

variable {α β : Type*} {l : List α} {row : ℕ}

/-- A removal takes one row away. -/
theorem length_swapRemove (l : List α) (row : ℕ) : (swapRemove l row).length = l.length - 1 := by
  unfold swapRemove
  cases hlast : l.getLast? with
  | none => rw [List.getLast?_eq_none_iff.mp hlast]; rfl
  | some last => simp

/-- The elements after a removal. -/
theorem getElem?_swapRemove {i : ℕ} (hi : i < l.length - 1) :
    (swapRemove l row)[i]? = l[if i = row then l.length - 1 else i]? := by
  unfold swapRemove
  rw [List.getLast?_eq_getElem?]
  have hlast : l.length - 1 < l.length := by omega
  rw [List.getElem?_eq_getElem hlast]
  dsimp only
  rw [List.getElem?_dropLast, List.length_set, if_pos hi, List.getElem?_set]
  by_cases hrow : i = row
  · rw [if_pos hrow.symm, if_pos (by omega), if_pos hrow, List.getElem?_eq_getElem hlast]
  · rw [if_neg (Ne.symm hrow), if_neg hrow]

/-- A removal can be done before or after a map. -/
theorem map_swapRemove (g : α → β) (l : List α) (row : ℕ) :
    (swapRemove l row).map g = swapRemove (l.map g) row := by
  unfold swapRemove
  rw [List.getLast?_map]
  cases l.getLast? with
  | none => rfl
  | some last => rw [Option.map_some]; simp [List.map_dropLast, List.map_set]

end

namespace IsIndexOf

variable {ids : List ℕ} {positions : ℕ → Option ℕ} {id row : ℕ}

/-- An identifier is in one place only. -/
theorem eq_of_getElem? (h : IsIndexOf ids positions) {i j x : ℕ} (hi : ids[i]? = some x)
    (hj : ids[j]? = some x) : i = j :=
  Option.some.inj (((h x i).mpr hi).symm.trans ((h x j).mpr hj))

/-- A new identifier comes after the others. -/
theorem append (h : IsIndexOf ids positions) (hnone : positions id = none) :
    IsIndexOf (ids ++ [id]) (Function.update positions id (some ids.length)) := by
  intro x i
  rw [List.getElem?_append]
  -- The identifier is the new one, or it is an older one with its place.
  by_cases hx : x = id
  · subst hx
    rw [Function.update_self, Option.some_inj]
    split
    · rename_i hi
      rw [← h x i, hnone]
      refine ⟨fun heq => absurd heq (by omega), fun heq => absurd heq (by simp)⟩
    · rename_i hi
      rw [List.getElem?_singleton]
      constructor
      · intro heq
        rw [if_pos (by omega)]
      · intro heq
        by_contra hne
        rw [if_neg (by omega)] at heq
        cases heq
  · rw [Function.update_of_ne hx, h x i]
    split
    · exact Iff.rfl
    · rename_i hi
      rw [List.getElem?_eq_none (Nat.le_of_not_lt hi), List.getElem?_singleton]
      refine ⟨fun heq => absurd heq (by simp), fun heq => ?_⟩
      split at heq
      · exact absurd (Option.some.inj heq).symm hx
      · exact heq

/-- What is in a place after a removal was there, or was last. -/
theorem getElem?_of_swapRemove {i x : ℕ} (hx : (swapRemove ids row)[i]? = some x) :
    i < ids.length - 1 ∧ ids[if i = row then ids.length - 1 else i]? = some x := by
  have hi : i < ids.length - 1 :=
    length_swapRemove ids row ▸ (List.getElem?_eq_some_iff.mp hx).1
  exact ⟨hi, (getElem?_swapRemove hi).symm.trans hx⟩

/-- The last identifier is removed. -/
theorem swapRemove_last (h : IsIndexOf ids positions) (hrow : ids[row]? = some id)
    (hlast : row = ids.length - 1) :
    IsIndexOf (swapRemove ids row) (Function.update positions id none) := by
  intro x i
  by_cases hx : x = id
  · subst hx
    rw [Function.update_self]
    refine ⟨fun heq => absurd heq (by simp), fun heq => ?_⟩
    obtain ⟨hi, heq⟩ := getElem?_of_swapRemove heq
    rw [if_neg (by omega)] at heq
    exact absurd (h.eq_of_getElem? heq hrow) (by omega)
  · rw [Function.update_of_ne hx, h x i]
    constructor
    · intro heq
      have hi := (List.getElem?_eq_some_iff.mp heq).1
      have hne : i ≠ row := by
        rintro rfl
        exact hx (Option.some.inj (heq.symm.trans hrow))
      rw [getElem?_swapRemove (by omega), if_neg hne]
      exact heq
    · intro heq
      obtain ⟨hi, heq⟩ := getElem?_of_swapRemove heq
      rw [if_neg (by omega)] at heq
      exact heq

/-- An identifier is removed, and the last one is moved to its place. -/
theorem swapRemove (h : IsIndexOf ids positions) (hrow : ids[row]? = some id)
    (hlast : row ≠ ids.length - 1) {moved : ℕ} (hmoved : ids[ids.length - 1]? = some moved) :
    IsIndexOf (Tellodb.swapRemove ids row)
      (Function.update (Function.update positions id none) moved (some row)) := by
  have hlt := (List.getElem?_eq_some_iff.mp hrow).1
  intro x i
  -- The identifier that moves is found in the place of the one that is removed.
  by_cases hx : x = moved
  · subst hx
    rw [Function.update_self, Option.some_inj]
    constructor
    · rintro rfl
      rw [getElem?_swapRemove (by omega), if_pos rfl]
      exact hmoved
    · intro heq
      obtain ⟨hi, heq⟩ := getElem?_of_swapRemove heq
      split at heq
      · rename_i hi'
        exact hi'.symm
      · exact absurd (h.eq_of_getElem? heq hmoved) (by omega)
  · rw [Function.update_of_ne hx]
    -- Only the identifier that moves was the last.
    have hnotLast : ∀ {j : ℕ}, ids[j]? = some x → j ≠ ids.length - 1 := by
      rintro j hj rfl
      exact hx (Option.some.inj (hj.symm.trans hmoved))
    by_cases hid : x = id
    · subst hid
      rw [Function.update_self]
      refine ⟨fun heq => absurd heq (by simp), fun heq => ?_⟩
      obtain ⟨hi, heq⟩ := getElem?_of_swapRemove heq
      split at heq
      · exact absurd rfl (hnotLast heq)
      · rename_i hi'
        exact absurd (h.eq_of_getElem? heq hrow) hi'
    · rw [Function.update_of_ne hid, h x i]
      constructor
      · intro heq
        have hi := (List.getElem?_eq_some_iff.mp heq).1
        have hne := hnotLast heq
        have hother : i ≠ row := by
          rintro rfl
          exact hid (Option.some.inj (heq.symm.trans hrow))
        rw [getElem?_swapRemove (by omega), if_neg hother]
        exact heq
      · intro heq
        obtain ⟨hi, heq⟩ := getElem?_of_swapRemove heq
        split at heq
        · exact absurd rfl (hnotLast heq)
        · exact heq

end IsIndexOf

namespace FlatArrays

variable {F H : Type} {ops : FloatOps F H} {q : Quantization}

/-- The arrays stand for a list of rows. -/
structure Represents (q : Quantization) (s : FlatArrays F H) (f : FlatSegment (Code F H)) :
    Prop where
  ids : s.ids = f.rows.map Prod.fst
  positions : IsIndexOf s.ids s.positions
  has : s.codes.Has q s.dims f.rows.length
  holds : ∀ i row, f.rows[i]? = some row → s.codes.Holds s.dims i row.2

variable {s : FlatArrays F H} {f : FlatSegment (Code F H)}

/-- The new arrays represent the new segment. -/
theorem represents_new (dims : ℕ) (q : Quantization) :
    (FlatArrays.new dims q : FlatArrays F H).Represents q (FlatSegment.new (Code F H)) where
  ids := rfl
  positions _ _ := ⟨fun h => absurd h (by simp [new]), fun h => absurd h (by simp [new])⟩
  has := Codes.has_new q dims
  holds _ _ h := absurd h (by simp [FlatSegment.new])

namespace Represents

/-- The row with an identifier is at its position. -/
theorem position (h : s.Represents q f) {i : ℕ} {row : ℕ × Code F H} (hrow : f.rows[i]? = some row) :
    s.positions row.1 = some i := by
  rw [h.positions, h.ids, List.getElem?_map, hrow, Option.map_some]

/-- At the position of an identifier is its row. -/
theorem row (h : s.Represents q f) {id i : ℕ} (hposition : s.positions id = some i) :
    ∃ row, f.rows[i]? = some row ∧ row.1 = id := by
  rw [h.positions, h.ids, List.getElem?_map] at hposition
  exact Option.map_eq_some_iff.mp hposition

/-- An identifier without a position has no row. -/
theorem no_row (h : s.Represents q f) {id : ℕ} (hposition : s.positions id = none) :
    ¬ ∃ row ∈ f.rows, row.1 = id := by
  rintro ⟨row, hmem, rfl⟩
  obtain ⟨i, hrow⟩ := List.getElem?_of_mem hmem
  rw [h.position hrow] at hposition
  cases hposition

/-- An upsert writes the code of the vector to the row of its identifier, or to a new one. -/
theorem upsert (h : s.Represents q f) (id : ℕ) {vector : List F} (hvector : vector.length = s.dims) :
    ∃ s', s.upsert ops id vector = some s' ∧ s'.dims = s.dims ∧
      s'.Represents q (f.upsert id (encodeVector ops q vector)) := by
  -- The row is overwritten where it is, or added at the end.
  cases hposition : s.positions id with
  | some row =>
    obtain ⟨found, hfound, hid⟩ := h.row hposition
    have hlt : row < f.rows.length := (List.getElem?_eq_some_iff.mp hfound).1
    -- The new code replaces the old one in its row.
    obtain ⟨codes, hwrite, hhas, hself, hother⟩ := Codes.write_spec ops h.has hlt hvector
    have hplace : s.place ops id = (s, row) := by simp only [place, hposition]
    have hrows : (f.upsert id (encodeVector ops q vector)).rows =
        f.rows.map fun r => if r.1 = id then (id, encodeVector ops q vector) else r := by
      unfold FlatSegment.upsert
      rw [dif_pos ⟨found, List.mem_of_getElem? hfound, hid⟩]
    refine ⟨{ s with codes := codes }, by simp only [FlatArrays.upsert, hplace, hwrite,
      Option.map_some], rfl, ?_, h.positions, ?_, fun i r hr => ?_⟩
    · rw [hrows, List.map_map]
      refine h.ids.trans (List.map_congr_left fun r _ => ?_)
      rw [Function.comp_apply]
      split
      · rename_i hkey
        exact hkey
      · rfl
    · rw [hrows, List.length_map]
      exact hhas
    · rw [hrows, List.getElem?_map] at hr
      obtain ⟨old, hold, rfl⟩ := Option.map_eq_some_iff.mp hr
      split
      · rename_i hkey
        have hi := h.position hold
        rw [hkey, hposition] at hi
        rw [← Option.some.inj hi]
        exact hself
      · rename_i hkey
        -- Another row is another identifier, so its code is left alone.
        refine hother i (fun hi => hkey ?_) _ (h.holds i old hold)
        rw [hi, hfound] at hold
        rw [← Option.some.inj hold, hid]
  | none =>
    have hlength : s.ids.length = f.rows.length := by rw [h.ids, List.length_map]
    -- The arrays grow by a row first, and the new code goes there.
    obtain ⟨hgrown, hkept⟩ := Codes.grow_spec ops h.has
    obtain ⟨codes, hwrite, hhas, hself, hother⟩ :=
      Codes.write_spec ops hgrown (Nat.lt_succ_self f.rows.length) hvector
    have hrows : (f.upsert id (encodeVector ops q vector)).rows =
        f.rows ++ [(id, encodeVector ops q vector)] := by
      unfold FlatSegment.upsert
      rw [dif_neg (h.no_row hposition)]
    refine ⟨⟨s.dims, s.ids ++ [id], Function.update s.positions id (some s.ids.length), codes⟩,
      by simp only [FlatArrays.upsert, place, hposition, hlength, hwrite, Option.map_some], rfl,
      ?_, h.positions.append hposition, ?_, fun i r hr => ?_⟩
    · rw [hrows, List.map_append, ← h.ids]
      rfl
    · rw [hrows, List.length_append, List.length_singleton]
      exact hhas
    · rw [hrows, List.getElem?_append] at hr
      split at hr
      · rename_i hi
        exact hother i (Nat.ne_of_lt hi) _ (hkept i hi _ (h.holds i r hr))
      · rename_i hi
        obtain ⟨hlast, rfl⟩ : i = f.rows.length ∧ r = (id, encodeVector ops q vector) := by
          rw [List.getElem?_singleton] at hr
          split at hr
          · exact ⟨by omega, (Option.some.inj hr).symm⟩
          · cases hr
        rw [hlast]
        exact hself

/-- A removal moves the last row to the place of the one that is removed. -/
theorem remove (h : s.Represents q f) (id : ℕ) :
    ∃ s', s.remove id = some (s', (s.positions id).isSome) ∧ s'.dims = s.dims ∧
      s'.Represents q (f.remove id) := by
  -- Nothing is removed if the identifier is unknown.
  cases hposition : s.positions id with
  | none =>
    have hnone : f.remove id = f := by
      unfold FlatSegment.remove
      split
      · rename_i i hfound
        obtain ⟨hlt, hkey, -⟩ := List.findIdx?_eq_some_iff_getElem.mp hfound
        exact absurd ⟨_, List.getElem_mem hlt, of_decide_eq_true hkey⟩ (h.no_row hposition)
      · rfl
    refine ⟨s, by simp only [FlatArrays.remove, hposition, Option.isSome_none], rfl, ?_⟩
    rw [hnone]
    exact h
  | some row =>
    obtain ⟨found, hfound, hid⟩ := h.row hposition
    have hlt : row < f.rows.length := (List.getElem?_eq_some_iff.mp hfound).1
    have hlength : s.ids.length = f.rows.length := by rw [h.ids, List.length_map]
    have hrow : s.ids[row]? = some id := (h.positions id row).mp hposition
    -- The list is searched, and the map of the positions knows the same place.
    have hrows : (f.remove id).rows = swapRemove f.rows row := by
      unfold FlatSegment.remove
      split
      · rename_i i hindex
        obtain ⟨hi, hkey, -⟩ := List.findIdx?_eq_some_iff_getElem.mp hindex
        have hposition' := h.position (List.getElem?_eq_getElem hi)
        rw [of_decide_eq_true hkey, hposition] at hposition'
        rw [Option.some.inj hposition']
      · rename_i hindex
        exact absurd (decide_eq_true hid)
          (by simpa using List.findIdx?_eq_none_iff.mp hindex _ (List.mem_of_getElem? hfound))
    have hhas : s.codes.Has q s.dims (f.rows.length - 1 + 1) := by
      rw [Nat.sub_add_cancel (by omega)]
      exact h.has
    obtain ⟨codes, hswap, hhas', hholds⟩ := Codes.swapRow_spec hhas (by omega : row ≤ _)
    -- The rows of the codes are those of the list, whatever the positions are.
    have hrepresents : ∀ positions, IsIndexOf (swapRemove s.ids row) positions →
        (⟨s.dims, swapRemove s.ids row, positions, codes⟩ : FlatArrays F H).Represents q
          (f.remove id) := by
      refine fun positions hpositions => ⟨?_, hpositions, ?_, fun i r hr => ?_⟩
      · rw [hrows, map_swapRemove, ← h.ids]
      · rw [hrows, length_swapRemove]
        exact hhas'
      · rw [hrows] at hr
        have hi : i < f.rows.length - 1 :=
          length_swapRemove f.rows row ▸ (List.getElem?_eq_some_iff.mp hr).1
        rw [getElem?_swapRemove hi] at hr
        exact hholds i hi _ (h.holds _ r hr)
    rw [← hlength] at hswap
    -- The last row is cut off, or it is moved and its new position entered.
    by_cases hlast : row = s.ids.length - 1
    · refine ⟨⟨s.dims, swapRemove s.ids row, Function.update s.positions id none, codes⟩, ?_, rfl,
        hrepresents _ (h.positions.swapRemove_last hrow hlast)⟩
      simp only [FlatArrays.remove, hposition]
      rw [hswap, Option.bind_some, if_pos hlast]
      rfl
    · obtain ⟨moved, hmoved⟩ : ∃ moved, s.ids[s.ids.length - 1]? = some moved :=
        ⟨_, List.getElem?_eq_getElem (by omega)⟩
      have hback : (swapRemove s.ids row)[row]? = some moved := by
        rw [getElem?_swapRemove (by omega), if_pos rfl]
        exact hmoved
      refine ⟨⟨s.dims, swapRemove s.ids row,
        Function.update (Function.update s.positions id none) moved (some row), codes⟩, ?_, rfl,
        hrepresents _ (h.positions.swapRemove hrow hlast hmoved)⟩
      simp only [FlatArrays.remove, hposition]
      rw [hswap, Option.bind_some, if_neg hlast, hback]
      rfl

end Represents

/-! ## Runs -/

/-- A call on the rows that the arrays stand for. -/
def rowsCall (ops : FloatOps F H) (q : Quantization) (f : FlatSegment (Code F H)) :
    SegmentCall F → FlatSegment (Code F H)
  | .upsert id vector => f.upsert id (encodeVector ops q vector)
  | .remove id => f.remove id

/-- A call on the arrays does what it does on the rows. -/
theorem Represents.call (h : s.Represents q f) {c : SegmentCall F}
    (hdims : c.HasDims s.dims) :
    ∃ s', s.call ops c = some s' ∧ s'.dims = s.dims ∧ s'.Represents q (rowsCall ops q f c) := by
  cases c with
  | upsert id vector => exact h.upsert id hdims
  | remove id =>
    obtain ⟨s', hremove, hsame, h'⟩ := h.remove id
    exact ⟨s', by simp only [FlatArrays.call, hremove, Option.map_some], hsame, h'⟩

/-- The rows hold the codes of the last upserts. -/
theorem find?_rowsCall {held : ℕ → Option (List F)}
    (h : f.find? = fun id => (held id).map (encodeVector ops q)) (c : SegmentCall F) :
    (rowsCall ops q f c).find? = fun id => (c.applyTo held id).map (encodeVector ops q) := by
  cases c with
  | upsert id vector =>
    unfold rowsCall
    rw [FlatSegment.find?_upsert, h]
    funext x
    by_cases hx : x = id
    · subst hx
      simp [SegmentCall.applyTo]
    · simp [SegmentCall.applyTo, Function.update_of_ne hx]
  | remove id =>
    unfold rowsCall
    rw [FlatSegment.find?_remove, h]
    funext x
    by_cases hx : x = id
    · subst hx
      simp [SegmentCall.applyTo]
    · simp [SegmentCall.applyTo, Function.update_of_ne hx]

/-- Calls on the arrays do what they do on the rows, and the rows hold the codes of the last
upserts. -/
theorem Represents.run {calls : List (SegmentCall F)} (h : s.Represents q f)
    (hdims : ∀ c ∈ calls, c.HasDims s.dims) {held : ℕ → Option (List F)}
    (hheld : f.find? = fun id => (held id).map (encodeVector ops q)) :
    ∃ s', calls.foldlM (FlatArrays.call ops) s = some s' ∧ s'.dims = s.dims ∧
      s'.Represents q (calls.foldl (rowsCall ops q) f) ∧
      (calls.foldl (rowsCall ops q) f).find? =
        fun id => (calls.foldl SegmentCall.applyTo held id).map (encodeVector ops q) := by
  induction calls generalizing s f held with
  | nil => exact ⟨s, rfl, rfl, h, hheld⟩
  | cons c calls ih =>
    obtain ⟨s₁, hcall, hsame, h₁⟩ := h.call (c := c) (hdims c List.mem_cons_self)
    obtain ⟨s', hrun, hsame', h', hfind⟩ := ih h₁
      (fun d hd => hsame ▸ hdims d (List.mem_cons_of_mem _ hd)) (find?_rowsCall hheld c)
    refine ⟨s', ?_, hsame'.trans hsame, h', hfind⟩
    rw [List.foldlM_cons, hcall]
    exact hrun

/-- Arrays that stand for rows are the map of the vectors whose codes the rows hold. -/
theorem Represents.isMapOf (h : s.Represents q f) {held : ℕ → Option (List F)}
    (hheld : f.find? = fun id => (held id).map (encodeVector ops q)) :
    s.IsMapOf ops q held where
  positions := h.positions
  rows := by
    rw [h.ids, List.length_map]
    exact h.has
  holds id i hi := by
    obtain ⟨row, hrow, rfl⟩ := h.row ((h.positions id i).mpr hi)
    have hfind : f.find? row.1 = some row.2 :=
      FlatSegment.find?_eq_some.mpr (List.mem_of_getElem? hrow)
    rw [hheld] at hfind
    obtain ⟨vector, hvector, hcode⟩ := Option.map_eq_some_iff.mp hfind
    refine ⟨vector, hvector, ?_⟩
    rw [hcode]
    exact h.holds i row hrow
  ids id := by
    have hsome : (held id).isSome = (f.find? id).isSome := by rw [hheld, Option.isSome_map]
    rw [hsome, Option.isSome_iff_exists, h.ids, List.mem_map]
    constructor
    · rintro ⟨row, hrow, rfl⟩
      exact ⟨row.2, FlatSegment.find?_eq_some.mpr hrow⟩
    · rintro ⟨code, hcode⟩
      exact ⟨(id, code), FlatSegment.find?_eq_some.mp hcode, rfl⟩

end FlatArrays

/-- Every sequence of calls with vectors of the right length succeeds, and leaves aligned arrays
that are the map of the last upserts. -/
theorem flatArrays_run {F H : Type} (ops : FloatOps F H) (q : Quantization) (dims : ℕ)
    (calls : List (SegmentCall F)) (hdims : ∀ c ∈ calls, c.HasDims dims) :
    ∃ s, calls.foldlM (FlatArrays.call ops) (FlatArrays.new dims q) = some s ∧ s.dims = dims ∧
      s.IsMapOf ops q (lastUpserts calls) := by
  have hnew : (FlatArrays.new dims q : FlatArrays F H).Represents q (FlatSegment.new (Code F H)) :=
    FlatArrays.represents_new dims q
  have hempty : (FlatSegment.new (Code F H)).find? =
      fun id => ((fun _ => none : ℕ → Option (List F)) id).map (encodeVector ops q) := rfl
  obtain ⟨s, hrun, hsame, h, hfind⟩ := hnew.run hdims hempty
  exact ⟨s, hrun, hsame, h.isMapOf hfind⟩

/-- Whole numbers in place of floating-point ones. -/
def wholeOps : FloatOps Int Int where
  zero := 0
  sum l := l.foldl (· + ·) 0
  mul a b := a * b
  div a b := a / b
  sqrt x := x
  abs x := x.natAbs
  max a b := max a b
  aboveEpsilon x := 0 < x
  withinEpsilon x := x ≤ 0
  positive x := 0 < x
  c127 := 127
  toInt8 x := Int8.ofInt (max (-127) (min 127 x))
  halfZero := 0
  toHalf x := x

/-- Two vectors, one of them replaced, and the other one removed. -/
theorem flatArrays_run_replaced :
    ∃ s, [SegmentCall.upsert 7 [1, 0], .upsert 4 [0, 1], .upsert 7 [0, -1], .remove 4].foldlM
        (FlatArrays.call wholeOps) (FlatArrays.new 2 .i8) = some s ∧ s.dims = 2 ∧
      s.IsMapOf wholeOps .i8 (lastUpserts
        [SegmentCall.upsert 7 [1, 0], .upsert 4 [0, 1], .upsert 7 [0, -1], .remove 4]) :=
  flatArrays_run wholeOps .i8 2 _ (by decide)

end Tellodb
