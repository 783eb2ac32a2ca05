import Mathlib.Algebra.Order.Ring.Int
import Mathlib.Algebra.Order.Ring.Abs
import Mathlib.Tactic.Linarith
import Tellodb.Machine.Errors
import Tellodb.Machine.Masks
import Tellodb.Vectors.Arrays
import Tellodb.Vectors.Search

/-!
# The scan of the arrays

`FlatSegment::scan` of `vector_index.rs`, on the arrays of a segment: the codes are read row by row,
each in the way of its quantization, the rows are ordered by similarity, and the best are given back
with their identifiers. The arrays stand for rows of codes, and the scan for that of the rows
(`FlatArrays.Represents.scan`). With what a row holds after a run, the scan is read back on the
vectors alone (`scan_run`): whatever was upserted and removed before, it finds the best of the
vectors that are held, by a similarity in which neither words of 64 signs occur (`plainSimilarity`)
nor integers of 32 bits. -/

namespace Tellodb

open Relational Collections Machine Machine.Format

/-- The operations on `f32` that a scan uses besides, and the conversion from `f16`. -/
structure ScanOps (F H : Type) extends FloatOps F H where
  add : F → F → F
  sub : F → F → F
  /-- `1.0` -/
  one : F
  /-- `2.0` -/
  two : F
  /-- `as f32` of an integer. -/
  ofInt : ℤ → F
  /-- `f16::to_f32` -/
  toFull : H → F

/-- `chunks_exact` -/
def chunksExact {α : Type*} (width : ℕ) (data : List α) : List (List α) :=
  (List.range (data.length / width)).map (Collections.rowOf data width)

/-- `chunks_exact(..).remainder()` -/
def chunksRemainder {α : Type*} (width : ℕ) (data : List α) : List α :=
  data.drop (data.length / width * width)

/-! ## The similarity of a row -/

section

variable {F H : Type} (ops : ScanOps F H)

/-- `dot_f32`, in eight sums and one for the numbers that are left. -/
def dotF32 (a b : List F) : F :=
  let tail := ops.sum (List.zipWith ops.mul (chunksRemainder 8 a) (chunksRemainder 8 b))
  let acc := ((chunksExact 8 a).zip (chunksExact 8 b)).foldl
    (fun acc c => List.zipWith3 (fun s x y => ops.add s (ops.mul x y)) acc c.1 c.2)
    (List.replicate 8 ops.zero)
  ops.add (ops.sum acc) tail

/-- `dot_i8` -/
def dotI8 (a b : List Int8) : Int32 :=
  ((a.zip b).map fun p => p.1.toInt32 * p.2.toInt32).foldl (· + ·) 0

/-- The product of two rows of codes. -/
def codeProduct (a b : List Int8) : ℤ :=
  ((a.zip b).map fun p => p.1.toInt * p.2.toInt).sum

/-- The number of bits on which words differ. -/
def differingBits (a b : List UInt64) : ℕ :=
  ((a.zip b).map fun words => countOnes (words.1 ^^^ words.2)).sum

/-- The share of signs that agree, from -1 to 1. -/
def signAgreement (differing dims : ℕ) : F :=
  ops.sub ops.one (ops.div (ops.mul ops.two (ops.ofInt differing)) (ops.ofInt dims))

/-- The similarity of a row to a query, which a scan encodes once for all rows. -/
def Code.similarity (dims : ℕ) (query : List F) : Code F H → F
  | .f32 row => dotF32 ops query row
  | .f16 row => dotF32 ops query (row.map ops.toFull)
  | .i8 row scale =>
    ops.mul (ops.mul (ops.ofInt (dotI8 (quantizeI8 ops.toFloatOps query).1 row).toInt) scale)
      (quantizeI8 ops.toFloatOps query).2
  | .binary row => signAgreement ops (differingBits row (signBits ops.toFloatOps query)) dims

/-- The similarities of all rows. -/
def Codes.similarities (dims : ℕ) (query : List F) : Codes F H → List F
  | .f32 data => (chunksExact dims data).map fun v => Code.similarity ops dims query (.f32 v)
  | .f16 data => (chunksExact dims data).map fun v => Code.similarity ops dims query (.f16 v)
  | .i8 codes scales => ((chunksExact dims codes).zip scales).map fun row =>
    Code.similarity ops dims query (.i8 row.1 row.2)
  | .binary data => (chunksExact (wordsOf dims) data).map fun v =>
    Code.similarity ops dims query (.binary v)

/-- The order of the scored rows: the more similar one first, and of rows as similar the one in
front. -/
def byScore [LinearOrder F] (x : F × ℕ) : Fᵒᵈ ×ₗ ℕ :=
  toLex (OrderDual.toDual x.1, x.2)

/-- `FlatSegment::scan` -/
def FlatArrays.scan [LinearOrder F] (s : FlatArrays F H) (query : List F) (k : ℕ) :
    Option (List (ℕ × F)) :=
  if s.ids.isEmpty || k = 0 then some []
  -- `chunks_exact` panics on chunks of no elements.
  else if s.dims = 0 then none
  else ((orderBy byScore (s.codes.similarities ops s.dims query).zipIdx).take k).mapM fun x =>
    (s.ids[x.2]?).map fun id => (id, x.1)

end

/-! ## Rows -/

section

variable {F H : Type} {ops : ScanOps F H} {q : Quantization} {dims : ℕ} {query : List F}

/-- The chunks of an array are its rows. -/
theorem chunksExact_of_length {α : Type*} {data : List α} {width n : ℕ} (hwidth : 0 < width)
    (hlength : data.length = n * width) :
    chunksExact width data = (List.range n).map (Collections.rowOf data width) := by
  unfold chunksExact
  rw [hlength, Nat.mul_div_cancel n hwidth]

/-- A vector of positive dimension has a word. -/
theorem wordsOf_pos (hdims : 0 < dims) : 0 < wordsOf dims := by
  unfold wordsOf
  omega

/-- Rows that are read one after the other. -/
theorem map_chunksExact {α β γ : Type*} {data : List α} {width : ℕ} {rows : List β}
    (hwidth : 0 < width) (hlength : data.length = rows.length * width) {g : List α → γ} {f : β → γ}
    (hrows : ∀ i row, rows[i]? = some row → g (Collections.rowOf data width i) = f row) :
    (chunksExact width data).map g = rows.map f := by
  rw [chunksExact_of_length hwidth hlength, List.map_map]
  refine List.ext_getElem? fun i => ?_
  rw [List.getElem?_map, List.getElem?_map]
  cases hrow : rows[i]? with
  | none =>
    rw [List.getElem?_eq_none (by simpa using List.getElem?_eq_none_iff.mp hrow)]
    rfl
  | some row =>
    have hlt := (List.getElem?_eq_some_iff.mp hrow).1
    rw [List.getElem?_range hlt, Option.map_some, Option.map_some]
    exact congrArg some (hrows i row hrow)

/-- Rows that are read one after the other, with one number more for each. -/
theorem map_zip_chunksExact {α β γ δ : Type*} {data : List α} {width : ℕ} {rows : List β}
    {scales : List δ} (hwidth : 0 < width) (hlength : data.length = rows.length * width)
    (hscales : scales.length = rows.length) {g : List α × δ → γ} {f : β → γ}
    (hrows : ∀ i row scale, rows[i]? = some row → scales[i]? = some scale →
      g (Collections.rowOf data width i, scale) = f row) :
    ((chunksExact width data).zip scales).map g = rows.map f := by
  rw [chunksExact_of_length hwidth hlength]
  refine List.ext_getElem? fun i => ?_
  rw [List.getElem?_map, List.getElem?_map, List.zip, List.getElem?_zipWith, List.getElem?_map]
  cases hrow : rows[i]? with
  | none =>
    rw [List.getElem?_eq_none (by simpa using List.getElem?_eq_none_iff.mp hrow)]
    rfl
  | some row =>
    have hlt := (List.getElem?_eq_some_iff.mp hrow).1
    have hscale : scales[i]? = some scales[i] := List.getElem?_eq_getElem (hscales ▸ hlt)
    rw [List.getElem?_range hlt, hscale]
    exact congrArg some (hrows i row _ hrow hscale)

/-- The similarities of the arrays are those of the rows that they stand for. -/
theorem FlatArrays.Represents.similarities {s : FlatArrays F H} {f : FlatSegment (Code F H)}
    (h : s.Represents q f) (hdims : 0 < s.dims) :
    s.codes.similarities ops s.dims query =
      f.rows.map fun row => Code.similarity ops s.dims query row.2 := by
  obtain ⟨-, -, hhas, hholds⟩ := h
  generalize s.codes = codes at hhas hholds ⊢
  -- The rows of the arrays are cut into chunks, one for each row of the list.
  cases codes with
  | f32 data =>
    refine map_chunksExact hdims hhas.2 fun i row hrow => ?_
    have hcode := hholds i row hrow
    generalize row.2 = code at hcode ⊢
    cases code with
    | f32 v => exact congrArg (fun v => Code.similarity ops s.dims query (.f32 v)) hcode
    | _ => exact hcode.elim
  | f16 data =>
    refine map_chunksExact hdims hhas.2 fun i row hrow => ?_
    have hcode := hholds i row hrow
    generalize row.2 = code at hcode ⊢
    cases code with
    | f16 v => exact congrArg (fun v => Code.similarity ops s.dims query (.f16 v)) hcode
    | _ => exact hcode.elim
  | i8 codes scales =>
    refine map_zip_chunksExact hdims hhas.2.1 hhas.2.2 fun i row scale hrow hscale => ?_
    have hcode := hholds i row hrow
    generalize row.2 = code at hcode ⊢
    cases code with
    | i8 v scale' =>
      obtain ⟨hv, hrowOf⟩ := hcode
      -- The row of a scale is the scale itself.
      have hsame : (Collections.rowOf scales 1 i)[0]? = scales[i]? := by
        rw [getElem?_rowOf, if_pos Nat.one_pos, Nat.mul_one, Nat.add_zero]
      rw [hrowOf, hscale] at hsame
      obtain rfl : scale' = scale := Option.some.inj hsame
      exact congrArg (fun v => Code.similarity ops s.dims query (.i8 v scale')) hv
    | _ => exact hcode.elim
  | binary data =>
    refine map_chunksExact (wordsOf_pos hdims) hhas.2 fun i row hrow => ?_
    have hcode := hholds i row hrow
    generalize row.2 = code at hcode ⊢
    cases code with
    | binary v => exact congrArg (fun v => Code.similarity ops s.dims query (.binary v)) hcode
    | _ => exact hcode.elim

/-- Elements that are all found. -/
theorem mapM_map_eq_some {α β γ : Type*} {l : List α} {g : α → β} {f : β → Option γ} {h : α → γ}
    (hf : ∀ x ∈ l, f (g x) = some (h x)) : (l.map g).mapM f = some (l.map h) := by
  induction l with
  | nil => rfl
  | cons x l ih =>
    rw [List.map_cons, List.mapM_cons, hf x List.mem_cons_self,
      ih fun y hy => hf y (List.mem_cons_of_mem _ hy)]
    rfl

/-- A scan of the arrays is one of the rows that they stand for. -/
theorem FlatArrays.Represents.scan [LinearOrder F] {s : FlatArrays F H}
    {f : FlatSegment (Code F H)} (h : s.Represents q f) (hdims : 0 < s.dims) (k : ℕ) :
    s.scan ops query k = some (f.scan (Code.similarity ops s.dims query) k) := by
  unfold FlatArrays.scan FlatSegment.scan
  -- Nothing is asked, or nothing is there.
  by_cases hempty : s.ids.isEmpty || k = 0
  · rw [if_pos hempty]
    rw [Bool.or_eq_true, decide_eq_true_eq] at hempty
    rcases hempty with hids | rfl
    · have hrows : f.rows = [] := by
        rw [h.ids, List.isEmpty_iff, List.map_eq_nil_iff] at hids
        exact hids
      have hscored : f.scored (Code.similarity ops s.dims query) = [] := by
        unfold FlatSegment.scored
        rw [hrows]
        rfl
      rw [hscored, (orderBy_eq_nil _ _).mpr rfl]
      simp
    · simp
  · rw [if_neg hempty, if_neg hdims.ne', h.similarities hdims]
    -- The rows are numbered, by the arrays as by the list.
    have hscored : (f.rows.map fun row => Code.similarity ops s.dims query row.2).zipIdx =
        (f.scored (Code.similarity ops s.dims query)).map fun x => (x.1.2, x.2) := by
      unfold FlatSegment.scored
      have hsnd : (f.rows.map fun row => Code.similarity ops s.dims query row.2) =
          (f.rows.map fun row => (row.1, Code.similarity ops s.dims query row.2)).map Prod.snd := by
        rw [List.map_map]
        rfl
      rw [hsnd, List.zipIdx_map]
      rfl
    -- The order is by the numbers and the similarities, so it is the same.
    have horder : orderBy byScore ((f.scored (Code.similarity ops s.dims query)).map
        fun x => (x.1.2, x.2)) =
          (orderBy scanKey (f.scored (Code.similarity ops s.dims query))).map
            fun x => (x.1.2, x.2) :=
      (f.keyed_scored _).orderBy_map _ fun _ _ => rfl
    rw [hscored, horder, ← List.map_take]
    -- The number of a row leads back to its identifier.
    refine mapM_map_eq_some fun x hx => ?_
    have hmem := (mem_orderBy _ _ _).mp (List.mem_of_mem_take hx)
    have hplace := List.mem_zipIdx_iff_getElem?.mp hmem
    rw [List.getElem?_map] at hplace
    obtain ⟨row, hrow, heq⟩ := Option.map_eq_some_iff.mp hplace
    rw [h.ids, List.getElem?_map]
    dsimp only
    rw [hrow, Option.map_some, Option.map_some, ← heq]

end

/-! ## Signs -/

section

variable {F H : Type} (ops : FloatOps F H)

/-- The bits of some positive numbers are set. -/
theorem bitAt_foldl_modify (bits : List (F × ℕ)) {words : List UInt64}
    (h : ∀ x ∈ bits, x.2 / 64 < words.length) (i : ℕ) :
    bitAt (bits.foldl (fun words x => if ops.positive x.1 then
      words.modify (x.2 / 64) (· ||| 1 <<< UInt64.ofNat (x.2 % 64)) else words) words) i =
        (bitAt words i || bits.any fun x => decide (x.2 = i) && ops.positive x.1) := by
  induction bits generalizing words with
  | nil => simp
  | cons x bits ih =>
    rw [List.foldl_cons, List.any_cons]
    by_cases hpositive : ops.positive x.1
    · rw [if_pos hpositive, ih, bitAt_modify (h x List.mem_cons_self), hpositive, Bool.and_true,
        Bool.or_assoc]
      intro y hy
      rw [List.length_modify]
      exact h y (List.mem_cons_of_mem _ hy)
    · rw [if_neg hpositive, ih fun y hy => h y (List.mem_cons_of_mem _ hy)]
      simp [hpositive]

/-- Zero words have no ones. -/
theorem bitAt_replicate_zero (n i : ℕ) : bitAt (List.replicate n 0) i = false := by
  unfold bitAt
  rw [List.getElem?_replicate]
  split_ifs
  · exact Nat.zero_testBit _
  · rfl

/-- The bits of the signs are where the numbers are positive, and nowhere behind the vector. -/
theorem bitAt_signBits (v : List F) (i : ℕ) :
    bitAt (signBits ops v) i = (v[i]?).any ops.positive := by
  unfold signBits
  rw [bitAt_foldl_modify, bitAt_replicate_zero, Bool.false_or, Bool.eq_iff_iff, List.any_eq_true]
  · constructor
    · rintro ⟨x, hx, hpositive⟩
      rw [Bool.and_eq_true, decide_eq_true_eq] at hpositive
      obtain ⟨rfl, hpositive⟩ := hpositive
      rw [List.mem_zipIdx_iff_getElem?.mp hx]
      exact hpositive
    · intro hany
      cases hx : v[i]? with
      | none => rw [hx] at hany; cases hany
      | some x =>
        rw [hx] at hany
        exact ⟨(x, i), List.mem_zipIdx_iff_getElem?.mpr hx, by simpa using hany⟩
  · intro x hx
    have hlt := List.snd_lt_of_mem_zipIdx hx
    rw [List.length_replicate]
    unfold wordsOf
    omega

/-- The number of places where one of two vectors is positive and the other one is not. -/
def signsApart (dims : ℕ) (v query : List F) : ℕ :=
  Nat.count (fun i => (v[i]?).any ops.positive ≠ (query[i]?).any ops.positive) dims

/-- The bits on which the signs of two vectors differ are the places where the vectors do: the bits
behind the vectors are all clear. -/
theorem differingBits_signBits {dims : ℕ} {v query : List F} (hv : v.length = dims)
    (hquery : query.length = dims) :
    differingBits (signBits ops v) (signBits ops query) = signsApart ops dims v query := by
  have hlength : (signBits ops v).length = (signBits ops query).length := by
    rw [length_signBits, length_signBits, hv, hquery]
  obtain ⟨padding, hpadding⟩ : ∃ padding, 64 * (signBits ops v).length = dims + padding := by
    refine ⟨64 * wordsOf dims - dims, ?_⟩
    rw [length_signBits, hv]
    unfold wordsOf
    omega
  unfold differingBits signsApart
  rw [sum_countOnes_xor hlength, hpadding, Nat.count_add]
  simp only [bitAt_signBits]
  have hbehind : Nat.count (fun i => (v[dims + i]?).any ops.positive ≠
      (query[dims + i]?).any ops.positive) padding = 0 := by
    rw [Nat.count_eq_card_filter_range, Finset.card_eq_zero, Finset.filter_eq_empty_iff]
    intro i _
    rw [List.getElem?_eq_none (by omega), List.getElem?_eq_none (by omega)]
    simp
  rw [hbehind, Nat.add_zero]

end

/-! ## Codes of eight bits -/

/-- A sum of products of codes, added up in 32 bits. -/
theorem toInt_foldl_add {products : List Int32} (h : ∀ p ∈ products, |p.toInt| ≤ 2 ^ 14)
    {sum : Int32} (hsum : |sum.toInt| + 2 ^ 14 * products.length < 2 ^ 31) :
    (products.foldl (· + ·) sum).toInt = sum.toInt + (products.map Int32.toInt).sum := by
  induction products generalizing sum with
  | nil => simp
  | cons p products ih =>
    have hp := h p List.mem_cons_self
    rw [List.length_cons] at hsum
    push_cast at hsum
    obtain ⟨hlow, hhigh⟩ := abs_le.mp hp
    have hroom : |sum.toInt| < 2 ^ 31 - 2 ^ 14 * (products.length + 1) := by linarith
    obtain ⟨hlow', hhigh'⟩ := abs_lt.mp hroom
    have hadd : (sum + p).toInt = sum.toInt + p.toInt := by
      rw [Int32.toInt_add]
      exact Int.bmod_eq_of_le (by omega) (by omega)
    have habs : |(sum + p).toInt| ≤ |sum.toInt| + 2 ^ 14 := by
      rw [hadd]
      exact (abs_add_le _ _).trans (Int.add_le_add_left hp _)
    rw [List.foldl_cons, ih (fun r hr => h r (List.mem_cons_of_mem _ hr)) (by linarith), hadd,
      List.map_cons, List.sum_cons, add_assoc]

/-- The product of two codes. -/
theorem toInt_mul_toInt32 (x y : Int8) :
    (x.toInt32 * y.toInt32).toInt = x.toInt * y.toInt ∧ |x.toInt * y.toInt| ≤ 2 ^ 14 := by
  have hx : |x.toInt| ≤ 2 ^ 7 := abs_le.mpr ⟨x.le_toInt, x.toInt_lt.le⟩
  have hy : |y.toInt| ≤ 2 ^ 7 := abs_le.mpr ⟨y.le_toInt, y.toInt_lt.le⟩
  have hproduct : |x.toInt * y.toInt| ≤ 2 ^ 14 := by
    rw [abs_mul]
    calc |x.toInt| * |y.toInt| ≤ 2 ^ 7 * 2 ^ 7 := mul_le_mul hx hy (abs_nonneg _) (by decide)
      _ = 2 ^ 14 := by decide
  refine ⟨?_, hproduct⟩
  rw [abs_le] at hproduct
  rw [Int32.toInt_mul, Int8.toInt_toInt32, Int8.toInt_toInt32]
  exact Int.bmod_eq_of_le (by omega) (by omega)

/-- The product of two rows of codes does not overflow. -/
theorem toInt_dotI8 {a b : List Int8} (h : a.length < 2 ^ 17) :
    (dotI8 a b).toInt = codeProduct a b := by
  have hproducts : ∀ p ∈ (a.zip b).map fun p => p.1.toInt32 * p.2.toInt32, |p.toInt| ≤ 2 ^ 14 := by
    intro p hp
    obtain ⟨x, -, rfl⟩ := List.mem_map.mp hp
    rw [(toInt_mul_toInt32 x.1 x.2).1]
    exact (toInt_mul_toInt32 x.1 x.2).2
  have hlength : ((a.zip b).map fun p => p.1.toInt32 * p.2.toInt32).length < 2 ^ 17 := by
    rw [List.length_map, List.length_zip]
    omega
  have hzero : |(0 : Int32).toInt| = 0 := rfl
  unfold dotI8 codeProduct
  rw [toInt_foldl_add hproducts (by rw [hzero]; omega), List.map_map]
  refine (zero_add _).trans (congrArg List.sum (List.map_congr_left fun p _ => ?_))
  exact (toInt_mul_toInt32 p.1 p.2).1

/-! ## What a scan finds -/

/-- The best of what is held: some of the identifiers, each with its similarity, the most similar
one first, and one that is left out is as similar as none of those that are found. -/
structure BestHits {α F : Type} [LinearOrder F] (similarity : α → F) (held : ℕ → Option α) (k : ℕ)
    (hits : List (ℕ × F)) : Prop where
  sound : ∀ hit ∈ hits, ∃ a, held hit.1 = some a ∧ hit.2 = similarity a
  nodup : (hits.map Prod.fst).Nodup
  sorted : hits.Pairwise fun hit hit' => hit'.2 ≤ hit.2
  best : ∀ id a, held id = some a → id ∉ hits.map Prod.fst →
    hits.length = k ∧ ∀ hit ∈ hits, similarity a ≤ hit.2

/-- A scan finds the best of the rows. -/
theorem FlatSegment.bestHits_scan {γ V : Type} [LinearOrder V] (s : FlatSegment γ)
    (similarity : γ → V) (k : ℕ) : BestHits similarity s.find? k (s.scan similarity k) := by
  have hsorted := (s.keyed_scored similarity).orderBy_pairwise
  refine ⟨fun hit h => exists_of_mem_scan h, s.nodup_scan similarity k, ?_, ?_⟩
  · unfold FlatSegment.scan
    rw [List.pairwise_map]
    exact (hsorted.sublist (List.take_sublist _ _)).imp fun h => similar_of_scanKey h
  · intro id code hcode hout
    -- The row is behind the cut.
    obtain ⟨x, hx, hrow⟩ : ∃ x ∈ s.scored similarity, x.1 = (id, similarity code) := by
      have hmem : (id, similarity code) ∈ (s.scored similarity).map Prod.fst := by
        unfold FlatSegment.scored
        rw [List.zipIdx_map_fst]
        exact List.mem_map.mpr ⟨_, FlatSegment.find?_eq_some.mp hcode, rfl⟩
      exact List.mem_map.mp hmem
    have hall := (mem_orderBy scanKey (s.scored similarity) x).mpr hx
    rw [← List.take_append_drop k (orderBy scanKey (s.scored similarity))] at hall hsorted
    have hdrop : x ∈ (orderBy scanKey (s.scored similarity)).drop k := by
      refine (List.mem_append.mp hall).resolve_left fun htake => hout ?_
      refine List.mem_map.mpr ⟨x.1, List.mem_map_of_mem htake, ?_⟩
      rw [hrow]
    unfold FlatSegment.scan
    refine ⟨?_, ?_⟩
    · have hlong := List.length_pos_of_mem hdrop
      rw [List.length_drop] at hlong
      rw [List.length_map, List.length_take]
      omega
    · intro hit hhit
      obtain ⟨y, hy, rfl⟩ := List.mem_map.mp hhit
      have hlt := (List.pairwise_append.mp hsorted).2.2 y hy x hdrop
      have hle := similar_of_scanKey hlt
      rwa [hrow] at hle

/-- What is held may be the vectors in place of their codes. -/
theorem BestHits.of_codes {α β F : Type} [LinearOrder F] {similarity : β → F} {similarity' : α → F}
    {held : ℕ → Option α} {codes : ℕ → Option β} {encode : α → β} {k : ℕ} {hits : List (ℕ × F)}
    (h : BestHits similarity codes k hits) (hcodes : codes = fun id => (held id).map encode)
    (hsimilarity : ∀ id a, held id = some a → similarity (encode a) = similarity' a) :
    BestHits similarity' held k hits := by
  subst hcodes
  refine ⟨fun hit hhit => ?_, h.nodup, h.sorted, fun id a ha hout => ?_⟩
  · obtain ⟨code, hcode, heq⟩ := h.sound hit hhit
    obtain ⟨a, ha, rfl⟩ := Option.map_eq_some_iff.mp hcode
    exact ⟨a, ha, heq.trans (hsimilarity _ a ha)⟩
  · have hbest := h.best id (encode a) (by rw [ha]; rfl) hout
    rwa [hsimilarity id a ha] at hbest

/-! ## Runs -/

section

variable {F H : Type} (ops : ScanOps F H)

/-- The similarity of a vector to a query under a quantization: the product of their numbers, of
their numbers as `f16` holds them, of their codes times both scales, or the share of the numbers
that are positive in both or in none of them. -/
def plainSimilarity (q : Quantization) (dims : ℕ) (query vector : List F) : F :=
  let v := normalized ops.toFloatOps vector
  match q with
  | .f32 => dotF32 ops query v
  | .f16 => dotF32 ops query (v.map fun x => ops.toFull (ops.toHalf x))
  | .i8 =>
    let a := quantizeI8 ops.toFloatOps query
    let b := quantizeI8 ops.toFloatOps v
    ops.mul (ops.mul (ops.ofInt (codeProduct a.1 b.1)) b.2) a.2
  | .binary => signAgreement ops (signsApart ops.toFloatOps dims v query) dims

/-- The similarity of the code of a vector is that of the vector. -/
theorem similarity_encodeVector (q : Quantization) {dims : ℕ} (hdims : dims < 2 ^ 17)
    {query vector : List F} (hquery : query.length = dims) (hvector : vector.length = dims) :
    Code.similarity ops dims query (encodeVector ops.toFloatOps q vector) =
      plainSimilarity ops q dims query vector := by
  have hlength : (normalized ops.toFloatOps vector).length = dims := by
    rw [length_normalized, hvector]
  cases q with
  | f32 => rfl
  | f16 =>
    simp only [encodeVector, plainSimilarity, Code.similarity]
    rw [List.map_map]
    rfl
  | i8 =>
    have hcodes : (quantizeI8 ops.toFloatOps query).1.length < 2 ^ 17 := by
      rwa [length_quantizeI8, hquery]
    simp only [encodeVector, plainSimilarity, Code.similarity]
    rw [toInt_dotI8 hcodes]
  | binary =>
    simp only [encodeVector, plainSimilarity, Code.similarity]
    rw [differingBits_signBits ops.toFloatOps hlength hquery]

/-- What is held was upserted. -/
theorem upsert_mem_of_lastUpserts {calls : List (SegmentCall F)} {id : ℕ} {vector : List F}
    (h : lastUpserts calls id = some vector) : SegmentCall.upsert id vector ∈ calls := by
  unfold lastUpserts at h
  induction calls using List.reverseRecOn with
  | nil => cases h
  | append_singleton calls c ih =>
    rw [List.foldl_concat] at h
    cases c with
    | upsert id' vector' =>
      change Function.update (calls.foldl SegmentCall.applyTo fun _ => none) id' (some vector') id =
        some vector at h
      rw [Function.update_apply] at h
      split at h
      · rename_i hid
        rw [hid, ← Option.some.inj h]
        exact List.mem_append_right _ List.mem_cons_self
      · exact List.mem_append_left _ (ih h)
    | remove id' =>
      change Function.update (calls.foldl SegmentCall.applyTo fun _ => none) id' none id =
        some vector at h
      rw [Function.update_apply] at h
      split at h
      · cases h
      · exact List.mem_append_left _ (ih h)

end

/-- The arrays that calls leave hold the codes of what was upserted last. -/
theorem exists_represents_calls {F H : Type} (ops : FloatOps F H) (q : Quantization) {dims : ℕ}
    {calls : List (SegmentCall F)} (hdims : ∀ c ∈ calls, c.HasDims dims) :
    ∃ s f, calls.foldlM (FlatArrays.call ops) (FlatArrays.new dims q) = some s ∧ s.dims = dims ∧
      s.Represents q f ∧
        f.find? = fun id => (lastUpserts calls id).map (encodeVector ops q) := by
  have hnew : (FlatArrays.new dims q : FlatArrays F H).Represents q (FlatSegment.new (Code F H)) :=
    FlatArrays.represents_new dims q
  have hempty : (FlatSegment.new (Code F H)).find? = fun id =>
      ((fun _ => none : ℕ → Option (List F)) id).map (encodeVector ops q) := rfl
  obtain ⟨s, hrun, hsame, h, hfind⟩ := hnew.run hdims hempty
  exact ⟨s, _, hrun, hsame, h, hfind⟩

/-- A scan of such arrays finds the best of what was upserted last. -/
theorem FlatArrays.Represents.exists_bestHits {F H : Type} [LinearOrder F] {ops : ScanOps F H}
    {q : Quantization} {s : FlatArrays F H} {f : FlatSegment (Code F H)} (h : s.Represents q f)
    {calls : List (SegmentCall F)}
    (hfind : f.find? = fun id => (lastUpserts calls id).map (encodeVector ops.toFloatOps q))
    (hcalls : ∀ c ∈ calls, c.HasDims s.dims) (hpositive : 0 < s.dims) (hsmall : s.dims < 2 ^ 17)
    {query : List F} (hquery : query.length = s.dims) (k : ℕ) :
    ∃ hits, s.scan ops query k = some hits ∧
      BestHits (plainSimilarity ops q s.dims query) (lastUpserts calls) k hits := by
  refine ⟨_, h.scan hpositive k, ?_⟩
  exact (FlatSegment.bestHits_scan _ _ k).of_codes hfind fun id vector hvector =>
    similarity_encodeVector ops q hsmall hquery (hcalls _ (upsert_mem_of_lastUpserts hvector))

/-- After any upserts and removals a scan finds the best of the vectors that are held, by their
similarity to the query under the quantization. -/
theorem scan_run {F H : Type} [LinearOrder F] (ops : ScanOps F H) (q : Quantization) (dims : ℕ)
    (hpositive : 0 < dims) (hsmall : dims < 2 ^ 17) (calls : List (SegmentCall F))
    (hdims : ∀ c ∈ calls, c.HasDims dims) :
    ∃ s, calls.foldlM (FlatArrays.call ops.toFloatOps) (FlatArrays.new dims q) = some s ∧
      ∀ (query : List F) (k : ℕ), query.length = dims → ∃ hits, s.scan ops query k = some hits ∧
        BestHits (plainSimilarity ops q dims query) (lastUpserts calls) k hits := by
  obtain ⟨s, f, hrun, rfl, h, hfind⟩ := exists_represents_calls ops.toFloatOps q hdims
  exact ⟨s, hrun, fun query k hquery =>
    h.exists_bestHits hfind hdims hpositive hsmall hquery k⟩

section

variable {H : Type} (halfZero : H) (toHalf : F32 → H) (toFull : H → F32)

/-- The operations on `f32`, with some conversions to `f16` and back. -/
def f32Ops : ScanOps F32 H where
  zero := 0
  sum l := l.foldl (· + ·) 0
  mul x y := x * y
  div x y := x / y
  sqrt := F32.sqrt
  abs := Number.abs
  max := Number.max
  aboveEpsilon x := Number.Less F32.epsilon x
  withinEpsilon x := x ≠ .nan ∧ x ≤ F32.epsilon
  positive x := Number.Less 0 x
  c127 := 127
  toInt8 := F32.toInt8
  halfZero := halfZero
  toHalf := toHalf
  add x y := x + y
  sub x y := x - y
  one := 1
  two := 2
  ofInt n := binary32.round n
  toFull := toFull

end

/-- Two vectors of `f32`, one of them replaced, and the other one removed. -/
theorem scan_run_replaced :
    ∃ s, [SegmentCall.upsert 7 [1, 0], .upsert 4 [0.5, 2], .upsert 7 [0, -1], .remove 4].foldlM
        (FlatArrays.call (f32Ops (0 : F32) id id).toFloatOps) (FlatArrays.new 2 .i8) = some s ∧
      ∀ (query : List F32) (k : ℕ), query.length = 2 → ∃ hits,
        s.scan (f32Ops (0 : F32) id id) query k = some hits ∧
          BestHits (plainSimilarity (f32Ops (0 : F32) id id) .i8 2 query) (lastUpserts
            [SegmentCall.upsert 7 [1, 0], .upsert 4 [0.5, 2], .upsert 7 [0, -1], .remove 4]) k
              hits :=
  scan_run (f32Ops 0 id id) .i8 2 (by decide) (by decide) _ (by decide)

end Tellodb
