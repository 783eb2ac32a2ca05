import Mathlib.Data.List.Basic

/-!
# Rows of one array

An array that holds rows of the same width one after the other. A row is a slice of the array
(`rowOf`), and is written in place (`writeRow`); when a row is dropped, the last one is moved to its
place (`swapRow`). Both fail on a slice that is out of bounds. Each operation is read back row by
row, so what uses them never looks into the array. -/

namespace Tellodb.Collections

variable {α : Type*}

/-- `data[row * width..(row + 1) * width]` -/
def rowOf (data : List α) (width row : ℕ) : List α :=
  (data.drop (row * width)).take width

/-- The elements from a place on, overwritten. -/
def splice (data : List α) (start : ℕ) (values : List α) : List α :=
  data.take start ++ values ++ data.drop (start + values.length)

/-- `data[row * width..(row + 1) * width].copy_from_slice(values)` -/
def writeRow (data : List α) (width row : ℕ) (values : List α) : Option (List α) :=
  if (row + 1) * width ≤ data.length ∧ values.length = width then
    some (splice data (row * width) values)
  else none

/-- `swap_row` -/
def swapRow (data : List α) (row last width : ℕ) : Option (List α) :=
  if row = last then some (data.take (last * width))
  else if (last + 1) * width ≤ data.length ∧ (row + 1) * width ≤ data.length then
    some ((splice data (row * width) (rowOf data width last)).take (last * width))
  else none

/-! ## Elements -/

/-- The items of a row, by their place in it. -/
theorem getElem?_rowOf (data : List α) (width row k : ℕ) :
    (rowOf data width row)[k]? = if k < width then data[row * width + k]? else none := by
  unfold rowOf
  rw [List.getElem?_take, List.getElem?_drop]

/-- What stands at a place after values are written over others. -/
theorem getElem?_splice {data : List α} {start : ℕ} (values : List α) (h : start ≤ data.length)
    (k : ℕ) : (splice data start values)[k]? =
      if start ≤ k ∧ k < start + values.length then values[k - start]? else data[k]? := by
  have htake : (data.take start).length = start := by
    rw [List.length_take]
    omega
  unfold splice
  rw [List.append_assoc, List.getElem?_append, htake]
  split
  · rw [if_neg (by omega), List.getElem?_take, if_pos (by omega)]
  · rw [List.getElem?_append]
    split
    · rw [if_pos (by omega)]
    · rw [if_neg (by omega), List.getElem?_drop]
      congr 1
      omega

/-- Writing over others leaves the length as it is. -/
theorem length_splice {data : List α} {start : ℕ} {values : List α}
    (h : start + values.length ≤ data.length) :
    (splice data start values).length = data.length := by
  unfold splice
  rw [List.length_append, List.length_append, List.length_take, List.length_drop]
  omega

/-- A row that is there is as long as it should be. -/
theorem length_rowOf {data : List α} {width row : ℕ} (h : (row + 1) * width ≤ data.length) :
    (rowOf data width row).length = width := by
  rw [Nat.succ_mul] at h
  unfold rowOf
  rw [List.length_take, List.length_drop]
  omega

/-! ## Rows -/

/-- The elements of a row come before those of the rows after it. -/
theorem offset_lt {width i j k : ℕ} (hij : i < j) (hk : k < width) :
    i * width + k < j * width := by
  have hle := Nat.mul_le_mul_right width (Nat.succ_le_of_lt hij)
  rw [Nat.succ_mul] at hle
  omega

/-- The row that is written. -/
theorem rowOf_splice_self {data : List α} {width row : ℕ} {values : List α}
    (h : (row + 1) * width ≤ data.length) (hvalues : values.length = width) :
    rowOf (splice data (row * width) values) width row = values := by
  rw [Nat.succ_mul] at h
  refine List.ext_getElem? fun k => ?_
  rw [getElem?_rowOf, getElem?_splice values (by omega)]
  split
  · rw [if_pos (by omega), Nat.add_sub_cancel_left]
  · rw [List.getElem?_eq_none (by omega)]

/-- The other rows stay. -/
theorem rowOf_splice_of_ne {data : List α} {width row i : ℕ} {values : List α}
    (h : (row + 1) * width ≤ data.length) (hvalues : values.length = width) (hne : i ≠ row) :
    rowOf (splice data (row * width) values) width i = rowOf data width i := by
  rw [Nat.succ_mul] at h
  refine List.ext_getElem? fun k => ?_
  rw [getElem?_rowOf, getElem?_rowOf, getElem?_splice values (by omega)]
  split
  · rename_i hk
    -- An element of another row lies before the one that is written or after it.
    have hout : ¬ (row * width ≤ i * width + k ∧ i * width + k < row * width + width) := by
      rcases Nat.lt_or_gt_of_ne hne with hlt | hgt
      · have hbefore := offset_lt hlt hk
        omega
      · have hafter := Nat.mul_le_mul_right width (Nat.succ_le_of_lt hgt)
        rw [Nat.succ_mul] at hafter
        omega
    rw [hvalues, if_neg hout]
  · rfl

/-- The rows before a place stay when the array is cut there. -/
theorem rowOf_take {data : List α} {width last i : ℕ} (h : i < last) :
    rowOf (data.take (last * width)) width i = rowOf data width i := by
  refine List.ext_getElem? fun k => ?_
  rw [getElem?_rowOf, getElem?_rowOf]
  split
  · rename_i hk
    rw [List.getElem?_take, if_pos (offset_lt h hk)]
  · rfl

/-- The rows that are there stay when the array grows. -/
theorem rowOf_append {data more : List α} {width n i : ℕ} (hlength : data.length = n * width)
    (h : i < n) : rowOf (data ++ more) width i = rowOf data width i := by
  refine List.ext_getElem? fun k => ?_
  rw [getElem?_rowOf, getElem?_rowOf]
  split
  · rename_i hk
    rw [List.getElem?_append_left (by rw [hlength]; exact offset_lt h hk)]
  · rfl

/-! ## The operations on an array of whole rows -/

section

variable {data values : List α} {width n row : ℕ}

/-- The end of a row that is there. -/
theorem end_le (hlength : data.length = n * width) (h : row < n) :
    (row + 1) * width ≤ data.length := by
  rw [hlength]
  exact Nat.mul_le_mul_right width h

/-- A row is written, and the others stay. -/
theorem exists_writeRow (hlength : data.length = n * width) (hrow : row < n)
    (hvalues : values.length = width) :
    ∃ data', writeRow data width row values = some data' ∧ data'.length = n * width ∧
      rowOf data' width row = values ∧ ∀ i, i ≠ row → rowOf data' width i = rowOf data width i := by
  have hend := end_le hlength hrow
  refine ⟨_, if_pos ⟨hend, hvalues⟩, ?_, rowOf_splice_self hend hvalues,
    fun i hi => rowOf_splice_of_ne hend hvalues hi⟩
  rw [length_splice, hlength]
  rw [Nat.succ_mul] at hend
  omega

/-- The last row takes the place of the one that is dropped, and the others stay. -/
theorem exists_swapRow {last : ℕ} (hlength : data.length = (last + 1) * width) (hrow : row ≤ last) :
    ∃ data', swapRow data row last width = some data' ∧ data'.length = last * width ∧
      ∀ i, i < last → rowOf data' width i = rowOf data width (if i = row then last else i) := by
  have hend := end_le hlength (Nat.lt_succ_of_le hrow)
  have hlast := end_le hlength (Nat.lt_succ_self last)
  have hcut : last * width ≤ data.length := by
    rw [hlength]
    exact Nat.mul_le_mul_right width (Nat.le_succ last)
  by_cases heq : row = last
  · refine ⟨_, if_pos heq, ?_, fun i hi => ?_⟩
    · rw [List.length_take, Nat.min_eq_left hcut]
    · rw [if_neg (by omega), rowOf_take hi]
  · have hmoved := length_rowOf hlast
    refine ⟨_, (if_neg heq).trans (if_pos ⟨hlast, hend⟩), ?_, fun i hi => ?_⟩
    · rw [List.length_take, length_splice, Nat.min_eq_left hcut]
      rw [Nat.succ_mul] at hend
      omega
    · rw [rowOf_take hi]
      split
      · rename_i hi'
        rw [hi', rowOf_splice_self hend hmoved]
      · rename_i hi'
        exact rowOf_splice_of_ne hend hmoved hi'

end

end Tellodb.Collections
