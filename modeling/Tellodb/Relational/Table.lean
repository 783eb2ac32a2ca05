import Mathlib.Data.List.Induction
import Mathlib.Data.List.Nodup
import Mathlib.Data.List.Perm.Basic

/-!
# Keyed tables

A `Table` is a list of rows in row order together with the proof that its unique key really is
unique, `RowTable` adds the hidden row identifiers, ascending in row order, and `AutoTable` the
counter of an `AUTOINCREMENT` table, which never gives an identifier out again. The operations are
the SQL statements a store issues against them: `INSERT OR IGNORE`, `INSERT OR REPLACE`,
`UPDATE ... WHERE`, `DELETE ... WHERE` and the read of one key. The right-hand side of an update is
an `Assignment`, which carries the proof that it leaves the key alone, so that no operation can
build a table with a duplicated key. -/

namespace Tellodb.Relational

variable {α β κ : Type*}

/-- The rows have pairwise distinct keys. -/
def Keyed (key : α → κ) (rows : List α) : Prop :=
  (rows.map key).Nodup

/-- Distinct keys are a property of the rows, not of the table order. -/
theorem Keyed.perm {key : α → κ} {rows rows' : List α} (h : Keyed key rows)
    (hp : rows.Perm rows') : Keyed key rows' :=
  (hp.map key).nodup_iff.mp h

/-- A part of the rows keeps distinct keys. -/
theorem Keyed.filter {key : α → κ} {rows : List α} (h : Keyed key rows) (p : α → Bool) :
    Keyed key (rows.filter p) :=
  h.sublist (List.filter_sublist.map key)

/-- Distinct keys make distinct rows. -/
theorem Keyed.nodup {key : α → κ} {rows : List α} (h : Keyed key rows) : rows.Nodup :=
  List.Nodup.of_map key h

/-- Two rows with one key are one row. -/
theorem Keyed.eq_of_mem {key : α → κ} {rows : List α} (h : Keyed key rows) {a b : α}
    (ha : a ∈ rows) (hb : b ∈ rows) (hab : key a = key b) : a = b :=
  List.inj_on_of_nodup_map h ha hb hab

/-- A row whose key is new can be appended. -/
theorem Keyed.append {key : α → κ} {rows : List α} (h : Keyed key rows) {a : α}
    (ha : ∀ b ∈ rows, key b ≠ key a) : Keyed key (rows ++ [a]) := by
  unfold Keyed at *
  rw [List.map_append, List.map_singleton, List.nodup_append]
  refine ⟨h, List.nodup_singleton _, ?_⟩
  intro k hk k' hk'
  obtain ⟨b, hb, rfl⟩ := List.mem_map.mp hk
  rw [List.mem_singleton.mp hk']
  exact ha b hb

/-- What some rows turn into under their keys has distinct keys. -/
theorem Keyed.filterMap {key : α → κ} {rows : List α} (h : Keyed key rows) {key' : β → κ}
    {f : α → Option β} (hf : ∀ a b, f a = some b → key' b = key a) :
    Keyed key' (rows.filterMap f) := by
  have hsub : ((rows.filterMap f).map key').Sublist (rows.map key) := by
    induction rows with
    | nil => exact List.Sublist.refl _
    | cons a rows ih =>
      cases hfa : f a with
      | none =>
        rw [List.filterMap_cons_none hfa]
        exact (ih (List.nodup_cons.mp h).2).cons _
      | some b =>
        rw [List.filterMap_cons_some hfa, List.map_cons, List.map_cons, hf a b hfa]
        exact (ih (List.nodup_cons.mp h).2).cons_cons _
  exact h.sublist hsub

/-- An update that leaves every key alone keeps the keys distinct. -/
theorem Keyed.map {key : α → κ} {rows : List α} (h : Keyed key rows) {f : α → α}
    (hf : ∀ a, key (f a) = key a) : Keyed key (rows.map f) := by
  have hkeys : (rows.map f).map key = rows.map key := by
    rw [List.map_map]
    exact List.map_congr_left fun a _ => hf a
  unfold Keyed
  rw [hkeys]
  exact h

/-- The `SET` part of an update: a change of single rows that leaves the key alone. -/
structure Assignment (key : α → κ) where
  /-- The row after the update. -/
  set : α → α
  /-- The update leaves the key alone. -/
  key_set : ∀ a, key (set a) = key a

/-- An assignment where a condition holds, and nothing elsewhere. -/
def Assignment.on {key : α → κ} (f : Assignment key) (p : α → Bool) (a : α) : α :=
  if p a then f.set a else a

/-- Restricting an assignment to a condition still leaves the key alone. -/
theorem Assignment.key_on {key : α → κ} (f : Assignment key) (p : α → Bool) (a : α) :
    key (f.on p a) = key a := by
  unfold Assignment.on
  split
  · exact f.key_set a
  · rfl

/-- A table with a unique key: its rows in row order, no two with the same key. -/
structure Table (key : α → κ) where
  /-- The rows, oldest row identifier first. -/
  rows : List α
  /-- The unique constraint on the key. -/
  keyed : Keyed key rows

namespace Table

variable {key : α → κ}

/-- The table without rows. -/
def empty (key : α → κ) : Table key := ⟨[], List.nodup_nil⟩

/-- Tables with the same rows are the same table. -/
@[ext] theorem ext {t t' : Table key} (h : t.rows = t'.rows) : t = t' := by
  obtain ⟨rows, _⟩ := t
  obtain ⟨rows', _⟩ := t'
  cases h
  rfl

/-- `DELETE ... WHERE p`. -/
def deleteWhere (t : Table key) (p : α → Bool) : Table key :=
  ⟨t.rows.filter fun a => !p a, t.keyed.filter _⟩

/-- `UPDATE ... SET f WHERE p`. -/
def updateWhere (t : Table key) (p : α → Bool) (f : Assignment key) : Table key :=
  ⟨t.rows.map (f.on p), t.keyed.map (f.key_on p)⟩

/-- A row survives a delete exactly when the condition does not name it. -/
@[simp] theorem mem_deleteWhere {t : Table key} {p : α → Bool} {a : α} :
    a ∈ (t.deleteWhere p).rows ↔ a ∈ t.rows ∧ p a = false := by
  simp [deleteWhere]

variable [DecidableEq κ]

/-- The row with a given key, if there is one. -/
def find? (t : Table key) (k : κ) : Option α :=
  t.rows.find? fun a => key a = k

/-- `INSERT OR IGNORE`: the row is added unless its key is taken. -/
def insertOrIgnore (t : Table key) (a : α) : Table key :=
  if h : ∃ b ∈ t.rows, key b = key a then t
  else ⟨t.rows ++ [a], t.keyed.append fun b hb hk => h ⟨b, hb, hk⟩⟩

/-- `INSERT OR REPLACE`: a row with the same key is deleted first. -/
def insertOrReplace (t : Table key) (a : α) : Table key :=
  ⟨(t.rows.filter fun b => key b ≠ key a) ++ [a],
    (t.keyed.filter _).append fun b hb => by simpa using (List.mem_filter.mp hb).2⟩

/-- A lookup finds a row exactly when that row is in the table under that key. -/
theorem find?_eq_some {t : Table key} {k : κ} {a : α} :
    t.find? k = some a ↔ a ∈ t.rows ∧ key a = k := by
  refine ⟨fun h => ?_, fun ⟨ha, hk⟩ => ?_⟩
  · have hk := List.find?_some h
    exact ⟨List.mem_of_find?_eq_some h, of_decide_eq_true hk⟩
  · -- The key is unique, so the first row found under it is `a`.
    cases hfound : t.find? k with
    | none =>
      have hall := List.find?_eq_none.mp hfound a ha
      exact absurd (decide_eq_true hk) hall
    | some b =>
      have hb : key b = k := by simpa using List.find?_some hfound
      rw [t.keyed.eq_of_mem (List.mem_of_find?_eq_some hfound) ha (hb.trans hk.symm)]

/-- A lookup finds nothing exactly when no row has the key. -/
theorem find?_eq_none {t : Table key} {k : κ} :
    t.find? k = none ↔ ∀ a ∈ t.rows, key a ≠ k := by
  simp [find?]

/-- A row of a table after `INSERT OR REPLACE` is the new row or an old one with another key. -/
@[simp] theorem mem_insertOrReplace {t : Table key} {a b : α} :
    b ∈ (t.insertOrReplace a).rows ↔ (b ∈ t.rows ∧ key b ≠ key a) ∨ b = a := by
  simp [insertOrReplace]

/-- A row of a table after several are inserted or replaced is one of these or an old one. -/
theorem mem_of_mem_foldl_insertOrReplace {β : Type*} {f : β → α} {items : List β} {t : Table key}
    {a : α} (h : a ∈ (items.foldl (fun t c => t.insertOrReplace (f c)) t).rows) :
    a ∈ t.rows ∨ ∃ c ∈ items, f c = a := by
  induction items generalizing t with
  | nil => exact .inl h
  | cons c rest ih =>
    rcases ih h with hmem | ⟨d, hd, heq⟩
    · rcases mem_insertOrReplace.mp hmem with ⟨hold, -⟩ | hnew
      · exact .inl hold
      · exact .inr ⟨c, List.mem_cons_self, hnew.symm⟩
    · exact .inr ⟨d, List.mem_cons_of_mem _ hd, heq⟩

/-- A row of a table after several are inserted or ignored is one of these or an old one. -/
theorem mem_of_mem_foldl_insertOrIgnore {items : List α} {t : Table key} {a : α}
    (h : a ∈ (items.foldl insertOrIgnore t).rows) : a ∈ t.rows ∨ a ∈ items := by
  induction items generalizing t with
  | nil => exact .inl h
  | cons c rest ih =>
    rcases ih h with hmem | hrest
    · unfold insertOrIgnore at hmem
      split at hmem
      · exact .inl hmem
      · rcases List.mem_append.mp hmem with hold | hnew
        · exact .inl hold
        · exact .inr (List.mem_cons.mpr (.inl (List.mem_singleton.mp hnew)))
    · exact .inr (List.mem_cons_of_mem _ hrest)

/-- `INSERT OR IGNORE` on a taken key changes nothing. -/
theorem insertOrIgnore_of_mem {t : Table key} {a b : α} (hb : b ∈ t.rows) (h : key b = key a) :
    t.insertOrIgnore a = t :=
  dif_pos ⟨b, hb, h⟩

/-- `INSERT OR IGNORE` on a free key appends the row. -/
theorem insertOrIgnore_rows {t : Table key} {a : α} (h : ∀ b ∈ t.rows, key b ≠ key a) :
    (t.insertOrIgnore a).rows = t.rows ++ [a] := by
  rw [insertOrIgnore, dif_neg]
  rintro ⟨b, hb, hk⟩
  exact h b hb hk

/-- A lookup after `INSERT OR REPLACE`. -/
theorem find?_insertOrReplace (t : Table key) (a : α) (k : κ) :
    (t.insertOrReplace a).find? k = if key a = k then some a else t.find? k := by
  split
  · rename_i hk
    exact find?_eq_some.mpr ⟨mem_insertOrReplace.mpr (.inr rfl), hk⟩
  · rename_i hk
    refine Option.ext fun b => ?_
    rw [find?_eq_some, find?_eq_some, mem_insertOrReplace]
    constructor
    · rintro ⟨⟨hb, -⟩ | rfl, hbk⟩
      · exact ⟨hb, hbk⟩
      · exact absurd hbk hk
    · rintro ⟨hb, rfl⟩
      exact ⟨.inl ⟨hb, fun h => hk h.symm⟩, rfl⟩

/-- After rows are inserted or replaced, a lookup finds the row that was inserted under its key, if
those inserted under that key are all the same. -/
theorem find?_foldl_insertOrReplace {β : Type*} {f : β → α} {items : List β} (t : Table key)
    {b : β} (hb : b ∈ items) (h : ∀ c ∈ items, key (f c) = key (f b) → f c = f b) :
    (items.foldl (fun t c => t.insertOrReplace (f c)) t).find? (key (f b)) = some (f b) := by
  induction items using List.reverseRecOn with
  | nil => exact absurd hb List.not_mem_nil
  | append_singleton items c ih =>
    rw [List.foldl_append, List.foldl_cons, List.foldl_nil, find?_insertOrReplace]
    split
    · rename_i hk
      rw [h c (by simp) hk]
    · rename_i hk
      rcases List.mem_append.mp hb with hb | hb
      · exact ih hb fun d hd => h d (List.mem_append_left _ hd)
      · exact absurd (congrArg (fun d => key (f d)) (List.mem_singleton.mp hb).symm) hk

/-- Rows inserted or replaced under other keys leave a lookup alone. -/
theorem find?_foldl_insertOrReplace_of_ne {β : Type*} {f : β → α} {items : List β} (t : Table key)
    {k : κ} (h : ∀ c ∈ items, key (f c) ≠ k) :
    (items.foldl (fun t c => t.insertOrReplace (f c)) t).find? k = t.find? k := by
  induction items generalizing t with
  | nil => rfl
  | cons c items ih =>
    rw [List.foldl_cons, ih _ fun d hd => h d (List.mem_cons_of_mem _ hd), find?_insertOrReplace,
      if_neg (h c List.mem_cons_self)]

/-- After rows are inserted or replaced, a lookup finds the last one under its key. -/
theorem find?_foldl_insertOrReplace_last (rows : List α) (t : Table key) (k : κ) :
    (rows.foldl (fun t row => t.insertOrReplace row) t).find? k =
      ((rows.filter fun row => key row = k).getLast?).or (t.find? k) := by
  induction rows using List.reverseRecOn with
  | nil => rfl
  | append_singleton rows row ih =>
    rw [List.foldl_append, List.foldl_cons, List.foldl_nil, find?_insertOrReplace, ih,
      List.filter_append, List.filter_singleton]
    by_cases hk : key row = k
    · simp [hk]
    · simp [hk]

/-- `INSERT OR IGNORE` leaves what a lookup finds alone. -/
theorem find?_insertOrIgnore {t : Table key} {k : κ} {b : α} (h : t.find? k = some b) (a : α) :
    (t.insertOrIgnore a).find? k = some b := by
  obtain ⟨hb, hk⟩ := find?_eq_some.mp h
  refine find?_eq_some.mpr ⟨?_, hk⟩
  unfold insertOrIgnore
  split
  · exact hb
  · exact List.mem_append_left _ hb

/-- After rows are inserted or ignored, a lookup finds what it found before, else the first one
under its key. -/
theorem find?_foldl_insertOrIgnore_first (rows : List α) (t : Table key) (k : κ) :
    (rows.foldl insertOrIgnore t).find? k =
      (t.find? k).or (rows.find? fun row => key row = k) := by
  induction rows generalizing t with
  | nil => simp
  | cons row rows ih =>
    rw [List.foldl_cons, ih]
    cases hfind : t.find? k with
    | some b =>
      rw [find?_insertOrIgnore hfind, Option.some_or, Option.some_or]
    | none =>
      have hnone := find?_eq_none.mp hfind
      by_cases hk : key row = k
      · -- The row is the first under its key.
        have hfree : ∀ b ∈ t.rows, key b ≠ key row := fun b hb hsame => hnone b hb (hsame.trans hk)
        have hnew : (t.insertOrIgnore row).find? k = some row :=
          find?_eq_some.mpr ⟨by rw [insertOrIgnore_rows hfree]; simp, hk⟩
        rw [hnew, List.find?_cons_of_pos (by simpa using hk), Option.some_or, Option.none_or]
      · have hsame : (t.insertOrIgnore row).find? k = none := by
          refine find?_eq_none.mpr fun b hb hbk => ?_
          unfold insertOrIgnore at hb
          split at hb
          · exact hnone b hb hbk
          · rcases List.mem_append.mp hb with hb | hb
            · exact hnone b hb hbk
            · exact hk (List.mem_singleton.mp hb ▸ hbk)
        rw [hsame, List.find?_cons_of_neg (by simpa using hk)]

/-- A delete that does not name the row leaves its lookup alone. -/
theorem find?_deleteWhere {t : Table key} {k : κ} {b : α} (h : t.find? k = some b) {p : α → Bool}
    (hp : p b = false) : (t.deleteWhere p).find? k = some b := by
  obtain ⟨hb, hk⟩ := find?_eq_some.mp h
  exact find?_eq_some.mpr ⟨mem_deleteWhere.mpr ⟨hb, hp⟩, hk⟩

/-- A lookup after `DELETE ... WHERE key = k`. -/
theorem find?_deleteWhere_key (t : Table key) (k l : κ) :
    (t.deleteWhere fun a => key a = k).find? l = if k = l then none else t.find? l := by
  split
  · rename_i hkl
    refine find?_eq_none.mpr fun a ha hal => ?_
    have hak := (mem_deleteWhere.mp ha).2
    exact absurd (hal.trans hkl.symm) (of_decide_eq_false hak)
  · rename_i hkl
    refine Option.ext fun a => ?_
    rw [find?_eq_some, find?_eq_some, mem_deleteWhere]
    constructor
    · exact fun ⟨⟨ha, _⟩, hal⟩ => ⟨ha, hal⟩
    · rintro ⟨ha, rfl⟩
      exact ⟨⟨ha, decide_eq_false fun h => hkl h.symm⟩, rfl⟩

/-- A lookup after `UPDATE ... WHERE p`. -/
theorem find?_updateWhere (t : Table key) (p : α → Bool) (f : Assignment key) (k : κ) :
    (t.updateWhere p f).find? k = (t.find? k).map (f.on p) := by
  show (t.rows.map (f.on p)).find? _ = _
  rw [List.find?_map]
  have hkey : ((fun a => decide (key a = k)) ∘ f.on p) = fun a => decide (key a = k) := by
    funext a
    rw [Function.comp_apply, f.key_on]
  rw [hkey]
  rfl

/-- `INSERT OR REPLACE` of a row that is new under a condition adds it to the rows under it. -/
theorem filter_insertOrReplace (t : Table key) {a : α} {p : α → Bool}
    (h : ∀ b ∈ t.rows, p b = true → key b ≠ key a) :
    (t.insertOrReplace a).rows.filter p = t.rows.filter p ++ if p a then [a] else [] := by
  show ((t.rows.filter _) ++ [a]).filter p = _
  have hold : (t.rows.filter fun b => key b ≠ key a).filter p = t.rows.filter p := by
    rw [List.filter_filter]
    refine List.filter_congr fun b hb => ?_
    cases hpb : p b with
    | false => rfl
    | true => simpa using h b hb hpb
  rw [List.filter_append, hold, List.filter_singleton]
  cases p a <;> rfl

/-- `INSERT OR IGNORE` of a row that a condition excludes leaves the rows under it alone. -/
theorem filter_insertOrIgnore (t : Table key) {a : α} {p : α → Bool} (h : p a = false) :
    (t.insertOrIgnore a).rows.filter p = t.rows.filter p := by
  unfold insertOrIgnore
  split
  · rfl
  · simp [h]

end Table

/-- An assignment that leaves the row identifier alone too. -/
structure RowAssignment (key : α → κ) (rowid : α → ℕ) extends Assignment key where
  /-- The update leaves the row identifier alone. -/
  rowid_set : ∀ a, rowid (set a) = rowid a

/-- Restricting an assignment to a condition still leaves the row identifier alone. -/
theorem RowAssignment.rowid_on {key : α → κ} {rowid : α → ℕ} (f : RowAssignment key rowid)
    (p : α → Bool) (a : α) : rowid (f.on p a) = rowid a := by
  unfold Assignment.on
  split
  · exact f.rowid_set a
  · rfl

/-- A row under construction: all its columns but the row identifier it will get. -/
structure NewRow (rowid : α → ℕ) where
  /-- The row under a given identifier. -/
  withRowid : ℕ → α
  /-- The row carries that identifier. -/
  rowid_withRowid : ∀ n, rowid (withRowid n) = n

/-- A table whose rows carry a hidden row identifier, ascending in row order. -/
structure RowTable (key : α → κ) (rowid : α → ℕ) extends Table key where
  /-- Row identifiers ascend with the row order. -/
  ascending : rows.Pairwise fun a b => rowid a < rowid b

namespace RowTable

variable {key : α → κ} {rowid : α → ℕ}

/-- The table without rows. -/
def empty (key : α → κ) (rowid : α → ℕ) : RowTable key rowid :=
  ⟨Table.empty key, List.Pairwise.nil⟩

/-- Tables with the same rows are the same table. -/
@[ext] theorem ext {t t' : RowTable key rowid} (h : t.rows = t'.rows) : t = t' := by
  obtain ⟨⟨rows, _⟩, _⟩ := t
  obtain ⟨⟨rows', _⟩, _⟩ := t'
  cases h
  rfl

/-- Row identifiers are distinct. -/
theorem keyed_rowid (t : RowTable key rowid) : Keyed rowid t.rows :=
  List.pairwise_map.mpr (t.ascending.imp fun h => Nat.ne_of_lt h)

/-- The identifier the next row gets: one above the largest in use. -/
def nextRowid (t : RowTable key rowid) : ℕ :=
  (t.rows.map rowid).foldr max 0 + 1

/-- Every identifier in use is below the next one. -/
theorem rowid_lt_nextRowid (t : RowTable key rowid) {a : α} (ha : a ∈ t.rows) :
    rowid a < t.nextRowid := by
  have hle : ∀ l : List ℕ, ∀ n ∈ l, n ≤ l.foldr max 0 := by
    intro l
    induction l with
    | nil => simp
    | cons m l ih =>
      intro n hn
      rcases List.mem_cons.mp hn with rfl | hn
      · exact Nat.le_max_left _ _
      · exact Nat.le_trans (ih n hn) (Nat.le_max_right _ _)
  exact Nat.lt_succ_of_le (hle _ _ (List.mem_map_of_mem ha))

/-- `DELETE ... WHERE p`. -/
def deleteWhere (t : RowTable key rowid) (p : α → Bool) : RowTable key rowid :=
  ⟨t.toTable.deleteWhere p, t.ascending.filter _⟩

/-- `UPDATE ... SET f WHERE p`. -/
def updateWhere (t : RowTable key rowid) (p : α → Bool) (f : RowAssignment key rowid) :
    RowTable key rowid :=
  ⟨t.toTable.updateWhere p f.toAssignment, by
    refine List.pairwise_map.mpr (t.ascending.imp fun {a b} hab => ?_)
    rw [f.rowid_on, f.rowid_on]
    exact hab⟩

/-- The rows after a delete are the rows the condition does not name. -/
@[simp] theorem deleteWhere_rows (t : RowTable key rowid) (p : α → Bool) :
    (t.deleteWhere p).rows = t.rows.filter fun a => !p a := rfl

/-- The rows after an update. -/
@[simp] theorem updateWhere_rows (t : RowTable key rowid) (p : α → Bool)
    (f : RowAssignment key rowid) : (t.updateWhere p f).rows = t.rows.map (f.on p) := rfl

variable [DecidableEq κ]

/-- `INSERT ... ON CONFLICT DO NOTHING`: unless its key is taken, the row is added under a fresh
identifier. -/
def insertOrIgnore (t : RowTable key rowid) (a : NewRow rowid) : RowTable key rowid :=
  if h : ∃ b ∈ t.rows, key b = key (a.withRowid t.nextRowid) then t
  else ⟨⟨t.rows ++ [a.withRowid t.nextRowid], t.keyed.append fun b hb hk => h ⟨b, hb, hk⟩⟩, by
    refine List.pairwise_append.mpr ⟨t.ascending, List.pairwise_singleton _ _, ?_⟩
    intro b hb c hc
    rw [List.mem_singleton.mp hc, a.rowid_withRowid]
    exact t.rowid_lt_nextRowid hb⟩

/-- An insert on a taken key changes nothing. -/
theorem insertOrIgnore_of_mem {t : RowTable key rowid} {a : NewRow rowid} {b : α}
    (hb : b ∈ t.rows) (h : key b = key (a.withRowid t.nextRowid)) : t.insertOrIgnore a = t :=
  dif_pos ⟨b, hb, h⟩

/-- An insert on a free key appends the row under the fresh identifier. -/
theorem insertOrIgnore_rows {t : RowTable key rowid} {a : NewRow rowid}
    (h : ∀ b ∈ t.rows, key b ≠ key (a.withRowid t.nextRowid)) :
    (t.insertOrIgnore a).rows = t.rows ++ [a.withRowid t.nextRowid] := by
  rw [insertOrIgnore, dif_neg]
  rintro ⟨b, hb, hk⟩
  exact h b hb hk

end RowTable

/-- An `AUTOINCREMENT` table: its counter is at least every identifier it gave out. -/
structure AutoTable (key : α → κ) (rowid : α → ℕ) extends RowTable key rowid where
  /-- The largest identifier given out so far, to a row that may be gone. -/
  sequence : ℕ
  /-- No row has a larger identifier. -/
  rowid_le_sequence : ∀ a ∈ rows, rowid a ≤ sequence

namespace AutoTable

variable {key : α → κ} {rowid : α → ℕ}

/-- The table without rows. -/
def empty (key : α → κ) (rowid : α → ℕ) : AutoTable key rowid :=
  ⟨RowTable.empty key rowid, 0, fun _ ha => absurd ha List.not_mem_nil⟩

/-- `DELETE ... WHERE p`. -/
def deleteWhere (t : AutoTable key rowid) (p : α → Bool) : AutoTable key rowid :=
  ⟨t.toRowTable.deleteWhere p, t.sequence,
    fun a ha => t.rowid_le_sequence a (List.mem_filter.mp ha).1⟩

/-- `UPDATE ... SET f WHERE p`. -/
def updateWhere (t : AutoTable key rowid) (p : α → Bool) (f : RowAssignment key rowid) :
    AutoTable key rowid :=
  ⟨t.toRowTable.updateWhere p f, t.sequence, by
    intro a ha
    obtain ⟨b, hb, rfl⟩ := List.mem_map.mp ha
    rw [f.rowid_on]
    exact t.rowid_le_sequence b hb⟩

/-- The rows after a delete. -/
@[simp] theorem deleteWhere_rows (t : AutoTable key rowid) (p : α → Bool) :
    (t.deleteWhere p).rows = t.rows.filter fun a => !p a := rfl

/-- The rows after an update. -/
@[simp] theorem updateWhere_rows (t : AutoTable key rowid) (p : α → Bool)
    (f : RowAssignment key rowid) : (t.updateWhere p f).rows = t.rows.map (f.on p) := rfl

variable [DecidableEq κ]

/-- `INSERT`: the row is added under the next identifier. The caller has looked its key up and
found no row. -/
def insert (t : AutoTable key rowid) (a : NewRow rowid) : AutoTable key rowid :=
  if h : ∃ b ∈ t.rows, key b = key (a.withRowid (t.sequence + 1)) then t
  else
    { rows := t.rows ++ [a.withRowid (t.sequence + 1)]
      keyed := t.keyed.append fun b hb hk => h ⟨b, hb, hk⟩
      sequence := t.sequence + 1
      ascending := by
        refine List.pairwise_append.mpr ⟨t.ascending, List.pairwise_singleton _ _, ?_⟩
        intro b hb c hc
        rw [List.mem_singleton.mp hc, a.rowid_withRowid]
        exact Nat.lt_succ_of_le (t.rowid_le_sequence b hb)
      rowid_le_sequence := by
        intro b hb
        rcases List.mem_append.mp hb with hb | hb
        · exact Nat.le_succ_of_le (t.rowid_le_sequence b hb)
        · rw [List.mem_singleton.mp hb]
          exact Nat.le_of_eq (a.rowid_withRowid _) }

/-- An insert on a free key appends the row under the next identifier. -/
theorem insert_rows {t : AutoTable key rowid} {a : NewRow rowid}
    (h : ∀ b ∈ t.rows, key b ≠ key (a.withRowid (t.sequence + 1))) :
    (t.insert a).rows = t.rows ++ [a.withRowid (t.sequence + 1)] := by
  rw [insert, dif_neg]
  rintro ⟨b, hb, hk⟩
  exact h b hb hk

end AutoTable

end Tellodb.Relational
