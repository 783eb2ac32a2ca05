import Tellodb.Relational.Table

/-!
# Tables with two unique columns

A `UniqueTable` is a keyed table with a second column under a `UNIQUE` constraint. An `INSERT` fails
where either constraint would be broken, and `INSERT OR REPLACE` deletes every row that stands in
the way of the new one, so it may delete two. -/

namespace Tellodb.Relational

variable {α κ ι : Type*}

/-- A lookup in a table that has one row more. -/
theorem Table.find?_of_rows_append [DecidableEq κ] {key : α → κ} {t t' : Table key} {a : α}
    (h : t'.rows = t.rows ++ [a]) (k : κ) :
    t'.find? k = if key a = k then some a else t.find? k := by
  by_cases hk : key a = k
  · rw [if_pos hk]
    exact Table.find?_eq_some.mpr ⟨by rw [h]; simp, hk⟩
  · rw [if_neg hk]
    unfold Table.find?
    rw [h, List.find?_append, List.find?_singleton, if_neg (by simpa using hk), Option.or_none]

/-- After `INSERT OR IGNORE` there is a row under the key. -/
theorem Table.exists_find?_insertOrIgnore [DecidableEq κ] {key : α → κ} (t : Table key) (a : α) :
    ∃ b, (t.insertOrIgnore a).find? (key a) = some b := by
  by_cases htaken : ∃ b ∈ t.rows, key b = key a
  · obtain ⟨b, hb, hk⟩ := htaken
    exact ⟨b, Table.find?_insertOrIgnore (Table.find?_eq_some.mpr ⟨hb, hk⟩) a⟩
  · have hfree : ∀ b ∈ t.rows, key b ≠ key a := fun b hb hk => htaken ⟨b, hb, hk⟩
    refine ⟨a, ?_⟩
    rw [Table.find?_of_rows_append (Table.insertOrIgnore_rows hfree), if_pos rfl]

/-- A keyed table with a second unique column. -/
structure UniqueTable (key : α → κ) (other : α → ι) extends Table key where
  /-- The unique constraint on the second column. -/
  unique : Keyed other rows

/-- An assignment that leaves the second unique column alone too. -/
structure UniqueAssignment (key : α → κ) (other : α → ι) extends Assignment key where
  /-- The update leaves the second column alone. -/
  other_set : ∀ a, other (set a) = other a

/-- Restricting an assignment to a condition still leaves the second column alone. -/
theorem UniqueAssignment.other_on {key : α → κ} {other : α → ι} (f : UniqueAssignment key other)
    (p : α → Bool) (a : α) : other (f.on p a) = other a := by
  unfold Assignment.on
  split
  · exact f.other_set a
  · rfl

namespace UniqueTable

variable {key : α → κ} {other : α → ι}

/-- The table without rows. -/
def empty (key : α → κ) (other : α → ι) : UniqueTable key other :=
  ⟨Table.empty key, List.nodup_nil⟩

/-- `UPDATE ... SET f WHERE p`. -/
def updateWhere (t : UniqueTable key other) (p : α → Bool) (f : UniqueAssignment key other) :
    UniqueTable key other :=
  ⟨t.toTable.updateWhere p f.toAssignment, t.unique.map (f.other_on p)⟩

/-- An update keeps the rows that it does not match, and assigns to the others. -/
theorem mem_updateWhere {t : UniqueTable key other} {p : α → Bool}
    {f : UniqueAssignment key other} {a : α} :
    a ∈ (t.updateWhere p f).rows ↔ ∃ b ∈ t.rows, f.on p b = a :=
  List.mem_map

variable [DecidableEq ι]

/-- The row with a value of the second column, if there is one. -/
def findOther? (t : UniqueTable key other) (i : ι) : Option α :=
  t.rows.find? fun a => other a = i

/-- A lookup in the second column finds the row that has the value. -/
theorem findOther?_eq_some {t : UniqueTable key other} {i : ι} {a : α} :
    t.findOther? i = some a ↔ a ∈ t.rows ∧ other a = i := by
  refine ⟨fun h => ?_, fun ⟨ha, hi⟩ => ?_⟩
  · have hi := List.find?_some h
    exact ⟨List.mem_of_find?_eq_some h, of_decide_eq_true hi⟩
  · -- The column is unique, so the first row found under the value is `a`.
    cases hfound : t.findOther? i with
    | none => exact absurd (decide_eq_true hi) (List.find?_eq_none.mp hfound a ha)
    | some b =>
      have hb : other b = i := by simpa using List.find?_some hfound
      rw [t.unique.eq_of_mem (List.mem_of_find?_eq_some hfound) ha (hb.trans hi.symm)]

variable [DecidableEq κ]

/-- A row stands in the way of a new one. -/
def conflicts (key : α → κ) (other : α → ι) (a b : α) : Bool :=
  key b = key a || other b = other a

/-- Rows do not conflict if they differ in both columns. -/
theorem conflicts_eq_false {a b : α} :
    conflicts key other a b = false ↔ key b ≠ key a ∧ other b ≠ other a := by
  unfold conflicts
  rw [Bool.or_eq_false_iff, decide_eq_false_iff_not, decide_eq_false_iff_not]

/-- `INSERT`: the row is added, or a constraint is broken. -/
def insert (t : UniqueTable key other) (a : α) : Option (UniqueTable key other) :=
  if h : ∀ b ∈ t.rows, conflicts key other a b = false then
    some ⟨⟨t.rows ++ [a], t.keyed.append fun b hb => (conflicts_eq_false.mp (h b hb)).1⟩,
      t.unique.append fun b hb => (conflicts_eq_false.mp (h b hb)).2⟩
  else none

/-- `INSERT OR REPLACE`: the rows that stand in the way are deleted first. -/
def insertOrReplace (t : UniqueTable key other) (a : α) : UniqueTable key other :=
  ⟨⟨(t.rows.filter fun b => !conflicts key other a b) ++ [a],
      (t.keyed.filter _).append fun b hb =>
        (conflicts_eq_false.mp (by simpa using (List.mem_filter.mp hb).2)).1⟩,
    (t.unique.filter _).append fun b hb =>
      (conflicts_eq_false.mp (by simpa using (List.mem_filter.mp hb).2)).2⟩

/-- What an `INSERT` that succeeds leaves. -/
theorem insert_eq_some {t t' : UniqueTable key other} {a : α} (h : t.insert a = some t') :
    (∀ b ∈ t.rows, key b ≠ key a ∧ other b ≠ other a) ∧ t'.rows = t.rows ++ [a] := by
  unfold insert at h
  by_cases hfree : ∀ b ∈ t.rows, conflicts key other a b = false
  · rw [dif_pos hfree, Option.some.injEq] at h
    exact ⟨fun b hb => conflicts_eq_false.mp (hfree b hb), h ▸ rfl⟩
  · rw [dif_neg hfree] at h
    exact absurd h (by simp)

/-- A row after an `INSERT` that succeeds is an old one or the new one. -/
theorem mem_of_insert {t t' : UniqueTable key other} {a b : α} (h : t.insert a = some t') :
    b ∈ t'.rows ↔ b ∈ t.rows ∨ b = a := by
  rw [(insert_eq_some h).2, List.mem_append, List.mem_singleton]

/-- A lookup after an `INSERT` that succeeds. -/
theorem find?_of_insert {t t' : UniqueTable key other} {a : α} (h : t.insert a = some t')
    (k : κ) : t'.toTable.find? k = if key a = k then some a else t.toTable.find? k :=
  Table.find?_of_rows_append (insert_eq_some h).2 k

/-- A lookup in the second column after an `INSERT` that succeeds. -/
theorem findOther?_of_insert {t t' : UniqueTable key other} {a : α} (h : t.insert a = some t')
    (i : ι) : t'.findOther? i = if other a = i then some a else t.findOther? i :=
  @Table.find?_of_rows_append _ _ _ other ⟨t.rows, t.unique⟩ ⟨t'.rows, t'.unique⟩ a
    (insert_eq_some h).2 i

/-- A row replaces all that it conflicts with. -/
theorem mem_insertOrReplace {t : UniqueTable key other} {a b : α} :
    b ∈ (t.insertOrReplace a).rows ↔
      (b ∈ t.rows ∧ key b ≠ key a ∧ other b ≠ other a) ∨ b = a := by
  unfold insertOrReplace
  rw [List.mem_append, List.mem_filter, List.mem_singleton, Bool.not_eq_true',
    conflicts_eq_false]

end UniqueTable

end Tellodb.Relational
