import Tellodb.Relational.Run
import Mathlib.Logic.Function.Basic
import Mathlib.Data.Rat.Defs

/-!
# Databases of any shape

A `Database` is its tables by name, each with the columns that it happens to have, its indexes and
its version number. A row gives a value to every column name; those of columns that the table does
not have mean nothing. `execute` runs the statements that define a schema and fails where SQLite
fails: at an index on a table or a column that is not there, and at a column that is there twice.

A schema is a list of statements that create tables and indexes if they do not exist. Where each
index comes after its table (`WellOrdered`), such a list succeeds over a database if and only if
every index that the database does not have finds its columns (`executeBatch_of_finds`), and what
it leaves is `Database.withSchema`, which running it again does not change. -/

namespace Tellodb.Relational

/-- The value of a cell. Integers are only copied and compared. -/
inductive Value where
  | null
  | integer (n : ℤ)
  | real (q : ℚ)
  | text (s : String)
  | blob (bytes : List UInt8)
  deriving DecidableEq

/-- A row, by the names of its columns. -/
abbrev Row := String → Value

/-- A table with the columns that it has. -/
structure DataTable where
  columns : List String
  rows : List Row

/-- A database. -/
@[ext] structure Database where
  /-- `PRAGMA user_version` -/
  userVersion : ℤ
  tables : String → Option DataTable
  /-- The indexes, each with its table. -/
  indexes : List (String × String)

/-- A statement that defines a part of a schema. -/
inductive Statement where
  /-- `CREATE TABLE IF NOT EXISTS` -/
  | createTable (name : String) (columns : List String)
  /-- `CREATE INDEX IF NOT EXISTS name ON table(columns)` -/
  | createIndex (name table : String) (columns : List String)
  /-- `ALTER TABLE table ADD COLUMN column`, with the default of the column. -/
  | addColumn (table column : String) (default : Value)
  /-- `DROP TABLE IF EXISTS` -/
  | dropTable (name : String)
  deriving DecidableEq

namespace Database

variable (db : Database)

/-- The database with one table replaced. -/
def setTable (name : String) (t : Option DataTable) : Database :=
  { db with tables := Function.update db.tables name t }

/-- The database with other indexes. -/
def withIndexes (indexes : List (String × String)) : Database :=
  { db with indexes := indexes }

/-- Whether there is an index of a name. -/
def hasIndex (name : String) : Bool :=
  db.indexes.any fun index => index.1 = name

/-- Whether a table has a column. -/
def hasColumn (table column : String) : Bool :=
  (db.tables table).any fun t => column ∈ t.columns

/-- One statement. -/
def execute : Statement → Except String Database
  | .createTable name columns =>
    match db.tables name with
    | some _ => .ok db
    | none => .ok (db.setTable name (some ⟨columns, []⟩))
  | .createIndex name table columns =>
    match db.tables table with
    | none => .error ("no such table: " ++ table)
    | some t =>
      if db.hasIndex name then .ok db
      else match columns.find? fun column => column ∉ t.columns with
        | some column => .error ("no such column: " ++ column)
        | none => .ok { db with indexes := db.indexes ++ [(name, table)] }
  | .addColumn table column default =>
    match db.tables table with
    | none => .error ("no such table: " ++ table)
    | some t =>
      if column ∈ t.columns then .error ("duplicate column name: " ++ column)
      else .ok (db.setTable table
        (some ⟨t.columns ++ [column], t.rows.map fun r => Function.update r column default⟩))
  | .dropTable name =>
    .ok { db.setTable name none with
      indexes := db.indexes.filter fun index => index.2 ≠ name }

/-- Statements one after the other, up to the first that fails. -/
def executeBatch (db : Database) (statements : List Statement) : Except String Database :=
  statements.foldlM execute db

/-- `UPDATE table SET ...`: a function of every row. -/
def updateRows (table : String) (f : Row → Row) : Database :=
  match db.tables table with
  | some t => db.setTable table (some { t with rows := t.rows.map f })
  | none => db

/-- Adds the columns that a table does not have, each with its default. -/
def addMissing (table : String) (columns : List (String × Value)) (db : Database) :
    Except String Database :=
  columns.foldlM (fun db column =>
    if db.hasColumn table column.1 then .ok db
    else db.execute (.addColumn table column.1 column.2)) db

end Database

/-! ## Schemas -/

/-- The columns of the first table of a name. -/
def columnsOf (statements : List Statement) (name : String) : Option (List String) :=
  statements.findSome? fun
    | .createTable name' columns => if name' = name then some columns else none
    | _ => none

/-- The indexes of a schema, each with its table. -/
def indexesOf (statements : List Statement) : List (String × String) :=
  statements.filterMap fun
    | .createIndex name table _ => some (name, table)
    | _ => none

/-- Tables and indexes are created only, each index after its table and on its columns. -/
def WellOrdered (created : List Statement) : List Statement → Bool
  | [] => true
  | .createTable name columns :: rest =>
    (columnsOf created name).isNone && WellOrdered (created ++ [.createTable name columns]) rest
  | .createIndex name table columns :: rest =>
    ((columnsOf created table).any fun declared => columns.all fun column => column ∈ declared) &&
      !(indexesOf created).any (fun index => index.1 = name) &&
      WellOrdered (created ++ [.createIndex name table columns]) rest
  | _ :: _ => false

namespace Database

variable (db : Database)

/-- A database with what a schema adds to it. -/
def withSchema (statements : List Statement) : Database where
  userVersion := db.userVersion
  tables name := (db.tables name).or ((columnsOf statements name).map fun columns => ⟨columns, []⟩)
  indexes := db.indexes ++ (indexesOf statements).filter fun index => !db.hasIndex index.1

/-- The indexes of a schema that a database does not have find their columns in its tables. -/
def Finds (statements : List Statement) : Prop :=
  ∀ name table columns, Statement.createIndex name table columns ∈ statements →
    db.hasIndex name = false → ∀ t, db.tables table = some t → ∀ column ∈ columns,
      column ∈ t.columns

/-! ## Running a schema -/

variable {db}

/-- A batch without statements changes nothing. -/
@[simp] theorem executeBatch_nil : executeBatch db [] = .ok db := rfl

/-- The statements of a batch are executed in order. -/
theorem executeBatch_cons (statement : Statement) (rest : List Statement) :
    executeBatch db (statement :: rest) = db.execute statement >>= fun db =>
      executeBatch db rest := rfl

end Database

/-- The columns in a schema of two parts. -/
theorem columnsOf_append (first second : List Statement) (name : String) :
    columnsOf (first ++ second) name = (columnsOf first name).or (columnsOf second name) :=
  List.findSome?_append

/-- The indexes of a schema of two parts. -/
theorem indexesOf_append (first second : List Statement) :
    indexesOf (first ++ second) = indexesOf first ++ indexesOf second :=
  List.filterMap_append

namespace Database

variable {db : Database}

/-- Nothing is added by no statements. -/
theorem withSchema_nil : db.withSchema [] = db := by
  ext1
  · rfl
  · funext name
    exact Option.or_none
  · exact List.append_nil _

/-- A table of a schema is created if the database has none of the name. -/
theorem execute_createTable {created : List Statement} {name : String} (columns : List String)
    (hnew : columnsOf created name = none) :
    (db.withSchema created).execute (.createTable name columns) =
      .ok (db.withSchema (created ++ [.createTable name columns])) := by
  have hnone : columnsOf [.createTable name columns] name = some columns := by
    simp [columnsOf]
  have hother : ∀ other, other ≠ name →
      columnsOf (created ++ [.createTable name columns]) other = columnsOf created other := by
    intro other hother
    rw [columnsOf_append]
    simp [columnsOf, Ne.symm hother]
  have hindexes : indexesOf (created ++ [.createTable name columns]) = indexesOf created := by
    rw [indexesOf_append]
    exact List.append_nil _
  -- The table is created with no rows, unless there is one of that name.
  have hexecute : ∀ t, (db.withSchema created).tables name = t →
      (db.withSchema created).execute (.createTable name columns) =
        .ok ((db.withSchema created).setTable name (t.or (some ⟨columns, []⟩))) := by
    intro t ht
    unfold execute
    simp only [ht]
    cases t with
    | none => rfl
    | some t =>
      refine congrArg Except.ok ?_
      unfold setTable
      rw [Option.some_or, ← ht, Function.update_eq_self]
  have htable : (db.withSchema created).tables name = db.tables name := by
    show (db.tables name).or ((columnsOf created name).map _) = _
    rw [hnew]
    exact Option.or_none
  rw [hexecute _ htable]
  -- The new table is the only one that differs.
  refine congrArg Except.ok ?_
  ext1
  · rfl
  · funext other
    by_cases h : other = name
    · subst h
      show Function.update (db.withSchema created).tables other _ other =
        (db.tables other).or ((columnsOf (created ++ _) other).map _)
      rw [Function.update_self, columnsOf_append, hnew, hnone]
      rfl
    · show Function.update (db.withSchema created).tables name _ other =
        (db.tables other).or ((columnsOf (created ++ _) other).map _)
      rw [Function.update_of_ne h, hother other h]
      rfl
  · show db.indexes ++ _ = db.indexes ++ _
    rw [hindexes]

/-- An index of a schema is created if the database has none of the name. -/
theorem execute_createIndex {created : List Statement} {name table : String}
    {columns declared : List String} (hdeclared : columnsOf created table = some declared)
    (hcolumns : ∀ column ∈ columns, column ∈ declared)
    (hnew : (indexesOf created).any (fun index => index.1 = name) = false)
    (hfinds : db.hasIndex name = false → ∀ t, db.tables table = some t → ∀ column ∈ columns,
      column ∈ t.columns) :
    (db.withSchema created).execute (.createIndex name table columns) =
      .ok (db.withSchema (created ++ [.createIndex name table columns])) := by
  have hcolumnsOf : ∀ other, columnsOf (created ++ [.createIndex name table columns]) other =
      columnsOf created other := by
    intro other
    rw [columnsOf_append]
    exact Option.or_none
  have hindexes : indexesOf (created ++ [.createIndex name table columns]) =
      indexesOf created ++ [(name, table)] := indexesOf_append _ _
  -- The table is there, with the columns if the index is to be created.
  obtain ⟨t, ht, hfound⟩ : ∃ t, (db.withSchema created).tables table = some t ∧
      (db.hasIndex name = false → ∀ column ∈ columns, column ∈ t.columns) := by
    show ∃ t, (db.tables table).or ((columnsOf created table).map _) = some t ∧ _
    rw [hdeclared]
    cases h : db.tables table with
    | some t => exact ⟨t, rfl, fun hindex => hfinds hindex t h⟩
    | none => exact ⟨_, rfl, fun _ => hcolumns⟩
  have hhas : (db.withSchema created).hasIndex name = db.hasIndex name := by
    show ((db.indexes ++ _).any fun index => _) = _
    have hadded : ((indexesOf created).filter fun index => !db.hasIndex index.1).any
        (fun index => index.1 = name) = false := by
      rw [List.any_eq_false] at hnew ⊢
      exact fun index hindex => hnew index (List.mem_filter.mp hindex).1
    rw [List.any_append, hadded, Bool.or_false]
    rfl
  unfold execute
  simp only [ht, hhas]
  -- The index exists and nothing is created.
  cases hindex : db.hasIndex name with
  | true =>
    refine congrArg Except.ok ?_
    ext1
    · rfl
    · funext other
      show (db.tables other).or _ = (db.tables other).or _
      rw [hcolumnsOf]
    · show db.indexes ++ _ = db.indexes ++ _
      rw [hindexes, List.filter_append, List.filter_cons_of_neg (by simp [hindex])]
      simp
  | false =>
    -- All its columns are found, so it is added at the end.
    have hnone : (columns.find? fun column => column ∉ t.columns) = none := by
      rw [List.find?_eq_none]
      intro column hcolumn
      simpa using hfound hindex column hcolumn
    simp only [hnone]
    refine congrArg Except.ok ?_
    ext1
    · rfl
    · funext other
      show (db.tables other).or _ = (db.tables other).or _
      rw [hcolumnsOf]
    · show db.indexes ++ _ ++ _ = db.indexes ++ _
      rw [hindexes, List.filter_append, List.filter_cons_of_pos (by simp [hindex]),
        List.append_assoc]
      rfl

/-- A schema adds its tables and indexes to a database that has what its indexes need. -/
theorem executeBatch_withSchema {created rest : List Statement} (hrest : WellOrdered created rest)
    (hfinds : db.Finds rest) :
    executeBatch (db.withSchema created) rest = .ok (db.withSchema (created ++ rest)) := by
  induction rest generalizing created with
  | nil => rw [executeBatch_nil, List.append_nil]
  | cons statement rest ih =>
    have hfinds' : db.Finds rest := fun name table columns hmem =>
      hfinds name table columns (List.mem_cons_of_mem _ hmem)
    have happend : created ++ statement :: rest = (created ++ [statement]) ++ rest := by simp
    rw [executeBatch_cons, happend]
    -- Only tables and indexes occur in a schema.
    cases statement with
    | createTable name columns =>
      rw [WellOrdered, Bool.and_eq_true] at hrest
      rw [execute_createTable columns (Option.isNone_iff_eq_none.mp hrest.1)]
      exact ih hrest.2 hfinds'
    | createIndex name table columns =>
      rw [WellOrdered, Bool.and_eq_true, Bool.and_eq_true] at hrest
      obtain ⟨⟨hdeclared, hnew⟩, hrest⟩ := hrest
      cases hcase : columnsOf created table with
      | none => simp [hcase] at hdeclared
      | some declared =>
        rw [hcase, Option.any_some, List.all_eq_true] at hdeclared
        rw [execute_createIndex hcase (fun column hcolumn => of_decide_eq_true
          (hdeclared column hcolumn)) (by simpa using hnew)
          (hfinds name table columns List.mem_cons_self)]
        exact ih hrest hfinds'
    | addColumn _ _ _ => exact absurd hrest (by simp [WellOrdered])
    | dropTable _ => exact absurd hrest (by simp [WellOrdered])

/-! ## Statements that change nothing -/

/-- What a statement is to bring about is there. -/
def Has (db : Database) : Statement → Prop
  | .createTable name _ => (db.tables name).isSome
  | .createIndex name table _ => (db.tables table).isSome ∧ db.hasIndex name = true
  | .addColumn _ _ _ => False
  | .dropTable name => db.tables name = none ∧ ∀ index ∈ db.indexes, index.2 ≠ name

/-- A statement changes nothing if what it is to bring about is there. -/
theorem execute_of_has {statement : Statement} (h : db.Has statement) :
    db.execute statement = .ok db := by
  cases statement with
  | createTable name columns =>
    obtain ⟨t, ht⟩ := Option.isSome_iff_exists.mp h
    simp only [execute, ht]
  | createIndex name table columns =>
    obtain ⟨t, ht⟩ := Option.isSome_iff_exists.mp h.1
    simp only [execute, ht, h.2, if_true]
  | addColumn table column default => exact absurd h id
  | dropTable name =>
    refine congrArg Except.ok ?_
    ext1
    · rfl
    · show Function.update db.tables name none = db.tables
      rw [← h.1, Function.update_eq_self]
    · show db.indexes.filter _ = db.indexes
      rw [List.filter_eq_self]
      intro index hindex
      exact decide_eq_true (h.2 index hindex)

/-- Statements change nothing if what each is to bring about is there. -/
theorem executeBatch_of_has {statements : List Statement}
    (h : ∀ statement ∈ statements, db.Has statement) : executeBatch db statements = .ok db := by
  induction statements with
  | nil => rfl
  | cons statement rest ih =>
    rw [executeBatch_cons, execute_of_has (h statement List.mem_cons_self)]
    exact ih fun other hother => h other (List.mem_cons_of_mem _ hother)

/-! ## Single tables -/

variable (db) in

/-- The indexes are not tables. -/
@[simp] theorem withIndexes_tables (indexes : List (String × String)) :
    (db.withIndexes indexes).tables = db.tables := rfl

variable (db) in

/-- A table can be set before or after the indexes. -/
@[simp] theorem withIndexes_setTable (indexes : List (String × String)) (name : String)
    (t : Option DataTable) :
    (db.withIndexes indexes).setTable name t = (db.setTable name t).withIndexes indexes := rfl

variable (db) in

/-- The indexes do not change the version. -/
@[simp] theorem withIndexes_userVersion (indexes : List (String × String)) :
    (db.withIndexes indexes).userVersion = db.userVersion := rfl

variable (db) in

/-- A table does not change the version, -/
@[simp] theorem setTable_userVersion (name : String) (t : Option DataTable) :
    (db.setTable name t).userVersion = db.userVersion := rfl

variable (db) in

/-- nor the indexes. -/
@[simp] theorem setTable_indexes (name : String) (t : Option DataTable) :
    (db.setTable name t).indexes = db.indexes := rfl

variable (db) in

/-- A table may be set to what it is. -/
@[simp] theorem setTable_self (name : String) : db.setTable name (db.tables name) = db := by
  unfold setTable
  rw [Function.update_eq_self]

/-- Setting a table changes no other. -/
@[simp] theorem setTable_tables (name : String) (t : Option DataTable) (other : String) :
    (db.setTable name t).tables other = if other = name then t else db.tables other :=
  Function.update_apply _ _ _ _

variable (db) in

/-- A table that is set is there. -/
theorem setTable_same (name : String) (t : Option DataTable) :
    (db.setTable name t).tables name = t := by
  rw [setTable_tables, if_pos rfl]

/-- The later of two settings counts. -/
@[simp] theorem setTable_setTable (name : String) (t t' : Option DataTable) :
    (db.setTable name t).setTable name t' = db.setTable name t' := by
  unfold setTable
  rw [Function.update_idem]

/-- An update of the rows of a table. -/
theorem updateRows_eq {table : String} {t : DataTable} (ht : db.tables table = some t)
    (f : Row → Row) :
    db.updateRows table f = db.setTable table (some { t with rows := t.rows.map f }) := by
  unfold updateRows
  rw [ht]

/-- An update that leaves every row as it is. -/
theorem updateRows_of_fixed {table : String} {f : Row → Row}
    (h : ∀ t, db.tables table = some t → ∀ r ∈ t.rows, f r = r) : db.updateRows table f = db := by
  unfold updateRows
  cases ht : db.tables table with
  | none => rfl
  | some t =>
    have hrows : t.rows.map f = t.rows :=
      (List.map_congr_left fun r hr => h t ht r hr).trans (List.map_id _)
    show db.setTable table (some { t with rows := t.rows.map f }) = db
    rw [hrows, ← ht, setTable_self]

end Database

/-! ## Missing columns -/

namespace DataTable

variable {t : DataTable}

/-- A table with one column more, if it does not have it. -/
def withColumn (t : DataTable) (column : String × Value) : DataTable :=
  if column.1 ∈ t.columns then t
  else ⟨t.columns ++ [column.1], t.rows.map fun r => Function.update r column.1 column.2⟩

/-- A table with the columns of a list that it does not have. -/
def withColumns (t : DataTable) (columns : List (String × Value)) : DataTable :=
  columns.foldl withColumn t

/-- The columns of a table that gets some. -/
theorem mem_withColumns {columns : List (String × Value)} {column : String} :
    column ∈ (t.withColumns columns).columns ↔
      column ∈ t.columns ∨ column ∈ columns.map Prod.fst := by
  induction columns generalizing t with
  | nil => simp [withColumns]
  | cons first rest ih =>
    show column ∈ ((t.withColumn first).withColumns rest).columns ↔ _
    rw [ih, List.map_cons, List.mem_cons]
    unfold withColumn
    split
    · rename_i hmem
      constructor
      · rintro (h | h)
        · exact .inl h
        · exact .inr (.inr h)
      · rintro (h | rfl | h)
        · exact .inl h
        · exact .inl hmem
        · exact .inr h
    · simp [or_assoc]

/-- A row with the defaults of the columns that it lacked. -/
def filled (present : List String) (columns : List (String × Value)) (r : Row) : Row := fun column =>
  if column ∈ present then r column else (columns.lookup column).getD (r column)

/-- The rows of a table that gets columns. -/
theorem withColumns_rows (t : DataTable) (columns : List (String × Value)) :
    (t.withColumns columns).rows = t.rows.map (filled t.columns columns) := by
  induction columns generalizing t with
  | nil =>
    show t.rows = t.rows.map _
    have hfilled : filled t.columns [] = id := by
      funext r column
      simp [filled]
    rw [hfilled, List.map_id]
  | cons first rest ih =>
    obtain ⟨name, default⟩ := first
    show ((t.withColumn (name, default)).withColumns rest).rows = _
    rw [ih]
    unfold withColumn
    -- The first column is there already, or it is added to every row.
    by_cases hmem : name ∈ t.columns
    · rw [if_pos hmem]
      refine List.map_congr_left fun r _ => funext fun column => ?_
      unfold filled
      by_cases hcolumn : column ∈ t.columns
      · rw [if_pos hcolumn, if_pos hcolumn]
      · have hne : column ≠ name := fun h => hcolumn (h ▸ hmem)
        rw [if_neg hcolumn, if_neg hcolumn, List.lookup_cons, beq_false_of_ne hne]
    · rw [if_neg hmem, List.map_map]
      refine List.map_congr_left fun r _ => funext fun column => ?_
      simp only [Function.comp_apply, filled, List.mem_append, List.mem_singleton]
      by_cases hne : column = name
      · subst hne
        simp [hmem]
      · rw [Function.update_of_ne hne, List.lookup_cons, beq_false_of_ne hne]
        simp [hne]

/-- A row keeps what it had in the columns of the table. -/
theorem filled_of_mem {present : List String} {column : String} (h : column ∈ present)
    (columns : List (String × Value)) (r : Row) : filled present columns r column = r column :=
  if_pos h

/-- A row has the default of a column that it lacked. -/
theorem filled_of_notMem {present : List String} {column : String} (h : column ∉ present)
    {columns : List (String × Value)} {default : Value}
    (hlookup : columns.lookup column = some default) (r : Row) :
    filled present columns r column = default := by
  unfold filled
  rw [if_neg h, hlookup]
  rfl

/-- The rows of a table that gets columns keep their values, and have defaults elsewhere. -/
theorem exists_withColumns_rows (t : DataTable) (columns : List (String × Value)) :
    ∃ g : Row → Row, (∀ r, ∀ column ∈ t.columns, g r column = r column) ∧
      (∀ column default, column ∉ t.columns → columns.lookup column = some default →
        ∀ r, g r column = default) ∧
      (t.withColumns columns).rows = t.rows.map g :=
  ⟨filled t.columns columns, fun r _ h => filled_of_mem h columns r,
    fun _ _ h hlookup r => filled_of_notMem h hlookup r, withColumns_rows t columns⟩

end DataTable

namespace Database

variable {db : Database}

/-- The columns that a table lacks are added, and nothing fails. -/
theorem addMissing_eq {table : String} {t : DataTable} (ht : db.tables table = some t)
    (columns : List (String × Value)) :
    addMissing table columns db = .ok (db.setTable table (some (t.withColumns columns))) := by
  induction columns generalizing db t with
  | nil =>
    show Except.ok db = .ok (db.setTable table (some t))
    rw [← ht, setTable_self]
  | cons column rest ih =>
    have hfirst : (if db.hasColumn table column.1 then Except.ok db
        else db.execute (.addColumn table column.1 column.2)) =
          .ok (db.setTable table (some (t.withColumn column))) := by
      unfold hasColumn execute DataTable.withColumn
      simp only [ht, Option.any_some, decide_eq_true_eq]
      split
      · rw [← ht, setTable_self]
      · rfl
    unfold addMissing
    rw [List.foldlM_cons, hfirst]
    show addMissing table rest (db.setTable table (some (t.withColumn column))) = _
    rw [ih (t := t.withColumn column) (by simp), setTable_setTable]
    rfl

/-- Nothing is added to a table that has the columns. -/
theorem addMissing_of_has {table : String} {columns : List (String × Value)}
    (h : ∀ column ∈ columns, db.hasColumn table column.1 = true) :
    addMissing table columns db = .ok db := by
  induction columns with
  | nil => rfl
  | cons column rest ih =>
    unfold addMissing
    rw [List.foldlM_cons, if_pos (h column List.mem_cons_self)]
    exact ih fun other hother => h other (List.mem_cons_of_mem _ hother)

/-- Indexes are created on tables that have their columns, and nothing fails. -/
theorem executeBatch_indexes {statements : List Statement}
    (h : ∀ statement ∈ statements, ∃ name table columns t,
      statement = .createIndex name table columns ∧ db.tables table = some t ∧
        columns ⊆ t.columns) :
    ∃ indexes, executeBatch db statements = .ok (db.withIndexes indexes) ∧
      db.indexes ⊆ indexes ∧ (∀ index ∈ indexes, index ∈ db.indexes ∨ index ∈ indexesOf statements) ∧
      ∀ index ∈ indexesOf statements, ∃ index' ∈ indexes, index'.1 = index.1 := by
  induction statements generalizing db with
  | nil => exact ⟨db.indexes, rfl, List.Subset.refl _, fun _ h => .inl h, by simp [indexesOf]⟩
  | cons statement rest ih =>
    obtain ⟨name, table, columns, t, rfl, ht, hcolumns⟩ := h statement List.mem_cons_self
    -- The index of that name exists, or it is created on columns that the table has.
    obtain ⟨first, hfirst, hkept, hnew, hname⟩ : ∃ first,
        db.execute (.createIndex name table columns) = .ok (db.withIndexes first) ∧
          db.indexes ⊆ first ∧ (∀ index ∈ first, index ∈ db.indexes ∨ index = (name, table)) ∧
          ∃ index ∈ first, index.1 = name := by
      unfold execute
      simp only [ht]
      cases hindex : db.hasIndex name with
      | true =>
        obtain ⟨index, hmem, hname⟩ := List.any_eq_true.mp hindex
        exact ⟨db.indexes, rfl, List.Subset.refl _, fun _ h => .inl h, index, hmem,
          of_decide_eq_true hname⟩
      | false =>
        have hnone : (columns.find? fun column => column ∉ t.columns) = none := by
          rw [List.find?_eq_none]
          intro column hcolumn
          simpa using hcolumns hcolumn
        simp only [hnone]
        refine ⟨db.indexes ++ [(name, table)], rfl, List.subset_append_left _ _, ?_, (name, table),
          List.mem_append_right _ List.mem_cons_self, rfl⟩
        intro index hindex
        exact (List.mem_append.mp hindex).imp_right List.mem_singleton.mp
    obtain ⟨indexes, hrest, hkept', hnew', hname'⟩ := @ih (db.withIndexes first)
      fun other hother => h other (List.mem_cons_of_mem _ hother)
    refine ⟨indexes, ?_, fun index hindex => hkept' (hkept hindex), ?_, ?_⟩
    · rw [executeBatch_cons, hfirst]
      exact hrest
    · intro index hindex
      have hcons : indexesOf (.createIndex name table columns :: rest) =
          (name, table) :: indexesOf rest := rfl
      rw [hcons, List.mem_cons]
      rcases hnew' index hindex with hindex | hindex
      · exact (hnew index hindex).imp_right .inl
      · exact .inr (.inr hindex)
    · intro index hindex
      rcases List.mem_cons.mp hindex with rfl | hindex
      · obtain ⟨index', hindex', hname⟩ := hname
        exact ⟨index', hkept' hindex', hname⟩
      · exact hname' index hindex

/-- Tables are dropped with their indexes. -/
theorem executeBatch_dropTables (names : List String) :
    executeBatch db (names.map .dropTable) = .ok { db with
      tables := fun name => if name ∈ names then none else db.tables name
      indexes := db.indexes.filter fun index => index.2 ∉ names } := by
  induction names generalizing db with
  | nil =>
    refine congrArg Except.ok ?_
    ext1
    · rfl
    · funext name
      simp
    · exact (List.filter_eq_self.mpr fun _ _ => by simp).symm
  | cons name rest ih =>
    rw [List.map_cons, executeBatch_cons]
    show executeBatch _ (rest.map .dropTable) = _
    rw [ih]
    refine congrArg Except.ok ?_
    ext1
    -- Dropping one table after the others leaves neither of them.
    · rfl
    · funext other
      simp only [setTable_tables, List.mem_cons]
      by_cases h : other = name
      · simp [h]
      · simp [h]
    · simp only [List.filter_filter]
      refine List.filter_congr fun index _ => ?_
      simp [Bool.and_comm]

end Database

end Tellodb.Relational
