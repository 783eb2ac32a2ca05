import Tellodb.Schema.Upgrade

/-!
# Opening a database of an older version

`initSchema_ok`: opening an aged database leaves a database of the current version, in which the
tables that hold memories and what is derived from them have the rows that they had
(`migratedValue` is what becomes of a value). Two kinds of aged databases do not open, and are left
out: fact versions without the column of an index that is created first, and session routers whose
documents have one row identifier. -/

namespace Tellodb

open Relational Database

/-- The columns that the migration adds, each with its table. -/
def addedColumns : List (String × String) :=
  ("memories", "content_hash") :: memoryColumns.map (fun column => ("memories", column.1)) ++
    [("vector_lookup", "embedding"), ("fact_versions", "recorded_at_ms")] ++
    cardColumns.map fun column => ("memory_cards", column.1)

/-- The statements that create the tables. -/
def createdSchema : List Statement :=
  schemaStatements ++ metricsDdl

/-- A database of an older version: its tables have the columns of the current ones, but for some
of those that the migration adds, and its rows meet the constraints of their tables. -/
structure Aged (db : Database) : Prop where
  older : db.userVersion < schemaVersion
  columns : ∀ table t declared, db.tables table = some t →
    columnsOf createdSchema table = some declared →
      ∀ column ∈ declared, column ∈ t.columns ∨ (table, column) ∈ addedColumns
  /-- The indexes that have names of current indexes are on the same tables. -/
  indexes : Coherent db.indexes
  /-- An index has its columns. -/
  indexColumns : ∀ name table columns, Statement.createIndex name table columns ∈ createdSchema →
    db.hasIndex name = true → ∀ t, db.tables table = some t → columns ⊆ t.columns
  /-- `rowid INTEGER PRIMARY KEY AUTOINCREMENT`, and three columns that are `TEXT NOT NULL`. -/
  memories : ∀ t, db.tables "memories" = some t → Keyed memoryRowid t.rows ∧
    ∀ r ∈ t.rows, ReadableMemory r ∧ 0 < memoryRowid r
  /-- Three columns are `TEXT NOT NULL`. -/
  routers : ∀ t, db.tables "session_router" = some t → ∀ r ∈ t.rows, ReadableRouter r

/-! ## Creating what does not exist -/

/-- A column that the migration adds to a table. -/
def isAdded (table column : String) : Bool :=
  addedColumns.any fun added => added = (table, column)

/-- A column that the migration adds is one of the list. -/
theorem isAdded_iff {table column : String} :
    isAdded table column = true ↔ (table, column) ∈ addedColumns := by
  simp [isAdded]

/-- An index of a schema finds its columns, as far as none of them is one that comes later. -/
def indexesOldColumns (statement : Statement) : Bool :=
  match statement with
  | .createIndex _ table columns => columns.all fun column =>
    ((columnsOf createdSchema table).any fun declared => column ∈ declared) &&
      (!isAdded table column || (table, column) = ("fact_versions", "recorded_at_ms"))
  | _ => true

/-- The first statements create one index only on a column that the migration adds. -/
theorem indexesOldColumns_createdSchema :
    ∀ statement ∈ createdSchema, indexesOldColumns statement = true := by
  decide +kernel

/-- The index on the order of the fact versions. -/
def orderIndex : Statement :=
  .createIndex "idx_fact_versions_order" "fact_versions"
    ["fact_key", "entity_id", "timestamp_ms", "recorded_at_ms"]

/-- The schema that is created includes the index of the order. -/
theorem orderIndex_mem_createdSchema : orderIndex ∈ createdSchema := by
  decide +kernel

/-- A statement creates an index on a column. -/
def indexesColumn (table column : String) (statement : Statement) : Bool :=
  match statement with
  | .createIndex _ table' columns => table = table' && column ∈ columns
  | _ => false

/-- The statements of the schema use only what the statements before them create, -/
theorem wellOrdered_schemaStatements : WellOrdered [] schemaStatements = true := by
  decide +kernel

/-- and so do those of the metrics. -/
theorem wellOrdered_metricsDdl : WellOrdered schemaStatements metricsDdl = true := by
  decide +kernel

namespace Aged

variable {db : Database}

/-- The indexes find their columns, but for the one column that the migration adds. -/
theorem mem_columns (h : Aged db) {name table column : String} {columns : List String}
    (hmem : Statement.createIndex name table columns ∈ createdSchema) {t : DataTable}
    (ht : db.tables table = some t) (hcolumn : column ∈ columns) :
    column ∈ t.columns ∨ (table, column) = ("fact_versions", "recorded_at_ms") := by
  have hindexes := indexesOldColumns_createdSchema _ hmem
  rw [indexesOldColumns, List.all_eq_true] at hindexes
  have hdeclared := hindexes column hcolumn
  rw [Bool.and_eq_true, Option.any_eq_true, Bool.or_eq_true] at hdeclared
  obtain ⟨⟨declared, hcase, hin⟩, hold⟩ := hdeclared
  rcases h.columns table t declared ht hcase column (of_decide_eq_true hin) with hhas | hadded
  · exact .inl hhas
  · rcases hold with hold | hold
    · rw [isAdded_iff.mpr hadded] at hold
      exact absurd hold (by decide)
    · exact .inr (of_decide_eq_true hold)

/-- The indexes find their columns if the fact versions have the column of one of them. -/
theorem finds (h : Aged db)
    (hfacts : ∀ t, db.tables "fact_versions" = some t → "recorded_at_ms" ∈ t.columns) :
    db.Finds createdSchema := by
  intro name table columns hmem _ t ht column hcolumn
  rcases h.mem_columns hmem ht hcolumn with hhas | hadded
  · exact hhas
  · obtain ⟨rfl, rfl⟩ := Prod.mk.inj hadded
    exact hfacts t ht

/-- The tables and indexes that do not exist are created. -/
theorem executeBatch_eq (h : Aged db)
    (hfacts : ∀ t, db.tables "fact_versions" = some t → "recorded_at_ms" ∈ t.columns) :
    executeBatch db schemaStatements = .ok (db.withSchema schemaStatements) ∧
      executeBatch (db.withSchema schemaStatements) metricsDdl =
        .ok (db.withSchema createdSchema) := by
  have hfinds := h.finds hfacts
  constructor
  · have hbatch := @executeBatch_withSchema db [] schemaStatements wellOrdered_schemaStatements
      fun name table columns hmem => hfinds name table columns (List.mem_append_left _ hmem)
    rw [withSchema_nil] at hbatch
    exact hbatch
  · exact @executeBatch_withSchema db schemaStatements metricsDdl wellOrdered_metricsDdl
      fun name table columns hmem => hfinds name table columns (List.mem_append_right _ hmem)

/-- Fact versions that exist without the column of the index on their order stop the first
statements. -/
theorem executeBatch_of_unrecorded (h : Aged db) {t : DataTable}
    (ht : db.tables "fact_versions" = some t) (hcolumn : "recorded_at_ms" ∉ t.columns) :
    ∃ error, executeBatch db schemaStatements = .error error := by
  -- The schema is cut at the index on the column that is missing.
  obtain ⟨before, after, hsplit, hbefore, hordered, hnew⟩ : ∃ before after,
      schemaStatements = before ++ orderIndex :: after ∧
      (∀ statement ∈ before, statement ∈ createdSchema ∧
        indexesColumn "fact_versions" "recorded_at_ms" statement = false) ∧
      WellOrdered [] before = true ∧
      ∀ index ∈ indexesOf before, index.1 ≠ "idx_fact_versions_order" :=
    ⟨schemaStatements.take 34, schemaStatements.drop 35, by decide +kernel, by decide +kernel,
      by decide +kernel, by decide +kernel⟩
  -- The statements before that index succeed.
  have hfirst : executeBatch db before = .ok (db.withSchema before) := by
    have hbatch := @executeBatch_withSchema db [] before hordered ?_
    · rw [withSchema_nil] at hbatch
      exact hbatch
    · intro name table columns hmem _ u hu column hcolumn
      obtain ⟨hcreated, hother⟩ := hbefore _ hmem
      refine (h.mem_columns hcreated hu hcolumn).resolve_right fun hsame => ?_
      obtain ⟨rfl, rfl⟩ := Prod.mk.inj hsame
      rw [indexesColumn, Bool.and_eq_false_iff] at hother
      rcases hother with hother | hother
      · exact absurd rfl (of_decide_eq_false hother)
      · exact absurd hcolumn (of_decide_eq_false hother)
  -- The table is the old one, since creating it did nothing.
  have htable : (db.withSchema before).tables "fact_versions" = some t := by
    show (db.tables "fact_versions").or _ = _
    rw [ht, Option.some_or]
  have hindex : (db.withSchema before).hasIndex "idx_fact_versions_order" = false := by
    have hold : db.hasIndex "idx_fact_versions_order" = false := by
      rw [Bool.eq_false_iff]
      intro hhas
      exact hcolumn (h.indexColumns "idx_fact_versions_order" "fact_versions" _
        orderIndex_mem_createdSchema hhas t ht (by decide))
    unfold hasIndex at hold ⊢
    show (db.indexes ++ _).any _ = false
    rw [List.any_append, hold, Bool.false_or, List.any_eq_false]
    exact fun index hmem hname =>
      hnew index (List.mem_filter.mp hmem).1 (of_decide_eq_true hname)
  -- The index needs a column that the table does not have.
  obtain ⟨error, hindexError⟩ :
      ∃ error, (db.withSchema before).execute orderIndex = .error error := by
    unfold orderIndex execute
    simp only [htable, hindex]
    cases hfind : ["fact_key", "entity_id", "timestamp_ms", "recorded_at_ms"].find?
        fun column => column ∉ t.columns with
    | some column => exact ⟨_, rfl⟩
    | none =>
      have hnone := List.find?_eq_none.mp hfind "recorded_at_ms" (by decide)
      exact absurd (decide_eq_true hcolumn) hnone
  refine ⟨error, ?_⟩
  rw [hsplit]
  unfold executeBatch
  rw [List.foldlM_append]
  show executeBatch db before >>= _ = _
  rw [hfirst, ok_bind, List.foldlM_cons, hindexError]
  rfl

/-- A table that the schema declares, as it is or new, has the columns that no step adds. -/
theorem exists_table (h : Aged db) (name : String) (needed : List String)
    (hneeded : ((columnsOf createdSchema name).any fun declared => needed.all fun column =>
      column ∈ declared && (name, column) ∉ addedColumns) = true) :
    ∃ t, (db.withSchema createdSchema).tables name = some t ∧ needed ⊆ t.columns ∧
      (db.tables name = some t ∨ db.tables name = none ∧ t.rows = []) := by
  rw [Option.any_eq_true] at hneeded
  obtain ⟨declared, hdeclared, hall⟩ := hneeded
  have hcolumn : ∀ column ∈ needed, column ∈ declared ∧ (name, column) ∉ addedColumns := by
    intro column hmem
    have hboth := List.all_eq_true.mp hall column hmem
    rw [Bool.and_eq_true] at hboth
    exact ⟨of_decide_eq_true hboth.1, of_decide_eq_true hboth.2⟩
  have htable : (db.withSchema createdSchema).tables name =
      (db.tables name).or (some ⟨declared, []⟩) := by
    rw [← Option.map_some (f := fun columns => (⟨columns, []⟩ : DataTable)), ← hdeclared]
    rfl
  cases hcase : db.tables name with
  | some t =>
    rw [hcase, Option.some_or] at htable
    refine ⟨t, htable, fun column hmem => ?_, .inl rfl⟩
    obtain ⟨hin, hold⟩ := hcolumn column hmem
    exact (h.columns name t declared hcase hdeclared column hin).resolve_right hold
  | none =>
    rw [hcase, Option.none_or] at htable
    exact ⟨_, htable, fun column hmem => (hcolumn column hmem).1, .inr ⟨rfl, rfl⟩⟩

/-- The indexes after the first statements are coherent, and contain those of the statements. -/
theorem withSchema_indexes (h : Aged db) :
    Coherent (db.withSchema createdSchema).indexes ∧
      indexesOf createdSchema ⊆ (db.withSchema createdSchema).indexes := by
  have hdeclared : indexesOf createdSchema ⊆ declaredIndexes := by decide +kernel
  constructor
  · intro index hindex declared hmem hname
    rcases List.mem_append.mp hindex with hold | hnew
    · exact h.indexes index hold declared hmem hname
    · exact declaredIndexes_unique index (hdeclared (List.mem_filter.mp hnew).1) declared hmem
        hname
  · intro index hindex
    by_cases hhas : db.hasIndex index.1 = true
    · obtain ⟨old, hold, hname⟩ := List.any_eq_true.mp hhas
      have hsame := h.indexes old hold index (hdeclared hindex) (of_decide_eq_true hname)
      exact List.mem_append_left _ (hsame ▸ hold)
    · exact List.mem_append_right _ (List.mem_filter.mpr ⟨hindex, by simpa using hhas⟩)

end Aged

/-! ## What becomes of the rows -/

/-- What becomes of the value of an old column. -/
def migratedValue (sha256 : String → String) (version : ℤ) (table column : String) (r : Row) :
    Value :=
  if (table, column) = ("memories", "content_hash") then
    if version < 5 then .text (hashOf sha256 r) else r column
  else if (table, column) = ("memories", "indexed") then
    if version < 4 then .integer 1 else r column
  else if (table, column) = ("memories", "recorded_at_ms") then recordWhenCreated r column
  else if (table, column) = ("fact_versions", "recorded_at_ms") then recordWhenStated r column
  else r column

/-- A memory that is recorded when it was created, unless it has another time. -/
theorem recordWhenCreated_eq_self {r : Row} :
    recordWhenCreated r = r ↔
      (r "recorded_at_ms" = .integer 0 → r "created_at_ms" = .integer 0) := by
  unfold recordWhenCreated
  split
  · rename_i hzero
    rw [Function.update_eq_self_iff, hzero]
    exact ⟨fun h _ => h, fun h => h rfl⟩
  · rename_i hzero
    exact ⟨fun _ h => absurd h hzero, fun _ => rfl⟩

/-- The times of a memory after the step that records it. -/
theorem recordWhenCreated_zero {r : Row} (h : recordWhenCreated r "recorded_at_ms" = .integer 0) :
    recordWhenCreated r "created_at_ms" = .integer 0 := by
  unfold recordWhenCreated at h ⊢
  split at h
  · rename_i hzero
    rw [if_pos hzero]
    rw [Function.update_self] at h
    exact h
  · rename_i hzero
    exact absurd h hzero

/-- The other columns of a memory that is recorded. -/
theorem recordWhenCreated_of_ne {column : String} (h : column ≠ "recorded_at_ms") (r : Row) :
    recordWhenCreated r column = r column := by
  unfold recordWhenCreated
  split
  · exact Function.update_of_ne h _ _
  · rfl

/-- The step that records the facts changes nothing the second time. -/
theorem recordWhenStated_idem (r : Row) :
    recordWhenStated (recordWhenStated r) = recordWhenStated r := by
  unfold recordWhenStated
  by_cases hnull : r "recorded_at_ms" = .null
  · rw [if_pos hnull]
    split
    · exact Function.update_idem ..
    · rfl
  · rw [if_neg hnull, if_neg hnull]

/-- The other columns of a fact that is recorded. -/
theorem recordWhenStated_of_ne {column : String} (h : column ≠ "recorded_at_ms") (r : Row) :
    recordWhenStated r column = r column := by
  unfold recordWhenStated
  split
  · exact Function.update_of_ne h _ _
  · rfl

/-- A memory after the steps that record it and set its flag. -/
def flaggedMemory (version : ℤ) (r : Row) : Row :=
  if version < 4 then markRow (recordWhenCreated r) else recordWhenCreated r

/-- A memory after all steps. -/
def migratedMemory (sha256 : String → String) (version : ℤ) (r : Row) : Row :=
  if version < 5 then hashed sha256 (flaggedMemory version r) else flaggedMemory version r

/-- The flag of a memory. -/
theorem flaggedMemory_indexed (version : ℤ) (r : Row) :
    flaggedMemory version r "indexed" = if version < 4 then .integer 1 else r "indexed" := by
  unfold flaggedMemory
  split
  · exact Function.update_self ..
  · exact recordWhenCreated_of_ne (by decide) r

/-- The other columns of a memory whose flag is set. -/
theorem flaggedMemory_of_ne {column : String} (h : column ≠ "indexed") (version : ℤ) (r : Row) :
    flaggedMemory version r column = recordWhenCreated r column := by
  unfold flaggedMemory
  split
  · exact Function.update_of_ne h _ _
  · rfl

/-- The hash of a memory is of columns that the other steps do not change. -/
theorem hashOf_congr {sha256 : String → String} {r r' : Row}
    (h : ∀ column ∈ ["content", "entity_id", "kind"], r column = r' column) :
    hashOf sha256 r = hashOf sha256 r' := by
  unfold hashOf
  rw [h "content" (by decide), h "entity_id" (by decide), h "kind" (by decide)]

/-- The hash of a migrated memory. -/
theorem migratedMemory_hash (sha256 : String → String) (version : ℤ) (r : Row) :
    migratedMemory sha256 version r "content_hash" =
      if version < 5 then .text (hashOf sha256 r) else r "content_hash" := by
  have hold : ∀ column, column ≠ "indexed" → column ≠ "recorded_at_ms" →
      flaggedMemory version r column = r column := fun column hindexed hrecorded =>
    (flaggedMemory_of_ne hindexed version r).trans (recordWhenCreated_of_ne hrecorded r)
  unfold migratedMemory
  split
  · show Function.update _ "content_hash" _ "content_hash" = _
    rw [Function.update_self]
    refine congrArg Value.text (hashOf_congr fun column hcolumn => ?_)
    simp only [List.mem_cons, List.not_mem_nil, or_false] at hcolumn
    rcases hcolumn with rfl | rfl | rfl
    all_goals exact hold _ (by decide) (by decide)
  · exact hold _ (by decide) (by decide)

/-- The other columns of a migrated memory. -/
theorem migratedMemory_of_ne {column : String} (h : column ≠ "content_hash")
    (sha256 : String → String) (version : ℤ) (r : Row) :
    migratedMemory sha256 version r column = flaggedMemory version r column := by
  unfold migratedMemory
  split
  · exact Function.update_of_ne h _ _
  · rfl

/-- The values of a migrated memory. -/
theorem migratedMemory_apply (sha256 : String → String) (version : ℤ) (column : String) (r : Row) :
    migratedMemory sha256 version r column = migratedValue sha256 version "memories" column r := by
  unfold migratedValue
  simp only [Prod.mk.injEq, true_and]
  by_cases hhash : column = "content_hash"
  · rw [if_pos hhash, hhash, migratedMemory_hash]
  · rw [if_neg hhash, migratedMemory_of_ne hhash]
    by_cases hindexed : column = "indexed"
    · rw [if_pos hindexed, hindexed, flaggedMemory_indexed]
    · rw [if_neg hindexed, flaggedMemory_of_ne hindexed]
      by_cases hrecorded : column = "recorded_at_ms"
      · rw [if_pos hrecorded]
      · rw [if_neg hrecorded, if_neg fun h => absurd h.1 (by decide),
          recordWhenCreated_of_ne hrecorded]

/-- What becomes of a value depends on old columns only. -/
theorem migratedValue_congr {sha256 : String → String} {version : ℤ} {table column : String}
    {columns : List String} {r r' : Row} (hsame : ∀ column ∈ columns, r column = r' column)
    (hmemories : table = "memories" → ["content", "entity_id", "kind", "created_at_ms"] ⊆ columns)
    (hfacts : table = "fact_versions" → "timestamp_ms" ∈ columns) (hcolumn : column ∈ columns) :
    migratedValue sha256 version table column r = migratedValue sha256 version table column r' := by
  have hvalue := hsame column hcolumn
  unfold migratedValue
  -- The cases are the columns that are changed, in the order of the definition.
  split
  · rename_i h
    have hhash : hashOf sha256 r = hashOf sha256 r' := hashOf_congr fun other hother =>
      hsame other (hmemories (Prod.mk.inj h).1
        (List.subset_append_left ["content", "entity_id", "kind"] ["created_at_ms"] hother))
    rw [hhash, hvalue]
  · split
    · rw [hvalue]
    · split
      · rename_i h
        obtain ⟨rfl, rfl⟩ := Prod.mk.inj h
        have hcreated := hsame "created_at_ms" (hmemories rfl (by decide))
        unfold recordWhenCreated
        rw [hvalue]
        split
        · rw [Function.update_self, Function.update_self, hcreated]
        · exact hvalue
      · split
        · rename_i h
          obtain ⟨rfl, rfl⟩ := Prod.mk.inj h
          have hstated := hsame "timestamp_ms" (hfacts rfl)
          unfold recordWhenStated
          rw [hvalue]
          split
          · rw [Function.update_self, Function.update_self, hstated]
          · exact hvalue
        · exact hvalue

/-! ## Opening -/

/-- The table of memories after the migration. -/
def migratedMemories (sha256 : String → String) (version : ℤ) (t : DataTable) : DataTable :=
  let t := upgradedMemories version t
  if version < 5 then { t with rows := t.rows.map (hashed sha256) } else t

/-- The columns of the table of memories. -/
theorem migratedMemories_columns (sha256 : String → String) (version : ℤ) (t : DataTable) :
    (migratedMemories sha256 version t).columns = (upgradedMemories version t).columns := by
  unfold migratedMemories
  generalize upgradedMemories version t = upgraded
  by_cases hversion : version < 5
  · simp only [if_pos hversion]
  · simp only [if_neg hversion]

/-- The memories after the first part of the migration, each with the defaults of its new columns:
a memory without a flag is not marked. -/
theorem exists_upgradedMemories_rows (version : ℤ) (t : DataTable) :
    ∃ g : Row → Row, (∀ r, ∀ column ∈ t.columns, g r column = r column) ∧
      ("indexed" ∉ t.columns → ∀ r, g r "indexed" = .integer 0) ∧
      (upgradedMemories version t).rows = t.rows.map fun r => flaggedMemory version (g r) := by
  obtain ⟨g₁, hkept₁, -, hrows₁⟩ := t.exists_withColumns_rows [("content_hash", .text "")]
  have hcolumns : ∀ column, column ∈ (t.withColumns [("content_hash", .text "")]).columns ↔
      column ∈ t.columns ∨ column = "content_hash" := by
    intro column
    rw [DataTable.mem_withColumns, List.map_singleton, List.mem_singleton]
  unfold upgradedMemories
  generalize t.withColumns [("content_hash", .text "")] = hash at hrows₁ hcolumns ⊢
  obtain ⟨g₂, hkept₂, hdefaults, hrows₂⟩ := hash.exists_withColumns_rows memoryColumns
  generalize hash.withColumns memoryColumns = all at hrows₂ ⊢
  refine ⟨g₂ ∘ g₁, fun r column hcolumn => ?_, fun hindexed r => ?_, ?_⟩
  · rw [Function.comp_apply, hkept₂ _ column ((hcolumns column).mpr (.inl hcolumn)),
      hkept₁ r column hcolumn]
  · refine hdefaults "indexed" (.integer 0) (fun h => ?_) (by decide) (g₁ r)
    exact ((hcolumns _).mp h).elim hindexed (by decide)
  · dsimp only
    rw [hrows₂, hrows₁, List.map_map, List.map_map]
    rfl

/-- The memories after the migration, each with the defaults of its new columns. -/
theorem exists_migratedMemories_rows (sha256 : String → String) (version : ℤ) (t : DataTable) :
    ∃ g : Row → Row, (∀ r, ∀ column ∈ t.columns, g r column = r column) ∧
      ("indexed" ∉ t.columns → ∀ r, g r "indexed" = .integer 0) ∧
      (migratedMemories sha256 version t).rows =
        t.rows.map fun r => migratedMemory sha256 version (g r) := by
  obtain ⟨g, hkept, hflag, hrows⟩ := exists_upgradedMemories_rows version t
  refine ⟨g, hkept, hflag, ?_⟩
  unfold migratedMemories migratedMemory
  generalize upgradedMemories version t = upgraded at hrows ⊢
  by_cases hversion : version < 5
  · simp only [if_pos hversion, hrows, List.map_map]
    rfl
  · simp only [if_neg hversion, hrows]

/-- The memories after the first part of the migration can be hashed. -/
theorem upgradedMemories_hashable {version : ℤ} {t : DataTable}
    (hcolumns : ["rowid", "content", "entity_id", "kind"] ⊆ t.columns)
    (hkeyed : Keyed memoryRowid t.rows)
    (hrows : ∀ r ∈ t.rows, ReadableMemory r ∧ 0 < memoryRowid r) :
    Keyed memoryRowid (upgradedMemories version t).rows ∧
      ∀ r ∈ (upgradedMemories version t).rows, ReadableMemory r ∧ 0 < memoryRowid r := by
  obtain ⟨g, hkept, -, hupgraded⟩ := exists_upgradedMemories_rows version t
  -- The columns that are hashed are not among those that are changed.
  have hsame : ∀ r, ∀ column ∈ ["rowid", "content", "entity_id", "kind"],
      flaggedMemory version (g r) column = r column := by
    intro r column hmem
    rw [flaggedMemory_of_ne, recordWhenCreated_of_ne, hkept r column (hcolumns hmem)]
    · rintro rfl
      exact absurd hmem (by decide)
    · rintro rfl
      exact absurd hmem (by decide)
  have hrowid : ∀ r, memoryRowid (flaggedMemory version (g r)) = memoryRowid r := by
    intro r
    unfold memoryRowid
    rw [hsame r "rowid" (by decide)]
  rw [hupgraded]
  constructor
  · unfold Keyed
    rw [List.map_map]
    exact (List.map_congr_left fun r _ => hrowid r).symm ▸ hkeyed
  · intro r' hr'
    obtain ⟨r, hr, rfl⟩ := List.mem_map.mp hr'
    rw [hrowid]
    refine ⟨fun column hcolumn => ?_, (hrows r hr).2⟩
    rw [hsame r column (List.mem_cons_of_mem _ hcolumn)]
    exact (hrows r hr).1 column hcolumn

/-- What opening an older database leaves of the tables with rows to be kept. -/
structure Opened (sha256 : String → String) (db db' : Database) : Prop where
  memories : db'.tables "memories" =
    (db.tables "memories").map (migratedMemories sha256 db.userVersion)
  facts : db'.tables "fact_versions" = (db.tables "fact_versions").map upgradedFacts
  cards : db'.tables "memory_cards" =
    (db.tables "memory_cards").map fun t => t.withColumns cardColumns
  vectors : db'.tables "vector_lookup" =
    (db.tables "vector_lookup").map fun t => t.withColumns [("embedding", .null)]
  edges : db'.tables "edges" = db.tables "edges"
  routers : db'.tables "session_router" = db.tables "session_router"
  index : db'.tables "fts_memories" =
    if db.userVersion < 3 then some ⟨ftsMemoriesColumns, []⟩ else db.tables "fts_memories"

/-- The tables of the schema, and the ones that the migration may change. -/
theorem columnsOf_currentSchema (name : String) :
    columnsOf currentSchema name = columnsOf createdSchema name := by
  have hnone : columnsOf migrationIndexes name = none := rfl
  rw [currentSchema, columnsOf_append, hnone]
  exact Option.or_none

/-- The tables of the schema are not retired. -/
theorem columnsOf_retired : ∀ name ∈ retiredTables, columnsOf currentSchema name = none := by
  decide +kernel

/-- The current indexes, part by part. -/
theorem mem_declaredIndexes {index : String × String} (h : index ∈ declaredIndexes) :
    index ∈ indexesOf createdSchema ∨ index ∈ indexesOf (migrationIndexes.take 5) ∨
      index ∈ indexesOf (migrationIndexes.drop 5) := by
  have hsplit : declaredIndexes = indexesOf createdSchema ++
      (indexesOf (migrationIndexes.take 5) ++ indexesOf (migrationIndexes.drop 5)) := by
    rw [← indexesOf_append, List.take_append_drop, ← indexesOf_append]
    rfl
  rw [hsplit, List.mem_append, List.mem_append] at h
  exact h

/-- A column that a step adds to a table is there. -/
theorem hasColumn_of_map {db db' : Database} {name column : String} {f : DataTable → DataTable}
    (h : db'.tables name = (db.tables name).map f) (hsome : (db.tables name).isSome)
    (hcolumn : ∀ t, column ∈ (f t).columns) : db'.hasColumn name column = true := by
  obtain ⟨t, ht⟩ := Option.isSome_iff_exists.mp hsome
  unfold hasColumn
  rw [h, ht]
  exact decide_eq_true (hcolumn t)

section

variable {sha256 : String → String} {db₁ db₃ db₄ : Database} {t : DataTable}
  {indexes : List (String × String)}

/-- The database after the first part of the migration. -/
def withMemories (db : Database) (t : DataTable) (indexes : List (String × String)) : Database :=
  (db.setTable "memories" (some (upgradedMemories db.userVersion t))).withIndexes indexes

/-- The first part of the migration leaves the other tables alone. -/
theorem withMemories_tables {name : String} (hname : name ≠ "memories") :
    (withMemories db₁ t indexes).tables name = db₁.tables name := by
  unfold withMemories
  rw [withIndexes_tables, setTable_tables, if_neg hname]

/-- The tables of memories after the three parts. -/
theorem migrated_memories (hT : TablesMigrated (withMemories db₁ t indexes) db₃)
    (hC : ContentsMigrated sha256 db₃ db₄) :
    db₄.tables "memories" = some (migratedMemories sha256 db₁.userVersion t) := by
  have hmemories : (withMemories db₁ t indexes).tables "memories" =
      some (upgradedMemories db₁.userVersion t) := setTable_same db₁ "memories" _
  have hversion : (withMemories db₁ t indexes).userVersion = db₁.userVersion := rfl
  rw [hC.memories, hT.others _ (by decide), hmemories, hT.userVersion, hversion]
  rfl

/-- A table that no part writes. -/
theorem migrated_others (hT : TablesMigrated (withMemories db₁ t indexes) db₃)
    (hC : ContentsMigrated sha256 db₃ db₄) {name : String}
    (hfirst : name ∉ ["memories", "fts_memories", "fts_session_router"])
    (hsecond : name ∉ ["vector_lookup", "metrics", "fact_versions", "memory_cards"])
    (hretired : name ∉ retiredTables) : db₄.tables name = db₁.tables name := by
  rw [hC.others name hfirst hretired, hT.others name hsecond]
  exact withMemories_tables fun h => hfirst (h ▸ List.mem_cons_self)

/-- What the three parts leave of the tables with rows to be kept. -/
theorem opened_of_migrated (ht : db₁.tables "memories" = some t)
    (hT : TablesMigrated (withMemories db₁ t indexes) db₃)
    (hC : ContentsMigrated sha256 db₃ db₄) : Opened sha256 db₁ db₄ where
  memories := by
    rw [migrated_memories hT hC, ht]
    rfl
  facts := by rw [hC.others _ (by decide) (by decide), hT.facts, withMemories_tables (by decide)]
  cards := by rw [hC.others _ (by decide) (by decide), hT.cards, withMemories_tables (by decide)]
  vectors := by
    rw [hC.others _ (by decide) (by decide), hT.vectors, withMemories_tables (by decide)]
  edges := migrated_others hT hC (by decide) (by decide) (by decide)
  routers := migrated_others hT hC (by decide) (by decide) (by decide)
  index := by
    rw [hC.index, hT.userVersion, hT.others _ (by decide), withMemories_tables (by decide)]
    rfl

/-- The tables of the schema are there after the three parts. -/
theorem isSome_of_migrated
    (hsome : ∀ name, (columnsOf createdSchema name).isSome → (db₁.tables name).isSome)
    (ht : db₁.tables "memories" = some t)
    (hT : TablesMigrated (withMemories db₁ t indexes) db₃)
    (hC : ContentsMigrated sha256 db₃ db₄) {name : String}
    (hname : (columnsOf currentSchema name).isSome) : (db₄.tables name).isSome := by
  have hopened := opened_of_migrated ht hT hC
  have hretired : name ∉ retiredTables := by
    intro hmem
    rw [columnsOf_retired name hmem] at hname
    exact absurd hname (by simp)
  rw [columnsOf_currentSchema] at hname
  have hname₁ := hsome name hname
  -- The tables of the last part come first, then those of the second part.
  by_cases hfirst : name ∈ ["memories", "fts_memories", "fts_session_router"]
  · simp only [List.mem_cons, List.not_mem_nil, or_false] at hfirst
    rcases hfirst with rfl | rfl | rfl
    · rw [hopened.memories, Option.isSome_map]
      exact hname₁
    · rw [hopened.index]
      split
      · rfl
      · exact hname₁
    · exact hC.routers
  · by_cases hsecond : name ∈ ["vector_lookup", "metrics", "fact_versions", "memory_cards"]
    · simp only [List.mem_cons, List.not_mem_nil, or_false] at hsecond
      rcases hsecond with rfl | rfl | rfl | rfl
      · rw [hopened.vectors, Option.isSome_map]
        exact hname₁
      · obtain ⟨metrics, hmetrics, -⟩ := hT.metrics
        rw [hC.others _ (by decide) (by decide), hmetrics]
        rfl
      · rw [hopened.facts, Option.isSome_map]
        exact hname₁
      · rw [hopened.cards, Option.isSome_map]
        exact hname₁
    · rw [migrated_others hT hC hfirst hsecond hretired]
      exact hname₁

/-- So are the indexes. -/
theorem declaredIndexes_of_migrated (hindexes : indexesOf createdSchema ⊆ db₁.indexes)
    (hkept : db₁.indexes ⊆ indexes) (hadded : indexesOf (migrationIndexes.take 5) ⊆ indexes)
    (hT : TablesMigrated (withMemories db₁ t indexes) db₃)
    (hC : ContentsMigrated sha256 db₃ db₄) : declaredIndexes ⊆ db₄.indexes := by
  intro index hindex
  refine hC.kept index hindex ?_
  rcases mem_declaredIndexes hindex with h | h | h
  · exact hT.kept index hindex (hkept (hindexes h))
  · exact hT.kept index hindex (hadded h)
  · exact hT.created h

/-- A memory after the migration is recorded. -/
theorem recordWhenCreated_migratedMemory (version : ℤ) (r : Row) :
    recordWhenCreated (migratedMemory sha256 version r) = migratedMemory sha256 version r := by
  rw [recordWhenCreated_eq_self, migratedMemory_of_ne (by decide),
    migratedMemory_of_ne (by decide), flaggedMemory_of_ne (by decide),
    flaggedMemory_of_ne (by decide)]
  exact recordWhenCreated_zero

/-- The three parts of the migration lead to a database of the current version. -/
theorem current_of_migrated
    (hsome : ∀ name, (columnsOf createdSchema name).isSome → (db₁.tables name).isSome)
    (hindexes : indexesOf createdSchema ⊆ db₁.indexes) (ht : db₁.tables "memories" = some t)
    (hkept : db₁.indexes ⊆ indexes) (hadded : indexesOf (migrationIndexes.take 5) ⊆ indexes)
    (hT : TablesMigrated (withMemories db₁ t indexes) db₃)
    (hC : ContentsMigrated sha256 db₃ db₄) : Current db₄ := by
  have hopened := opened_of_migrated ht hT hC
  refine ⟨hC.userVersion, fun _ => isSome_of_migrated hsome ht hT hC,
    declaredIndexes_of_migrated hindexes hkept hadded hT hC, ?_, ?_, ?_, ?_, ?_, ?_, ?_,
    hC.retired, hC.unused⟩
  -- The columns of the memories.
  · intro column hcolumn
    refine hasColumn_of_map hopened.memories (hsome _ (by decide +kernel)) fun t => ?_
    rw [migratedMemories_columns, mem_upgradedMemories]
    rcases List.mem_cons.mp hcolumn with rfl | hcolumn
    · exact .inr (.inl rfl)
    · exact .inr (.inr (List.mem_map_of_mem hcolumn))
  -- The columns of the vectors, of the metrics, of the facts and of the cards.
  · exact hasColumn_of_map hopened.vectors (hsome _ (by decide +kernel)) fun t =>
      DataTable.mem_withColumns.mpr (.inr (by decide))
  · obtain ⟨metrics, hmetrics, hcolumn⟩ := hT.metrics
    unfold hasColumn
    rw [hC.others _ (by decide) (by decide), hmetrics]
    exact decide_eq_true hcolumn
  · exact hasColumn_of_map hopened.facts (hsome _ (by decide +kernel)) fun t =>
      DataTable.mem_withColumns.mpr (.inr (by decide))
  · intro column hcolumn
    exact hasColumn_of_map hopened.cards (hsome _ (by decide +kernel)) fun t =>
      DataTable.mem_withColumns.mpr (.inr (List.mem_map_of_mem hcolumn))
  -- The memories and the facts have the times of the rows before.
  · intro t' ht' r hr
    obtain ⟨g, -, -, hrows⟩ := exists_migratedMemories_rows sha256 db₁.userVersion t
    rw [migrated_memories hT hC] at ht'
    rw [← Option.some.inj ht', hrows] at hr
    obtain ⟨r, -, rfl⟩ := List.mem_map.mp hr
    exact recordWhenCreated_migratedMemory db₁.userVersion (g r)
  · intro t' ht' r hr
    rw [hopened.facts] at ht'
    obtain ⟨facts, -, rfl⟩ := Option.map_eq_some_iff.mp ht'
    obtain ⟨r, -, rfl⟩ := List.mem_map.mp hr
    exact recordWhenStated_idem r

end

/-- What lets an older database open: its fact versions have the column of an index that is created
first, and the documents of its session routers have row identifiers apart. -/
structure Openable (db : Database) : Prop where
  facts : ∀ t, db.tables "fact_versions" = some t → "recorded_at_ms" ∈ t.columns
  routers : ∀ t, db.tables "session_router" = some t → (t.rows.map docRowid).Nodup

/-- An older database whose facts are recorded opens if its routers are apart, and becomes one of
the current version then. -/
theorem Aged.initSchema_iff_routers {db : Database} (h : Aged db)
    (hfacts : ∀ t, db.tables "fact_versions" = some t → "recorded_at_ms" ∈ t.columns)
    (sha256 : String → String) :
    ((∃ db', initSchema sha256 db = .ok db') ↔
        ∀ t, db.tables "session_router" = some t → (t.rows.map docRowid).Nodup) ∧
      ∀ db', initSchema sha256 db = .ok db' → Current db' ∧
        Opened sha256 (db.withSchema createdSchema) db' := by
  obtain ⟨hfirst, hsecond⟩ := h.executeBatch_eq hfacts
  obtain ⟨hcoherent, hindexes⟩ := h.withSchema_indexes
  -- The tables that are changed, each with the columns that its change reads.
  obtain ⟨t, ht, hneeded, horigin⟩ := h.exists_table "memories"
    ["rowid", "content", "entity_id", "kind"] (by decide +kernel)
  obtain ⟨facts, hstated, hfactsNeeded, -⟩ := h.exists_table "fact_versions"
    ["memory_id", "fact_key", "entity_id", "timestamp_ms"] (by decide +kernel)
  obtain ⟨vectors, hvectors, -, -⟩ := h.exists_table "vector_lookup" [] (by decide +kernel)
  obtain ⟨metrics, hmetrics, -, -⟩ := h.exists_table "metrics" [] (by decide +kernel)
  obtain ⟨cards, hcards, -, -⟩ := h.exists_table "memory_cards" [] (by decide +kernel)
  obtain ⟨docs, hdocs, -, -⟩ := h.exists_table "fts_session_router" [] (by decide +kernel)
  obtain ⟨routers, hsessions, -, hroutersOrigin⟩ := h.exists_table "session_router" []
    (by decide +kernel)
  have hsome : ∀ name, (columnsOf createdSchema name).isSome →
      ((db.withSchema createdSchema).tables name).isSome := by
    intro name hname
    show ((db.tables name).or ((columnsOf createdSchema name).map _)).isSome
    rw [Option.isSome_or, Option.isSome_map, hname, Bool.or_true]
  have hversion : (db.withSchema createdSchema).userVersion < schemaVersion := h.older
  obtain ⟨db₁, hdb₁⟩ : ∃ db₁, db.withSchema createdSchema = db₁ := ⟨_, rfl⟩
  rw [hdb₁] at ht hstated hvectors hmetrics hcards hdocs hsessions hversion
  rw [hdb₁] at hsecond hcoherent hindexes ⊢
  simp only [hdb₁] at hsome
  -- The memories of before can be read, and a table that is new has none.
  have hmemories : Keyed memoryRowid t.rows ∧ ∀ r ∈ t.rows, ReadableMemory r ∧ 0 < memoryRowid r := by
    rcases horigin with hold | ⟨-, hnil⟩
    · exact h.memories t hold
    · rw [hnil]
      exact ⟨List.nodup_nil, fun r hr => absurd hr List.not_mem_nil⟩
  -- The routers of before can be read as well, and their row identifiers are those of before.
  have hreadable : (∀ r ∈ routers.rows, ReadableRouter r) ∧ ((routers.rows.map docRowid).Nodup ↔
      ∀ t, db.tables "session_router" = some t → (t.rows.map docRowid).Nodup) := by
    rcases hroutersOrigin with hold | ⟨hnone, hnil⟩
    · refine ⟨h.routers routers hold, fun hapart u hu => ?_, fun hall => hall routers hold⟩
      rw [hold] at hu
      rw [← Option.some.inj hu]
      exact hapart
    · rw [hnil]
      refine ⟨fun r hr => absurd hr List.not_mem_nil, fun _ u hu => ?_, fun _ => List.nodup_nil⟩
      rw [hnone] at hu
      exact absurd hu.symm (Option.some_ne_none u)
  -- The three parts of the migration, one after the other.
  obtain ⟨indexes, hfirstPart, hcoherent₂, hkept, hadded⟩ := migrateMemories_ok hcoherent ht
    (hneeded (by decide))
  have htables₂ : ∀ name, name ≠ "memories" →
      (withMemories db₁ t indexes).tables name = db₁.tables name :=
    fun _ hname => withMemories_tables hname
  obtain ⟨db₃, hsecondPart, hT⟩ := @migrateTables_ok (withMemories db₁ t indexes) hcoherent₂
    vectors metrics facts cards ((htables₂ _ (by decide)).trans hvectors)
    ((htables₂ _ (by decide)).trans hmetrics) ((htables₂ _ (by decide)).trans hstated)
    ((htables₂ _ (by decide)).trans hcards) hfactsNeeded
  have hmemories₃ : db₃.tables "memories" = some (upgradedMemories db₁.userVersion t) := by
    rw [hT.others _ (by decide)]
    exact setTable_same db₁ "memories" _
  have hversion₃ : db₃.userVersion < schemaVersion := by
    rw [hT.userVersion]
    exact hversion
  obtain ⟨hkeyed, hrows⟩ := @upgradedMemories_hashable db₁.userVersion t hneeded hmemories.1
    hmemories.2
  obtain ⟨hthirdPart, hC⟩ := @migrateContents_iff sha256 db₃ hversion₃ hT.coherent _ routers docs
    hmemories₃
    (by rw [hT.others _ (by decide), htables₂ _ (by decide), hsessions])
    (by rw [hT.others _ (by decide), htables₂ _ (by decide), hdocs]) hkeyed hrows hreadable.1
  -- The opening comes down to the last part, since the others succeed.
  have hinit : initSchema sha256 db = migrateContents sha256 db₃ := by
    have hnewer : ¬ schemaVersion < db.userVersion := not_lt_of_gt h.older
    unfold initSchema
    rw [if_neg hnewer]
    show (executeBatch db schemaStatements >>= _) = _
    rw [hfirst, ok_bind, hsecond, ok_bind]
    unfold migrate
    rw [hfirstPart, ok_bind]
    show (migrateTables (withMemories db₁ t indexes) >>= _) = _
    rw [hsecondPart, ok_bind]
  rw [hinit]
  exact ⟨hthirdPart.trans hreadable.2, fun db₄ hdb₄ =>
    ⟨current_of_migrated hsome hindexes ht hkept hadded hT (hC db₄ hdb₄),
      opened_of_migrated ht hT (hC db₄ hdb₄)⟩⟩

/-- An older database opens if and only if it is openable, and becomes one of the current version
then. -/
theorem Aged.initSchema_iff {db : Database} (h : Aged db) (sha256 : String → String) :
    ((∃ db', initSchema sha256 db = .ok db') ↔ Openable db) ∧
      ∀ db', initSchema sha256 db = .ok db' → Current db' ∧
        Opened sha256 (db.withSchema createdSchema) db' := by
  by_cases hfacts : ∀ t, db.tables "fact_versions" = some t → "recorded_at_ms" ∈ t.columns
  · obtain ⟨hiff, hopened⟩ := h.initSchema_iff_routers hfacts sha256
    exact ⟨hiff.trans ⟨fun hrouters => ⟨hfacts, hrouters⟩, fun hopen => hopen.routers⟩, hopened⟩
  · rw [not_forall] at hfacts
    obtain ⟨t, hfacts⟩ := hfacts
    rw [Classical.not_imp] at hfacts
    obtain ⟨error, herror⟩ := h.executeBatch_of_unrecorded hfacts.1 hfacts.2
    have hinit : initSchema sha256 db = .error error := by
      have hnewer : ¬ schemaVersion < db.userVersion := not_lt_of_gt h.older
      unfold initSchema
      rw [if_neg hnewer]
      show (executeBatch db schemaStatements >>= _) = _
      rw [herror]
      rfl
    rw [hinit]
    exact ⟨⟨fun ⟨_, hok⟩ => absurd hok (by simp), fun hopen =>
      absurd (hopen.facts t hfacts.1) hfacts.2⟩, fun _ hok => absurd hok (by simp)⟩

/-! ## The rows that are kept -/

/-- The tables that hold memories and what is derived from them. -/
def keptTables : List String :=
  ["memories", "fact_versions", "memory_cards", "edges", "vector_lookup", "session_router"]

/-- Opening `db` succeeds, leaves a database of the current version with every row of `db` that is
to be kept, and changes nothing the second time. `becomes table column r v` is said of the value `v`
that a row `r` has in an old column afterwards. -/
structure Opens (sha256 : String → String) (becomes : String → String → Row → Value → Prop)
    (db db' : Database) : Prop where
  opened : initSchema sha256 db = .ok db'
  userVersion : db'.userVersion = schemaVersion
  kept : ∀ table ∈ keptTables, ∀ t, db.tables table = some t → ∃ t' g,
    db'.tables table = some t' ∧ t.columns ⊆ t'.columns ∧ t'.rows = t.rows.map g ∧
      ∀ r ∈ t.rows, ∀ column ∈ t.columns, becomes table column r (g r column)
  again : initSchema sha256 db' = .ok db'

/-- The columns of other tables are kept as they are. -/
theorem migratedValue_of_ne {table : String} (hmemories : table ≠ "memories")
    (hfacts : table ≠ "fact_versions") (sha256 : String → String) (version : ℤ) (column : String)
    (r : Row) : migratedValue sha256 version table column r = r column := by
  unfold migratedValue
  rw [if_neg fun h => hmemories (Prod.mk.inj h).1, if_neg fun h => hmemories (Prod.mk.inj h).1,
    if_neg fun h => hmemories (Prod.mk.inj h).1, if_neg fun h => hfacts (Prod.mk.inj h).1]

/-- The rows of the fact versions, each with the default of its new column. -/
theorem exists_upgradedFacts_rows (t : DataTable) :
    ∃ g : Row → Row, (∀ r, ∀ column ∈ t.columns, g r column = r column) ∧
      (upgradedFacts t).rows = t.rows.map fun r => recordWhenStated (g r) := by
  obtain ⟨g, hkept, -, hrows⟩ := t.exists_withColumns_rows [("recorded_at_ms", .null)]
  refine ⟨g, hkept, ?_⟩
  unfold upgradedFacts
  generalize t.withColumns [("recorded_at_ms", .null)] = all at hrows ⊢
  dsimp only
  rw [hrows, List.map_map]
  rfl

/-- The values of a fact version after the migration. -/
theorem recordWhenStated_apply (sha256 : String → String) (version : ℤ) (column : String)
    (r : Row) :
    recordWhenStated r column = migratedValue sha256 version "fact_versions" column r := by
  unfold migratedValue
  simp only [Prod.mk.injEq, true_and]
  rw [if_neg fun h => absurd h.1 (by decide), if_neg fun h => absurd h.1 (by decide),
    if_neg fun h => absurd h.1 (by decide)]
  by_cases hrecorded : column = "recorded_at_ms"
  · rw [if_pos hrecorded]
  · rw [if_neg hrecorded, recordWhenStated_of_ne hrecorded]

/-- An older database opens, unless its fact versions lack the column of an index that is created
first or two of its session routers have one row identifier. -/
theorem aged_opens {db : Database} (h : Aged db) (hopen : Openable db)
    (sha256 : String → String) :
    ∃ db', Opens sha256 (fun table column r v =>
      v = migratedValue sha256 db.userVersion table column r) db db' := by
  obtain ⟨hiff, hall⟩ := h.initSchema_iff sha256
  obtain ⟨db', hopened⟩ := hiff.mpr hopen
  obtain ⟨hcurrent, htables⟩ := hall db' hopened
  refine ⟨db', hopened, hcurrent.userVersion, ?_, hcurrent.initSchema_eq sha256⟩
  intro table htable t ht
  have hold : (db.withSchema createdSchema).tables table = some t := by
    show (db.tables table).or _ = some t
    rw [ht, Option.some_or]
  -- The table has the columns that its change reads.
  have hneeds : ∀ needed, ((columnsOf createdSchema table).any fun declared => needed.all
      fun column => column ∈ declared && (table, column) ∉ addedColumns) = true →
        needed ⊆ t.columns := by
    intro needed hneeded
    obtain ⟨t', ht', hsub, -⟩ := h.exists_table table needed hneeded
    rw [hold] at ht'
    rw [Option.some.inj ht']
    exact hsub
  -- A table whose rows are as they were, but for new columns.
  have hadded : ∀ columns, table ≠ "memories" → table ≠ "fact_versions" →
      db'.tables table = some (t.withColumns columns) → ∃ t' g, db'.tables table = some t' ∧
        t.columns ⊆ t'.columns ∧ t'.rows = t.rows.map g ∧ ∀ r ∈ t.rows, ∀ column ∈ t.columns,
          g r column = migratedValue sha256 db.userVersion table column r := by
    intro columns hmemories hfacts ht'
    obtain ⟨g, hkept, -, hrows⟩ := t.exists_withColumns_rows columns
    refine ⟨_, g, ht', fun column hcolumn => DataTable.mem_withColumns.mpr (.inl hcolumn), hrows,
      fun r _ column hcolumn => ?_⟩
    rw [migratedValue_of_ne hmemories hfacts, hkept r column hcolumn]
  unfold keptTables at htable
  simp only [List.mem_cons, List.not_mem_nil, or_false] at htable
  -- The six tables that keep their rows.
  rcases htable with rfl | rfl | rfl | rfl | rfl | rfl
  · obtain ⟨g, hkept, -, hrows⟩ := exists_migratedMemories_rows sha256 db.userVersion t
    refine ⟨_, _, by rw [htables.memories, hold]; rfl, ?_, hrows, fun r _ column hcolumn => ?_⟩
    · intro column hcolumn
      rw [migratedMemories_columns, mem_upgradedMemories]
      exact .inl hcolumn
    · rw [migratedMemory_apply]
      exact migratedValue_congr (hkept r) (fun _ => hneeds _ (by decide +kernel))
        (fun h => absurd h (by decide)) hcolumn
  · obtain ⟨g, hkept, hrows⟩ := exists_upgradedFacts_rows t
    refine ⟨_, _, by rw [htables.facts, hold]; rfl, ?_, hrows, fun r _ column hcolumn => ?_⟩
    · exact fun column hcolumn => DataTable.mem_withColumns.mpr (.inl hcolumn)
    · rw [recordWhenStated_apply sha256 db.userVersion]
      refine migratedValue_congr (hkept r) (fun h => absurd h (by decide)) (fun _ => ?_) hcolumn
      exact hneeds ["timestamp_ms"] (by decide +kernel) List.mem_cons_self
  · exact hadded cardColumns (by decide) (by decide) (by rw [htables.cards, hold]; rfl)
  · exact hadded [] (by decide) (by decide) (by rw [htables.edges, hold]; rfl)
  · exact hadded [("embedding", .null)] (by decide) (by decide) (by rw [htables.vectors, hold]; rfl)
  · exact hadded [] (by decide) (by decide) (by rw [htables.routers, hold]; rfl)

/-! ## Databases that do not open, or not as they were -/

/-- A row with the values of some columns. -/
def rowOf (cells : List (String × Value)) : Row := fun column =>
  (cells.lookup column).getD .null

/-- A database of some tables, without indexes. -/
def databaseOf (version : ℤ) (tables : List (String × DataTable)) : Database where
  userVersion := version
  tables name := tables.lookup name
  indexes := []

/-- A table has the columns of the current one, but for some that the migration adds. -/
def agedColumns (table : String) (columns : List String) : Bool :=
  ((columnsOf createdSchema table).getD []).all fun column =>
    column ∈ columns || isAdded table column

/-- A table of a list, found by its name. -/
theorem mem_of_lookup {tables : List (String × DataTable)} {name : String} {t : DataTable}
    (h : tables.lookup name = some t) : (name, t) ∈ tables := by
  induction tables with
  | nil => exact absurd h (by simp)
  | cons first rest ih =>
    rw [List.lookup_cons] at h
    by_cases hname : name = first.1
    · rw [hname, beq_self_eq_true] at h
      rw [hname, ← Option.some.inj h]
      exact List.mem_cons_self
    · rw [beq_false_of_ne hname] at h
      exact List.mem_cons_of_mem _ (ih h)

/-- What makes the database of some tables an aged one. -/
theorem aged_databaseOf {version : ℤ} {tables : List (String × DataTable)}
    (hversion : version < schemaVersion)
    (hcolumns : ∀ entry ∈ tables, agedColumns entry.1 entry.2.columns = true)
    (hmemories : ∀ t, tables.lookup "memories" = some t → Keyed memoryRowid t.rows ∧
      ∀ r ∈ t.rows, ReadableMemory r ∧ 0 < memoryRowid r)
    (hrouters : ∀ t, tables.lookup "session_router" = some t → ∀ r ∈ t.rows, ReadableRouter r) :
    Aged (databaseOf version tables) where
  older := hversion
  columns := by
    intro table t declared ht hdeclared column hcolumn
    have hall := hcolumns (table, t) (mem_of_lookup ht)
    unfold agedColumns at hall
    rw [hdeclared, Option.getD_some, List.all_eq_true] at hall
    have hone := hall column hcolumn
    rw [Bool.or_eq_true] at hone
    exact hone.imp of_decide_eq_true isAdded_iff.mp
  indexes _ hindex := absurd hindex List.not_mem_nil
  indexColumns _ _ _ _ hindex := absurd hindex Bool.false_ne_true
  memories := hmemories
  routers := hrouters

/-- The columns of the current table of memories. -/
def allMemoryColumns : List String :=
  ["rowid", "memory_id", "entity_id", "content", "kind", "content_hash", "created_at_ms",
    "recorded_at_ms", "expires_at_ms", "session_id", "turn_index", "role", "parent_memory_id",
    "indexed"]

/-- A database with one memory, of a version and with the time and the flag that it has. -/
def oneMemory (version recorded indexed : ℤ) : Database :=
  databaseOf version [("memories", ⟨allMemoryColumns, [rowOf [("rowid", .integer 1),
    ("memory_id", .text "legacy::s1::0"), ("entity_id", .text "legacy"),
    ("content", .text "a memory written by an older build"), ("kind", .text "fact"),
    ("content_hash", .text ""), ("created_at_ms", .integer 100),
    ("recorded_at_ms", .integer recorded), ("session_id", .text "s1"), ("turn_index", .integer 0),
    ("role", .text ""), ("indexed", .integer indexed)]]⟩)]

/-- A database whose fact versions are not recorded. -/
def unrecordedFacts : Database :=
  databaseOf 6 [("fact_versions", ⟨["fact_key", "memory_id", "entity_id", "subject", "predicate",
    "object", "status", "timestamp_ms", "superseded_by", "supersedes", "valid_from_ms",
    "valid_to_ms"], []⟩)]

/-- A database with two routers whose names and sessions read the same one after the other. -/
def samePath : Database :=
  databaseOf 7 [("session_router", ⟨["session_id", "entity_id", "record_json", "router_text",
    "created_at_ms", "updated_at_ms"],
    [rowOf [("session_id", .text "c"), ("entity_id", .text "a::b"), ("record_json", .text "{}"),
      ("router_text", .text "")],
    rowOf [("session_id", .text "b::c"), ("entity_id", .text "a"), ("record_json", .text "{}"),
      ("router_text", .text "")]]⟩)]

/-- The one memory meets the constraints. -/
theorem aged_oneMemory {version : ℤ} (hversion : version < schemaVersion) (recorded indexed : ℤ) :
    Aged (oneMemory version recorded indexed) := by
  refine aged_databaseOf hversion ?_ ?_ fun t ht => absurd ht.symm (Option.some_ne_none t)
  · intro entry hentry
    rw [List.mem_singleton.mp hentry]
    show agedColumns "memories" allMemoryColumns = true
    decide +kernel
  · intro t ht
    rw [← Option.some.inj ht]
    refine ⟨List.nodup_singleton _, fun r hr => ?_⟩
    rw [List.mem_singleton.mp hr]
    refine ⟨fun column hcolumn => ?_, Int.one_pos⟩
    simp only [List.mem_cons, List.not_mem_nil, or_false] at hcolumn
    rcases hcolumn with rfl | rfl | rfl
    all_goals exact ⟨_, rfl⟩

/-- The database without recorded facts has no rows. -/
theorem aged_unrecordedFacts : Aged unrecordedFacts := by
  refine aged_databaseOf (by decide) ?_ (fun t ht => absurd ht.symm (Option.some_ne_none t))
    fun t ht => absurd ht.symm (Option.some_ne_none t)
  intro entry hentry
  rw [List.mem_singleton.mp hentry]
  decide +kernel

/-- The two routers meet the constraints. -/
theorem aged_samePath : Aged samePath := by
  refine aged_databaseOf (by decide) ?_ (fun t ht => absurd ht.symm (Option.some_ne_none t)) ?_
  · intro entry hentry
    rw [List.mem_singleton.mp hentry]
    decide +kernel
  · intro t ht r hr column hcolumn
    rw [← Option.some.inj ht] at hr
    simp only [List.mem_cons, List.not_mem_nil, or_false] at hr hcolumn
    rcases hr with rfl | rfl
    all_goals
      rcases hcolumn with rfl | rfl | rfl
      all_goals exact ⟨_, rfl⟩

/-- The values of a column of the memories after a database is opened. -/
def openedMemories (sha256 : String → String) (db : Database) (column : String) :
    Option (List Value) :=
  ((initSchema sha256 db).toOption.bind fun db' => db'.tables "memories").map fun t =>
    t.rows.map fun r => r column

/-- What a column of the memories has after opening is read back. -/
theorem Opens.openedMemories_eq {sha256 : String → String}
    {becomes : String → String → Row → Value → Prop} {db db' : Database}
    (h : Opens sha256 becomes db db') {t : DataTable} (ht : db.tables "memories" = some t)
    (column : String) : ∃ g : Row → Row,
      openedMemories sha256 db column = some (t.rows.map fun r => g r column) ∧
        (column ∈ t.columns → ∀ r ∈ t.rows, becomes "memories" column r (g r column)) := by
  obtain ⟨t', g, ht', -, hrows, hbecomes⟩ := h.kept "memories" (by decide) t ht
  refine ⟨g, ?_, fun hcolumn r hr => hbecomes r hr column hcolumn⟩
  unfold openedMemories
  rw [h.opened]
  show Option.map _ (db'.tables "memories") = _
  rw [ht', Option.map_some, hrows, List.map_map]
  rfl

/-- A database does not open if opening it gives nothing. -/
theorem not_opened {sha256 : String → String} {db : Database}
    (h : (initSchema sha256 db).toOption.isSome = false) :
    ¬ ∃ db', initSchema sha256 db = .ok db' := by
  rintro ⟨db', hopened⟩
  rw [hopened] at h
  exact Bool.noConfusion h

/-- One memory does not keep a value that opening replaces by another. -/
theorem not_opens_oneMemory {version recorded indexed : ℤ} {column : String} {before after : Value}
    (hcolumn : column ∈ allMemoryColumns) (hhash : column ≠ "content_hash") (hne : after ≠ before)
    (hafter : openedMemories id (oneMemory version recorded indexed) column = some [after])
    (hbefore : ((oneMemory version recorded indexed).tables "memories").map (fun t =>
      t.rows.map fun r => r column) = some [before]) :
    ¬ ∃ db', Opens id (fun table column r v =>
      (table, column) = ("memories", "content_hash") ∨ v = r column)
        (oneMemory version recorded indexed) db' := by
  rintro ⟨db', h⟩
  obtain ⟨g, hopened, hsame⟩ := h.openedMemories_eq rfl column
  have hkept := (hsame hcolumn _ List.mem_cons_self).resolve_left fun hpair =>
    hhash (Prod.mk.inj hpair).2
  rw [hafter] at hopened
  have hfirst := (List.cons.inj (Option.some.inj hopened)).1
  have hsecond := (List.cons.inj (Option.some.inj hbefore)).1
  exact hne (hfirst.trans (hkept.trans hsecond))

/-- Opening an older database does not keep all values but the hashes: below version 4 the flags
are set, and times that are 0 are replaced. Nor does every older database open. -/
theorem not_opens_as_it_was :
    (Aged (oneMemory 3 100 0) ∧ ¬ ∃ db', Opens id (fun table column r v =>
      (table, column) = ("memories", "content_hash") ∨ v = r column) (oneMemory 3 100 0) db') ∧
    (Aged (oneMemory 6 0 1) ∧ ¬ ∃ db', Opens id (fun table column r v =>
      (table, column) = ("memories", "content_hash") ∨ v = r column) (oneMemory 6 0 1) db') ∧
    (Aged unrecordedFacts ∧ ¬ ∃ db', initSchema id unrecordedFacts = .ok db') ∧
    Aged samePath ∧ ¬ ∃ db', initSchema id samePath = .ok db' := by
  refine ⟨⟨aged_oneMemory (by decide) 100 0, ?_⟩, ⟨aged_oneMemory (by decide) 0 1, ?_⟩,
    ⟨aged_unrecordedFacts, not_opened ?_⟩, aged_samePath, not_opened ?_⟩
  · exact @not_opens_oneMemory 3 100 0 "indexed" (.integer 0) (.integer 1) (by decide) (by decide)
      (by decide) (by decide +kernel) rfl
  · exact @not_opens_oneMemory 6 0 1 "recorded_at_ms" (.integer 0) (.integer 100) (by decide)
      (by decide) (by decide) (by decide +kernel) rfl
  · decide +kernel
  · decide +kernel

/-- A database of the first version: its memories lack all columns that came later. -/
def firstBuild : Database :=
  databaseOf 1 [
    ("memories", ⟨["rowid", "memory_id", "entity_id", "content", "kind", "created_at_ms"],
      [rowOf [("rowid", .integer 1), ("memory_id", .text "legacy::s1::0"),
        ("entity_id", .text "legacy"), ("content", .text "a memory written by an older build"),
        ("kind", .text "fact"), ("created_at_ms", .integer 100)]]⟩),
    ("fact_versions", ⟨["fact_key", "memory_id", "entity_id", "subject", "predicate", "object",
      "status", "timestamp_ms", "superseded_by", "supersedes", "valid_from_ms", "valid_to_ms",
      "recorded_at_ms"], [rowOf [("fact_key", .text "k"), ("memory_id", .text "legacy::s1::0"),
        ("entity_id", .text "legacy"), ("timestamp_ms", .integer 100)]]⟩),
    ("session_router", ⟨["session_id", "entity_id", "record_json", "router_text", "created_at_ms",
      "updated_at_ms"], [rowOf [("session_id", .text "s1"), ("entity_id", .text "legacy"),
        ("record_json", .text "{}"), ("router_text", .text "")]]⟩)]

/-- The rows of the first version meet the constraints. -/
theorem aged_firstBuild : Aged firstBuild := by
  refine aged_databaseOf (by decide) ?_ ?_ ?_
  · intro entry hentry
    simp only [List.mem_cons, List.not_mem_nil, or_false] at hentry
    rcases hentry with rfl | rfl | rfl
    all_goals decide +kernel
  · intro t ht
    rw [← Option.some.inj ht]
    refine ⟨List.nodup_singleton _, fun r hr => ?_⟩
    rw [List.mem_singleton.mp hr]
    refine ⟨fun column hcolumn => ?_, Int.one_pos⟩
    simp only [List.mem_cons, List.not_mem_nil, or_false] at hcolumn
    rcases hcolumn with rfl | rfl | rfl
    all_goals exact ⟨_, rfl⟩
  · intro t ht r hr column hcolumn
    rw [← Option.some.inj ht] at hr
    rw [List.mem_singleton.mp hr]
    simp only [List.mem_cons, List.not_mem_nil, or_false] at hcolumn
    rcases hcolumn with rfl | rfl | rfl
    all_goals exact ⟨_, rfl⟩

/-- The database of the first version opens. -/
theorem firstBuild_opens : ∃ db', Opens id (fun table column r v =>
    v = migratedValue id 1 table column r) firstBuild db' :=
  aged_opens aged_firstBuild ⟨fun t ht => by rw [← Option.some.inj ht]; decide,
    fun t ht => by rw [← Option.some.inj ht]; exact List.nodup_singleton _⟩ id

end Tellodb
