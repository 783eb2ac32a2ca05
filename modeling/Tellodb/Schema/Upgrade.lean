import Tellodb.Schema.Rehash

/-!
# What opening an older database does

`Aged` is a database of an older version: its tables have the columns of the current ones, but for
some of those that the migration adds. Each part of the migration is described by what it leaves of
the tables that it changes (`migrateMemories_ok`, `migrateTables_ok`, `migrateContents_iff`);
`Current.initSchema_eq` says of which databases nothing is changed. -/

namespace Tellodb

open Relational Database

/-! ## Indexes -/

/-- The indexes that the migration creates. -/
def migrationIndexes : List Statement := [
  .createIndex "idx_memories_content_hash" "memories" ["content_hash"],
  .createIndex "idx_memories_recorded_at" "memories" ["recorded_at_ms"],
  .createIndex "idx_memories_expiry" "memories" ["expires_at_ms"],
  .createIndex "idx_memories_session_turn" "memories" ["entity_id", "session_id", "turn_index"],
  .createIndex "idx_memories_parent" "memories" ["parent_memory_id"],
  .createIndex "idx_fact_versions_memory" "fact_versions" ["memory_id"],
  .createIndex "idx_fact_versions_order" "fact_versions"
    ["fact_key", "entity_id", "timestamp_ms", "recorded_at_ms"]]

/-- The current indexes, each with its table. -/
def declaredIndexes : List (String × String) :=
  indexesOf (schemaStatements ++ metricsDdl ++ migrationIndexes)

/-- An index has one table. -/
theorem declaredIndexes_unique : ∀ a ∈ declaredIndexes, ∀ b ∈ declaredIndexes, a.1 = b.1 → a = b := by
  decide +kernel

/-- Indexes of the current names are on the current tables. -/
def Coherent (indexes : List (String × String)) : Prop :=
  ∀ index ∈ indexes, ∀ declared ∈ declaredIndexes, index.1 = declared.1 → index = declared

/-- The current indexes of one database are those of another. -/
def KeepsDeclared (before after : List (String × String)) : Prop :=
  ∀ declared ∈ declaredIndexes, declared ∈ before → declared ∈ after

/-- The indexes of one table, each with its name and columns. -/
def indexesOn (table : String) (items : List (String × List String)) : List Statement :=
  items.map fun item => .createIndex item.1 table item.2

/-- What the creation of current indexes on a table leaves of the indexes. -/
theorem exists_createIndexes {db : Database} (hdb : Coherent db.indexes) (table : String)
    (t : DataTable) (ht : db.tables table = some t) (items : List (String × List String))
    (hcolumns : ∀ item ∈ items, item.2 ⊆ t.columns)
    (hdeclared : indexesOf (indexesOn table items) ⊆ declaredIndexes) :
    ∃ indexes, executeBatch db (indexesOn table items) = .ok (db.withIndexes indexes) ∧
      Coherent indexes ∧ db.indexes ⊆ indexes ∧ indexesOf (indexesOn table items) ⊆ indexes := by
  obtain ⟨indexes, hbatch, hkept, hnew, hnamed⟩ :=
    @executeBatch_indexes db (indexesOn table items) (by
      intro statement hstatement
      obtain ⟨item, hitem, rfl⟩ := List.mem_map.mp hstatement
      exact ⟨item.1, table, item.2, t, rfl, ht, hcolumns item hitem⟩)
  have hcoherent : Coherent indexes := by
    intro index hindex declared hmem hname
    rcases hnew index hindex with hold | hadded
    · exact hdb index hold declared hmem hname
    · exact declaredIndexes_unique index (hdeclared hadded) declared hmem hname
  refine ⟨indexes, hbatch, hcoherent, hkept, fun index hindex => ?_⟩
  obtain ⟨index', hindex', hname⟩ := hnamed index hindex
  rw [← hcoherent index' hindex' index (hdeclared hindex) hname]
  exact hindex'

/-! ## The memories -/

/-- The table of memories after the columns are added and the flags are set. -/
def upgradedMemories (version : ℤ) (t : DataTable) : DataTable :=
  let t := (t.withColumns [("content_hash", .text "")]).withColumns memoryColumns
  { t with rows := t.rows.map fun r =>
      if version < 4 then markRow (recordWhenCreated r) else recordWhenCreated r }

/-- The columns of the memories after the migration. -/
theorem mem_upgradedMemories {version : ℤ} {t : DataTable} {column : String} :
    column ∈ (upgradedMemories version t).columns ↔
      column ∈ t.columns ∨ column = "content_hash" ∨ column ∈ memoryColumns.map Prod.fst := by
  rw [upgradedMemories, DataTable.mem_withColumns, DataTable.mem_withColumns, or_assoc,
    List.map_singleton, List.mem_singleton]

/-- The first part of the migration. -/
theorem migrateMemories_ok {db : Database} (hdb : Coherent db.indexes) {t : DataTable}
    (ht : db.tables "memories" = some t) (hentity : "entity_id" ∈ t.columns) :
    ∃ indexes, migrateMemories db = .ok
        ((db.setTable "memories" (some (upgradedMemories db.userVersion t))).withIndexes
          indexes) ∧
      Coherent indexes ∧ db.indexes ⊆ indexes ∧
      indexesOf (migrationIndexes.take 5) ⊆ indexes := by
  -- The table with the hash, and with the other columns.
  generalize hhash : t.withColumns [("content_hash", .text "")] = hash
  have hhashcolumns : ∀ column, column ∈ hash.columns ↔ column ∈ t.columns ∨
      column = "content_hash" := by
    intro column
    rw [← hhash, DataTable.mem_withColumns]
    simp
  generalize hall : hash.withColumns memoryColumns = all
  have hallcolumns : ∀ column, column ∈ all.columns ↔ column ∈ hash.columns ∨
      column ∈ memoryColumns.map Prod.fst := by
    intro column
    rw [← hall, DataTable.mem_withColumns]
  -- The columns of the indexes are there, by the table itself or by what was added.
  have hsession : ["entity_id", "session_id", "turn_index"] ⊆ all.columns := by
    intro column hcolumn
    simp only [List.mem_cons, List.not_mem_nil, or_false] at hcolumn
    rcases hcolumn with rfl | rfl | rfl
    · exact (hallcolumns _).mpr (.inl ((hhashcolumns _).mpr (.inl hentity)))
    · exact (hallcolumns _).mpr (.inr (by decide))
    · exact (hallcolumns _).mpr (.inr (by decide))
  have hother : ∀ column ∈ memoryColumns.map Prod.fst, column ∈ all.columns :=
    fun column hcolumn => (hallcolumns column).mpr (.inr hcolumn)
  have hupgraded : upgradedMemories db.userVersion t = ⟨all.columns, all.rows.map fun r =>
      if db.userVersion < 4 then markRow (recordWhenCreated r) else recordWhenCreated r⟩ := by
    rw [upgradedMemories, hhash, hall]
  rw [hupgraded]
  have hset : ∀ t indexes, ((db.setTable "memories" t).withIndexes indexes).tables "memories" = t :=
    fun t _ => setTable_same db "memories" t
  -- The indexes come in three batches, each one after the columns that it needs.
  obtain ⟨i₁, h₁, hc₁, hk₁, hn₁⟩ := exists_createIndexes
    (show Coherent (db.setTable "memories" (some hash)).indexes from hdb) "memories" hash
    (setTable_same db "memories" _) [("idx_memories_content_hash", ["content_hash"])]
    (by simp [hhashcolumns]) (by decide +kernel)
  obtain ⟨i₂, h₂, hc₂, hk₂, hn₂⟩ := exists_createIndexes
    (show Coherent ((db.setTable "memories" (some ⟨all.columns,
      all.rows.map recordWhenCreated⟩)).withIndexes i₁).indexes from hc₁) "memories" _ (hset _ _)
    [("idx_memories_recorded_at", ["recorded_at_ms"]), ("idx_memories_expiry", ["expires_at_ms"])]
    (by simp [hother, memoryColumns]) (by decide +kernel)
  obtain ⟨i₃, h₃, hc₃, hk₃, hn₃⟩ := exists_createIndexes
    (show Coherent ((db.setTable "memories" (some ⟨all.columns, all.rows.map fun r =>
      if db.userVersion < 4 then markRow (recordWhenCreated r)
      else recordWhenCreated r⟩)).withIndexes i₂).indexes from hc₂) "memories" _ (hset _ _)
    [("idx_memories_session_turn", ["entity_id", "session_id", "turn_index"]),
      ("idx_memories_parent", ["parent_memory_id"])]
    (by simp [hother, memoryColumns, hsession]) (by decide +kernel)
  refine ⟨i₃, ?_, hc₃, fun index hindex => hk₃ (hk₂ (hk₁ hindex)), ?_⟩
  · have h₁' : executeBatch (db.setTable "memories" (some hash))
        [.createIndex "idx_memories_content_hash" "memories" ["content_hash"]] =
          .ok ((db.setTable "memories" (some hash)).withIndexes i₁) := h₁
    unfold migrateMemories
    rw [addMissing_eq ht, ok_bind, hhash, h₁', ok_bind, addMissing_eq (hset (some hash) i₁),
      ok_bind, hall, withIndexes_setTable, setTable_setTable, updateRows_eq (hset (some all) i₁),
      withIndexes_setTable, setTable_setTable]
    have h₂' : executeBatch ((db.setTable "memories" (some ⟨all.columns,
        all.rows.map recordWhenCreated⟩)).withIndexes i₁)
        [.createIndex "idx_memories_recorded_at" "memories" ["recorded_at_ms"],
          .createIndex "idx_memories_expiry" "memories" ["expires_at_ms"]] =
        .ok ((db.setTable "memories" (some ⟨all.columns,
          all.rows.map recordWhenCreated⟩)).withIndexes i₂) := h₂
    dsimp only
    rw [h₂', ok_bind]
    refine Eq.trans ?_ h₃
    -- The flag is set below the version that brought it.
    refine congrArg (fun db => executeBatch db _) ?_
    by_cases hversion : db.userVersion < 4
    · simp only [if_pos hversion]
      rw [withIndexes_userVersion, setTable_userVersion, if_pos hversion,
        updateRows_eq (hset (some _) i₂), withIndexes_setTable, setTable_setTable, List.map_map]
      rfl
    · simp only [if_neg hversion]
      rw [withIndexes_userVersion, setTable_userVersion, if_neg hversion]
  · intro index hindex
    -- The declared indexes are those of the three batches.
    have hsplit : indexesOf (migrationIndexes.take 5) =
        indexesOf (indexesOn "memories" [("idx_memories_content_hash", ["content_hash"])]) ++
          (indexesOf (indexesOn "memories" [("idx_memories_recorded_at", ["recorded_at_ms"]),
            ("idx_memories_expiry", ["expires_at_ms"])]) ++
          indexesOf (indexesOn "memories"
            [("idx_memories_session_turn", ["entity_id", "session_id", "turn_index"]),
              ("idx_memories_parent", ["parent_memory_id"])])) := rfl
    rw [hsplit, List.mem_append, List.mem_append] at hindex
    rcases hindex with h | h | h
    · exact hk₃ (hk₂ (hn₁ h))
    · exact hk₃ (hn₂ h)
    · exact hn₃ h

/-! ## The other tables -/

/-- The index of the metrics is the only one on their table. -/
theorem declaredIndexes_metrics : ∀ declared ∈ declaredIndexes, declared.2 = "metrics" →
    declared = ("idx_metrics_entity_label", "metrics") := by
  decide +kernel

/-- The metrics are kept if they name their memory, and dropped otherwise. -/
theorem migrateMetrics_ok {db : Database} (hdb : Coherent db.indexes) {t : DataTable}
    (ht : db.tables "metrics" = some t) :
    ∃ t' indexes,
      migrateMetrics db = .ok ((db.setTable "metrics" (some t')).withIndexes indexes) ∧
      "memory_id" ∈ t'.columns ∧ Coherent indexes ∧ KeepsDeclared db.indexes indexes := by
  -- The table has the column, or it is dropped and created anew.
  by_cases hcolumn : db.hasColumn "metrics" "memory_id" = true
  · refine ⟨t, db.indexes, ?_, ?_, hdb, fun _ _ h => h⟩
    · rw [migrateMetrics, if_pos hcolumn, ← ht, setTable_self]
      rfl
    · unfold hasColumn at hcolumn
      rw [ht] at hcolumn
      exact of_decide_eq_true hcolumn
  · generalize hindexes : db.indexes.filter (fun index => index.2 ≠ "metrics") = indexes
    have hkept : ∀ index ∈ indexes, index ∈ db.indexes ∧ index.2 ≠ "metrics" := by
      intro index hindex
      rw [← hindexes] at hindex
      exact ⟨(List.mem_filter.mp hindex).1, of_decide_eq_true (List.mem_filter.mp hindex).2⟩
    -- No index of the name is left, since such an index is on the table.
    have hdeclared : ("idx_metrics_entity_label", "metrics") ∈ declaredIndexes := by decide +kernel
    have hnone : (indexes.any fun index => index.1 = "idx_metrics_entity_label") = false := by
      rw [List.any_eq_false]
      intro index hindex hname
      obtain ⟨hold, hne⟩ := hkept index hindex
      have hsame := hdb index hold _ hdeclared (of_decide_eq_true hname)
      rw [hsame] at hne
      exact hne rfl
    refine ⟨⟨["memory_id", "ordinal", "entity_id", "timestamp_ms", "label", "value", "unit",
      "source_text"], []⟩, indexes ++ [("idx_metrics_entity_label", "metrics")], ?_, by decide,
      ?_, ?_⟩
    -- The table is dropped, and its indexes with it.
    · have hdrop : db.execute (.dropTable "metrics") =
          .ok ((db.setTable "metrics" none).withIndexes indexes) := by
        rw [← hindexes]
        rfl
      -- It is created again.
      have hcreate : ((db.setTable "metrics" none).withIndexes indexes).execute
          (.createTable "metrics" ["memory_id", "ordinal", "entity_id", "timestamp_ms", "label",
            "value", "unit", "source_text"]) =
          .ok ((db.setTable "metrics" (some ⟨["memory_id", "ordinal", "entity_id", "timestamp_ms",
            "label", "value", "unit", "source_text"], []⟩)).withIndexes indexes) := by
        unfold execute
        simp
      rw [migrateMetrics, if_neg hcolumn, executeBatch_cons, hdrop, ok_bind]
      unfold metricsDdl
      rw [executeBatch_cons, hcreate, ok_bind, executeBatch_cons]
      unfold execute
      simp only [withIndexes_tables, setTable_tables, if_true]
      have hhas : ∀ t, ((db.setTable "metrics" t).withIndexes indexes).hasIndex
          "idx_metrics_entity_label" = false := fun _ => hnone
      rw [hhas]
      rfl
    · intro index hindex declared hmem hname
      -- The index is an old one on another table, or the new one.
      rcases List.mem_append.mp hindex with hindex | hindex
      · exact hdb index (hkept index hindex).1 declared hmem hname
      · rw [List.mem_singleton.mp hindex] at hname ⊢
        exact declaredIndexes_unique _ hdeclared declared hmem hname
    · intro declared hmem hold
      -- The only index that was declared on the metrics is created again.
      by_cases htable : declared.2 = "metrics"
      · rw [declaredIndexes_metrics declared hmem htable]
        exact List.mem_append_right _ List.mem_cons_self
      · rw [← hindexes]
        exact List.mem_append_left _ (List.mem_filter.mpr ⟨hold, decide_eq_true htable⟩)

/-- The table of fact versions after the migration. -/
def upgradedFacts (t : DataTable) : DataTable :=
  let t := t.withColumns [("recorded_at_ms", .null)]
  { t with rows := t.rows.map recordWhenStated }

/-- What the second part of the migration leaves. -/
structure TablesMigrated (db db' : Database) : Prop where
  userVersion : db'.userVersion = db.userVersion
  vectors : db'.tables "vector_lookup" =
    (db.tables "vector_lookup").map fun t => t.withColumns [("embedding", .null)]
  facts : db'.tables "fact_versions" = (db.tables "fact_versions").map upgradedFacts
  cards : db'.tables "memory_cards" =
    (db.tables "memory_cards").map fun t => t.withColumns cardColumns
  metrics : ∃ t, db'.tables "metrics" = some t ∧ "memory_id" ∈ t.columns
  others : ∀ name, name ∉ ["vector_lookup", "metrics", "fact_versions", "memory_cards"] →
    db'.tables name = db.tables name
  coherent : Coherent db'.indexes
  kept : KeepsDeclared db.indexes db'.indexes
  created : indexesOf (migrationIndexes.drop 5) ⊆ db'.indexes

/-- The second part of the migration. -/
theorem migrateTables_ok {db : Database} (hdb : Coherent db.indexes)
    {vectors metrics facts cards : DataTable}
    (hvectors : db.tables "vector_lookup" = some vectors)
    (hmetrics : db.tables "metrics" = some metrics)
    (hfacts : db.tables "fact_versions" = some facts)
    (hcards : db.tables "memory_cards" = some cards)
    (hcolumns : ["memory_id", "fact_key", "entity_id", "timestamp_ms"] ⊆ facts.columns) :
    ∃ db', migrateTables db = .ok db' ∧ TablesMigrated db db' := by
  -- The databases between the changes, each with a name.
  obtain ⟨db₁, hdb₁⟩ : ∃ db₁, db₁ = db.setTable "vector_lookup"
    (some (vectors.withColumns [("embedding", .null)])) := ⟨_, rfl⟩
  have hc₁ : Coherent db₁.indexes := by rw [hdb₁]; exact hdb
  obtain ⟨metrics', i₂, h₂, hmetrics', hc₂, hk₂⟩ := migrateMetrics_ok hc₁
    (show db₁.tables "metrics" = some metrics by rw [hdb₁]; simpa using hmetrics)
  obtain ⟨db₂, hdb₂⟩ : ∃ db₂, db₂ = (db₁.setTable "metrics" (some metrics')).withIndexes i₂ :=
    ⟨_, rfl⟩
  have hfacts₂ : db₂.tables "fact_versions" = some facts := by
    rw [hdb₂, hdb₁]
    simpa using hfacts
  obtain ⟨db₃, hdb₃⟩ : ∃ db₃, db₃ = db₂.setTable "fact_versions" (some (upgradedFacts facts)) :=
    ⟨_, rfl⟩
  have hcards₃ : db₃.tables "memory_cards" = some cards := by
    rw [hdb₃, hdb₂, hdb₁]
    simpa using hcards
  obtain ⟨db₄, hdb₄⟩ : ∃ db₄, db₄ = db₃.setTable "memory_cards"
    (some (cards.withColumns cardColumns)) := ⟨_, rfl⟩
  have hfacts₄ : db₄.tables "fact_versions" = some (upgradedFacts facts) := by
    rw [hdb₄, hdb₃]
    simp
  have hi₄ : db₄.indexes = i₂ := by
    rw [hdb₄, hdb₃, hdb₂]
    rfl
  -- The facts have their own columns and the new one.
  have hcolumns' : ∀ column, column ∈ facts.columns ∨ column = "recorded_at_ms" →
      column ∈ (upgradedFacts facts).columns := by
    intro column h
    rw [upgradedFacts, DataTable.mem_withColumns]
    simpa using h
  have hmem : ∀ column ∈ ["memory_id", "fact_key", "entity_id", "timestamp_ms"],
      column ∈ (upgradedFacts facts).columns := fun column h => hcolumns' column (.inl (hcolumns h))
  -- The indexes on the facts are created at the end.
  obtain ⟨i₅, h₅, hc₅, hk₅, hn₅⟩ := exists_createIndexes (by rw [hi₄]; exact hc₂) "fact_versions" _
    hfacts₄ [("idx_fact_versions_memory", ["memory_id"]),
      ("idx_fact_versions_order", ["fact_key", "entity_id", "timestamp_ms", "recorded_at_ms"])]
    (by simp [hmem, hcolumns']) (by decide +kernel)
  refine ⟨db₄.withIndexes i₅, ?_, ?_⟩
  · unfold migrateTables
    rw [addMissing_eq hvectors, ok_bind, ← hdb₁, h₂, ok_bind, ← hdb₂, addMissing_eq hfacts₂,
      ok_bind, updateRows_eq (setTable_same db₂ "fact_versions" _), setTable_setTable]
    have hupgraded : db₂.setTable "fact_versions" (some
        ⟨(facts.withColumns [("recorded_at_ms", .null)]).columns,
          (facts.withColumns [("recorded_at_ms", .null)]).rows.map recordWhenStated⟩) = db₃ := by
      rw [hdb₃, upgradedFacts]
    dsimp only
    rw [hupgraded, addMissing_eq hcards₃, ok_bind, ← hdb₄]
    exact h₅
  · constructor
    · rw [hdb₄, hdb₃, hdb₂, hdb₁]
      rfl
    · rw [hdb₄, hdb₃, hdb₂, hdb₁, hvectors]
      simp
    · rw [withIndexes_tables, hfacts₄, hfacts]
      rfl
    · rw [hdb₄, hcards]
      simp
    · refine ⟨metrics', ?_, hmetrics'⟩
      rw [hdb₄, hdb₃, hdb₂]
      simp
    -- The other tables are the same all along.
    · intro name hname
      simp only [List.mem_cons, List.not_mem_nil, or_false, not_or] at hname
      obtain ⟨h1, h2, h3, h4⟩ := hname
      rw [hdb₄, hdb₃, hdb₂, hdb₁]
      simp [h1, h2, h3, h4]
    · exact hc₅
    · intro declared hmem hold
      refine hk₅ ?_
      rw [hi₄]
      refine hk₂ declared hmem ?_
      rw [hdb₁]
      exact hold
    · exact hn₅

/-! ## The contents -/

/-- A router has texts where the migration reads texts. -/
def ReadableRouter (r : Row) : Prop :=
  ∀ column ∈ ["session_id", "entity_id", "router_text"], ∃ s, r column = .text s

/-- The row identifier of the document of a stored router. -/
def docRowid (r : Row) : Value :=
  routerDocRowid (textOf (r "entity_id")) (textOf (r "session_id"))

/-- The document of a router is inserted unless its row identifier is taken. -/
theorem insertRouterDoc_eq {r : Row} (hr : ReadableRouter r) (docs : List Row) :
    ∃ d, d "rowid" = docRowid r ∧ insertRouterDoc docs r =
      if docs.any fun d => d "rowid" = docRowid r then .error "constraint failed"
      else .ok (docs ++ [d]) := by
  obtain ⟨session, hsession⟩ := hr "session_id" (by simp)
  obtain ⟨entity, hentity⟩ := hr "entity_id" (by simp)
  obtain ⟨text, htext⟩ := hr "router_text" (by simp)
  have hrowid : docRowid r = routerDocRowid entity session := by
    unfold docRowid
    rw [hsession, hentity]
    rfl
  rw [hrowid]
  unfold insertRouterDoc getText
  simp only [hsession, hentity, htext, ok_bind]
  exact ⟨_, rfl, rfl⟩

/-- The documents of routers can all be inserted if and only if their row identifiers are apart. -/
theorem foldlM_insertRouterDoc_iff {routers : List Row} (hreadable : ∀ r ∈ routers, ReadableRouter r)
    (docs : List Row) : (∃ docs', routers.foldlM insertRouterDoc docs = .ok docs') ↔
      (routers.map docRowid).Nodup ∧ ∀ d ∈ docs, ∀ r ∈ routers, d "rowid" ≠ docRowid r := by
  induction routers generalizing docs with
  | nil => exact ⟨fun _ => ⟨List.nodup_nil, fun _ _ _ h => absurd h List.not_mem_nil⟩,
      fun _ => ⟨docs, rfl⟩⟩
  | cons r rest ih =>
    obtain ⟨d, hd, hinsert⟩ := insertRouterDoc_eq (hreadable r List.mem_cons_self) docs
    rw [List.foldlM_cons, hinsert, List.map_cons, List.nodup_cons]
    split
    · -- The row identifier is taken by a document of before.
      rename_i htaken
      obtain ⟨d', hd', hsame⟩ := List.any_eq_true.mp htaken
      constructor
      · rintro ⟨docs', h⟩
        exact absurd h (by simp [bind, Except.bind])
      · rintro ⟨-, hfree⟩
        exact absurd (of_decide_eq_true hsame) (hfree d' hd' r List.mem_cons_self)
    · rename_i hfree
      have hfree' : ∀ d' ∈ docs, d' "rowid" ≠ docRowid r := fun d' hd' hsame =>
        hfree (List.any_eq_true.mpr ⟨d', hd', decide_eq_true hsame⟩)
      rw [ok_bind, ih fun r hr => hreadable r (List.mem_cons_of_mem _ hr)]
      constructor
      · rintro ⟨hnodup, hrest⟩
        refine ⟨⟨fun hmem => ?_, hnodup⟩, fun d' hd' r' hr' => ?_⟩
        · obtain ⟨r', hr', hsame⟩ := List.mem_map.mp hmem
          exact hrest d (by simp) r' hr' (hd.trans hsame.symm)
        · rcases List.mem_cons.mp hr' with rfl | hr'
          · exact hfree' d' hd'
          · exact hrest d' (List.mem_append_left _ hd') r' hr'
      · rintro ⟨⟨hnew, hnodup⟩, hall⟩
        refine ⟨hnodup, fun d' hd' r' hr' => ?_⟩
        rcases List.mem_append.mp hd' with hd' | hd'
        · exact hall d' hd' r' (List.mem_cons_of_mem _ hr')
        · rw [List.mem_singleton.mp hd', hd]
          exact fun hsame => hnew (List.mem_map.mpr ⟨r', hr', hsame.symm⟩)

/-- What the third part of the migration leaves of a database of an older version. -/
structure ContentsMigrated (sha256 : String → String) (db db' : Database) : Prop where
  userVersion : db'.userVersion = schemaVersion
  memories : db'.tables "memories" = (db.tables "memories").map fun t =>
    if db.userVersion < 5 then { t with rows := t.rows.map (hashed sha256) } else t
  index : db'.tables "fts_memories" =
    if db.userVersion < 3 then some ⟨ftsMemoriesColumns, []⟩ else db.tables "fts_memories"
  routers : (db'.tables "fts_session_router").isSome
  retired : ∀ name ∈ retiredTables, db'.tables name = none
  others : ∀ name, name ∉ ["memories", "fts_memories", "fts_session_router"] →
    name ∉ retiredTables → db'.tables name = db.tables name
  coherent : Coherent db'.indexes
  kept : KeepsDeclared db.indexes db'.indexes
  unused : ∀ index ∈ db'.indexes, index.2 ∉ retiredTables

/-- The current indexes are on tables that the migration neither drops nor creates anew. -/
theorem declaredIndexes_kept : ∀ declared ∈ declaredIndexes, declared.2 ∉ retiredTables ∧
    declared.2 ≠ "fts_memories" := by
  decide +kernel

/-- The tables that the migration writes or creates anew are not dropped. -/
theorem retiredTables_apart :
    ∀ name ∈ retiredTables, name ∉ ["memories", "fts_memories", "fts_session_router"] := by
  decide

variable {sha256 : String → String}

/-- The step below version 5 hashes the memories. -/
theorem below_rehashMemories {db : Database} {t : DataTable} (ht : db.tables "memories" = some t)
    (hkeyed : Keyed memoryRowid t.rows)
    (hrows : ∀ r ∈ t.rows, ReadableMemory r ∧ 0 < memoryRowid r) (version : ℤ) :
    below 5 version (rehashMemories sha256) db = .ok (db.setTable "memories"
      (some (if version < 5 then { t with rows := t.rows.map (hashed sha256) } else t))) := by
  unfold below
  split
  · unfold rehashMemories
    simp only [ht]
    rw [rehash_ok hkeyed (fun r hr => (hrows r hr).1) fun r hr => (hrows r hr).2]
    rfl
  · rw [← ht, setTable_self]

/-- The step below version 3 leaves the index of the memories without documents. -/
theorem below_dropMemoryIndex (db : Database) (version : ℤ) :
    ∃ indexes, below 3 version dropMemoryIndex db =
        .ok ((db.setTable "fts_memories" (if version < 3 then some ⟨ftsMemoriesColumns, []⟩
          else db.tables "fts_memories")).withIndexes indexes) ∧
      indexes ⊆ db.indexes ∧ ∀ index ∈ db.indexes, index.2 ≠ "fts_memories" → index ∈ indexes := by
  unfold below
  split
  · refine ⟨db.indexes.filter fun index => index.2 ≠ "fts_memories", ?_,
      fun index hindex => (List.mem_filter.mp hindex).1, fun index hindex hne =>
        List.mem_filter.mpr ⟨hindex, decide_eq_true hne⟩⟩
    have hdrop : db.execute (.dropTable "fts_memories") =
        .ok ((db.setTable "fts_memories" none).withIndexes
          (db.indexes.filter fun index => index.2 ≠ "fts_memories")) := rfl
    unfold dropMemoryIndex
    rw [executeBatch_cons, hdrop, ok_bind, executeBatch_cons]
    unfold execute
    simp only [withIndexes_tables, setTable_same, withIndexes_setTable, setTable_setTable, ok_bind]
    rfl
  · refine ⟨db.indexes, ?_, List.Subset.refl _, fun _ h _ => h⟩
    rw [setTable_self]
    rfl

/-- The step below version 8 writes the documents of all routers if it can. -/
theorem rebuildRouterIndex_iff {db : Database} {routers docs : DataTable}
    (hrouters : db.tables "session_router" = some routers)
    (hdocs : db.tables "fts_session_router" = some docs)
    (hreadable : ∀ r ∈ routers.rows, ReadableRouter r) :
    ((∃ db', rebuildRouterIndex db = .ok db') ↔ (routers.rows.map docRowid).Nodup) ∧
      ∀ db', rebuildRouterIndex db = .ok db' → ∃ t, db' =
        { db.setTable "fts_session_router" (some t) with userVersion := schemaVersion } := by
  have hall := foldlM_insertRouterDoc_iff hreadable []
  have hrebuild : rebuildRouterIndex db = routers.rows.foldlM insertRouterDoc [] >>= fun rows =>
      .ok { db.setTable "fts_session_router" (some { docs with rows := rows }) with
        userVersion := 8 } := by
    unfold rebuildRouterIndex
    simp only [hrouters, hdocs]
    rfl
  rw [hrebuild]
  cases hfold : routers.rows.foldlM insertRouterDoc [] with
  | error e =>
    refine ⟨⟨fun ⟨db', h⟩ => absurd h (by simp [bind, Except.bind]), fun hnodup => ?_⟩,
      fun db' h => absurd h (by simp [bind, Except.bind])⟩
    obtain ⟨rows, hrows⟩ := hall.mpr ⟨hnodup, fun _ h => absurd h List.not_mem_nil⟩
    rw [hfold] at hrows
    exact absurd hrows (by simp)
  | ok rows =>
    refine ⟨⟨fun _ => (hall.mp ⟨rows, hfold⟩).1, fun _ => ⟨_, rfl⟩⟩, fun db' h => ?_⟩
    exact ⟨_, (Except.ok.inj h).symm⟩

/-- The database of the third part before the documents of the routers are written: with its hashes,
without the retired tables, and with a new index of memories. -/
structure BeforeRouters (sha256 : String → String) (db db' : Database) : Prop where
  contents : migrateContents sha256 db = rebuildRouterIndex db' >>= fun db =>
    .ok { db with userVersion := schemaVersion }
  memories : db'.tables "memories" = (db.tables "memories").map fun t =>
    if db.userVersion < 5 then { t with rows := t.rows.map (hashed sha256) } else t
  index : db'.tables "fts_memories" =
    if db.userVersion < 3 then some ⟨ftsMemoriesColumns, []⟩ else db.tables "fts_memories"
  retired : ∀ name ∈ retiredTables, db'.tables name = none
  others : ∀ name, name ∉ ["memories", "fts_memories"] → name ∉ retiredTables →
    db'.tables name = db.tables name
  coherent : Coherent db'.indexes
  kept : KeepsDeclared db.indexes db'.indexes
  unused : ∀ index ∈ db'.indexes, index.2 ∉ retiredTables

/-- The third part of the migration gets there. -/
theorem exists_beforeRouters {db : Database} (hversion : db.userVersion < schemaVersion)
    (hdb : Coherent db.indexes) {t : DataTable} (ht : db.tables "memories" = some t)
    (hkeyed : Keyed memoryRowid t.rows)
    (hrows : ∀ r ∈ t.rows, ReadableMemory r ∧ 0 < memoryRowid r) :
    ∃ db', BeforeRouters sha256 db db' := by
  -- The databases between the steps, each with a name.
  obtain ⟨hashes, hhashes⟩ : ∃ hashes, hashes = if db.userVersion < 5
    then { t with rows := t.rows.map (hashed sha256) } else t := ⟨_, rfl⟩
  obtain ⟨db₁, hdb₁⟩ : ∃ db₁, db₁ = db.setTable "memories" (some hashes) := ⟨_, rfl⟩
  obtain ⟨db₂, hdb₂⟩ : ∃ db₂ : Database, db₂ = { db₁ with
    tables := fun name => if name ∈ retiredTables then none else db₁.tables name
    indexes := db₁.indexes.filter fun index => index.2 ∉ retiredTables } := ⟨_, rfl⟩
  obtain ⟨indexes, hindex, hsub, hkept⟩ := below_dropMemoryIndex db₂ db.userVersion
  -- What the tables are before the index of the memories is dropped.
  have htables₂ : ∀ name, db₂.tables name = if name ∈ retiredTables then none
      else if name = "memories" then some hashes else db.tables name := by
    intro name
    rw [hdb₂, hdb₁]
    simp only [setTable_tables]
  have hindexes₂ : ∀ index, index ∈ db₂.indexes ↔
      index ∈ db.indexes ∧ index.2 ∉ retiredTables := by
    intro index
    rw [hdb₂, hdb₁]
    simp only [setTable_indexes, List.mem_filter, decide_eq_true_eq]
  -- The steps before the index of the routers succeed.
  have hcontents : migrateContents sha256 db = rebuildRouterIndex ((db₂.setTable "fts_memories"
      (if db.userVersion < 3 then some ⟨ftsMemoriesColumns, []⟩
        else db₂.tables "fts_memories")).withIndexes indexes) >>= fun db' =>
      .ok { db' with userVersion := schemaVersion } := by
    unfold migrateContents
    dsimp only
    rw [below_rehashMemories ht hkeyed hrows, ok_bind, ← hhashes, ← hdb₁, executeBatch_dropTables,
      ok_bind, ← hdb₂, hindex, ok_bind]
    unfold below
    rw [if_pos (show db.userVersion < 8 from hversion)]
    simp only [if_pos hversion]
    rfl
  refine ⟨_, hcontents, ?_, ?_, fun name hname => ?_, fun name hname hretired => ?_,
    fun index hmem => hdb index ((hindexes₂ index).mp (hsub hmem)).1,
    fun declared hmem hold => ?_, fun index hmem => ((hindexes₂ index).mp (hsub hmem)).2⟩
  -- The memories, their index, the retired tables and the others.
  · rw [withIndexes_tables, setTable_tables, if_neg (by decide), htables₂, if_neg (by decide),
      if_pos rfl, ht, hhashes]
    rfl
  · have hold : db₂.tables "fts_memories" = db.tables "fts_memories" := by
      rw [htables₂, if_neg (by decide), if_neg (by decide)]
    rw [withIndexes_tables, setTable_same, hold]
  · have hapart := retiredTables_apart name hname
    have hindexName : name ≠ "fts_memories" := fun h => hapart (by rw [h]; decide)
    rw [withIndexes_tables, setTable_tables, if_neg hindexName, htables₂, if_pos hname]
  · simp only [List.mem_cons, List.not_mem_nil, or_false, not_or] at hname
    rw [withIndexes_tables, setTable_tables, if_neg hname.2, htables₂, if_neg hretired,
      if_neg hname.1]
  -- An index that is declared is on a table that is kept.
  · obtain ⟨hretired, hmemories⟩ := declaredIndexes_kept declared hmem
    exact hkept declared ((hindexes₂ declared).mpr ⟨hold, hretired⟩) hmemories

/-- The documents of the routers complete the third part. -/
theorem BeforeRouters.contentsMigrated {db db₃ : Database} (h : BeforeRouters sha256 db db₃)
    (docs : DataTable) : ContentsMigrated sha256 db
      { db₃.setTable "fts_session_router" (some docs) with userVersion := schemaVersion } where
  userVersion := rfl
  memories := h.memories
  index := h.index
  routers := by
    show ((db₃.setTable "fts_session_router" (some docs)).tables "fts_session_router").isSome
    rw [setTable_same]
    rfl
  retired name hname := by
    have hapart := retiredTables_apart name hname
    have hrouters : name ≠ "fts_session_router" := fun h => hapart (by rw [h]; decide)
    show (db₃.setTable "fts_session_router" (some docs)).tables name = none
    rw [setTable_tables, if_neg hrouters, h.retired name hname]
  others name hname hretired := by
    simp only [List.mem_cons, List.not_mem_nil, or_false, not_or] at hname
    show (db₃.setTable "fts_session_router" (some docs)).tables name = _
    rw [setTable_tables, if_neg hname.2.2]
    exact h.others name (by simp [hname.1, hname.2.1]) hretired
  coherent := h.coherent
  kept := h.kept
  unused := h.unused

/-- The third part of the migration succeeds if the documents of the routers can be written. -/
theorem migrateContents_iff {db : Database} (hversion : db.userVersion < schemaVersion)
    (hdb : Coherent db.indexes) {t routers docs : DataTable}
    (ht : db.tables "memories" = some t) (hrouters : db.tables "session_router" = some routers)
    (hdocs : db.tables "fts_session_router" = some docs) (hkeyed : Keyed memoryRowid t.rows)
    (hrows : ∀ r ∈ t.rows, ReadableMemory r ∧ 0 < memoryRowid r)
    (hreadable : ∀ r ∈ routers.rows, ReadableRouter r) :
    ((∃ db', migrateContents sha256 db = .ok db') ↔ (routers.rows.map docRowid).Nodup) ∧
      ∀ db', migrateContents sha256 db = .ok db' → ContentsMigrated sha256 db db' := by
  obtain ⟨db₃, h₃⟩ := exists_beforeRouters hversion hdb ht hkeyed hrows
  obtain ⟨hrebuild, hrebuilt⟩ := rebuildRouterIndex_iff
    ((h₃.others _ (by decide) (by decide)).trans hrouters)
    ((h₃.others _ (by decide) (by decide)).trans hdocs) hreadable
  rw [h₃.contents]
  constructor
  · rw [← hrebuild]
    constructor
    -- The rebuilding of the index is the only step that can fail.
    · rintro ⟨db', h⟩
      obtain ⟨R, hR, -⟩ := exists_of_bind h
      exact ⟨R, hR⟩
    · rintro ⟨R, hR⟩
      rw [hR]
      exact ⟨_, rfl⟩
  · intro db' h
    obtain ⟨R, hR, h⟩ := exists_of_bind h
    obtain ⟨docs', rfl⟩ := hrebuilt R hR
    rw [← Except.ok.inj h]
    exact h₃.contentsMigrated docs'

/-! ## Databases of the current version -/

/-- All statements that create tables and indexes. -/
def currentSchema : List Statement :=
  schemaStatements ++ metricsDdl ++ migrationIndexes

/-- A database that lacks nothing that the migration adds, and whose rows have it. -/
structure Current (db : Database) : Prop where
  userVersion : db.userVersion = schemaVersion
  tables : ∀ name, (columnsOf currentSchema name).isSome → (db.tables name).isSome
  indexes : declaredIndexes ⊆ db.indexes
  memories : ∀ column ∈ ("content_hash", Value.text "") :: memoryColumns,
    db.hasColumn "memories" column.1 = true
  vectors : db.hasColumn "vector_lookup" "embedding" = true
  metrics : db.hasColumn "metrics" "memory_id" = true
  facts : db.hasColumn "fact_versions" "recorded_at_ms" = true
  cards : ∀ column ∈ cardColumns, db.hasColumn "memory_cards" column.1 = true
  recorded : ∀ t, db.tables "memories" = some t → ∀ r ∈ t.rows, recordWhenCreated r = r
  stated : ∀ t, db.tables "fact_versions" = some t → ∀ r ∈ t.rows, recordWhenStated r = r
  retired : ∀ name ∈ retiredTables, db.tables name = none
  unused : ∀ index ∈ db.indexes, index.2 ∉ retiredTables

/-- Tables and indexes are all that the schema creates, and its indexes are on its tables. -/
def createsOnly (statement : Statement) : Bool :=
  match statement with
  | .createTable name _ => (columnsOf currentSchema name).isSome
  | .createIndex name table _ =>
    (columnsOf currentSchema table).isSome && (name, table) ∈ declaredIndexes
  | _ => false

/-- Every statement of the schema is of the kind that `createsOnly` describes. -/
theorem createsOnly_currentSchema : ∀ statement ∈ currentSchema, createsOnly statement = true := by
  decide +kernel

namespace Current

variable {db : Database}

/-- What the statements of the schema are to bring about is there. -/
theorem has (h : Current db) {statement : Statement} (hmem : statement ∈ currentSchema) :
    db.Has statement := by
  have hcreates := createsOnly_currentSchema statement hmem
  cases statement with
  | createTable name columns => exact h.tables name hcreates
  | createIndex name table columns =>
    rw [createsOnly, Bool.and_eq_true] at hcreates
    refine ⟨h.tables table hcreates.1, List.any_eq_true.mpr ⟨(name, table), ?_, by simp⟩⟩
    exact h.indexes (of_decide_eq_true hcreates.2)
  | addColumn _ _ _ => exact absurd hcreates (by simp [createsOnly])
  | dropTable _ => exact absurd hcreates (by simp [createsOnly])

/-- Some statements of the schema change nothing. -/
theorem executeBatch_eq (h : Current db) {statements : List Statement}
    (hsub : statements ⊆ currentSchema) : executeBatch db statements = .ok db :=
  executeBatch_of_has fun _ hmem => h.has (hsub hmem)

/-- The first part of the migration changes nothing. -/
theorem migrateMemories_eq (h : Current db) : migrateMemories db = .ok db := by
  have hrows : db.updateRows "memories" recordWhenCreated = db := updateRows_of_fixed h.recorded
  have hversion : ¬ db.userVersion < 4 := by
    rw [h.userVersion]
    decide
  unfold migrateMemories
  rw [addMissing_of_has (fun column hcolumn => h.memories column (by
      rw [List.mem_singleton.mp hcolumn]
      exact List.mem_cons_self)), ok_bind, h.executeBatch_eq (by decide +kernel), ok_bind,
    addMissing_of_has (fun column hcolumn => h.memories column (List.mem_cons_of_mem _ hcolumn)),
    ok_bind, hrows]
  dsimp only
  rw [h.executeBatch_eq (by decide +kernel), ok_bind, if_neg hversion,
    h.executeBatch_eq (by decide +kernel)]

/-- The second part of the migration changes nothing. -/
theorem migrateTables_eq (h : Current db) : migrateTables db = .ok db := by
  have hmetrics : migrateMetrics db = .ok db := by
    unfold migrateMetrics
    rw [if_pos h.metrics]
  have hrows : db.updateRows "fact_versions" recordWhenStated = db := updateRows_of_fixed h.stated
  unfold migrateTables
  rw [addMissing_of_has (fun column hcolumn => by
      rw [List.mem_singleton.mp hcolumn]
      exact h.vectors), ok_bind, hmetrics, ok_bind,
    addMissing_of_has (fun column hcolumn => by
      rw [List.mem_singleton.mp hcolumn]
      exact h.facts), ok_bind, hrows]
  dsimp only
  rw [addMissing_of_has h.cards, ok_bind, h.executeBatch_eq (by decide +kernel)]

/-- The third part of the migration changes nothing. -/
theorem migrateContents_eq (h : Current db) (sha256 : String → String) :
    migrateContents sha256 db = .ok db := by
  have hbelow : ∀ limit ≤ schemaVersion, ∀ step,
      below limit db.userVersion step db = .ok db := by
    intro limit hlimit step
    unfold below
    rw [if_neg]
    rw [h.userVersion]
    exact not_lt_of_ge hlimit
  have hdrop : executeBatch db (retiredTables.map .dropTable) = .ok db := by
    apply executeBatch_of_has
    intro statement hstatement
    obtain ⟨name, hname, rfl⟩ := List.mem_map.mp hstatement
    exact ⟨h.retired name hname, fun index hindex hsame => h.unused index hindex (hsame ▸ hname)⟩
  unfold migrateContents
  dsimp only
  rw [hbelow 5 (by decide), ok_bind, hdrop, ok_bind, hbelow 3 (by decide), ok_bind,
    hbelow 8 (by decide), ok_bind, if_neg]
  · rfl
  · rw [h.userVersion]
    exact lt_irrefl _

/-- Opening a database of the current version changes nothing. -/
theorem initSchema_eq (h : Current db) (sha256 : String → String) :
    initSchema sha256 db = .ok db := by
  have hversion : ¬ schemaVersion < db.userVersion := by
    rw [h.userVersion]
    exact lt_irrefl _
  unfold initSchema
  rw [if_neg hversion]
  show (executeBatch db schemaStatements >>= _) = _
  rw [h.executeBatch_eq (by decide +kernel), ok_bind, h.executeBatch_eq (by decide +kernel),
    ok_bind]
  unfold migrate
  rw [h.migrateMemories_eq, ok_bind, h.migrateTables_eq, ok_bind, h.migrateContents_eq]

end Current

end Tellodb
