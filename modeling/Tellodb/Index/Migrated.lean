import Tellodb.Schema.Opening
import Tellodb.Index.Docs
import Tellodb.Relational.Run

/-!
# Marks without documents

A memory that is marked as indexed is to have a document, unless it is a synthetic query, which is
never searched for (`IndexedHasDoc`). The migration marks all memories of a database below version
4, and below version 3 it leaves no documents at all, for an ingest of the same content to restore;
but such an ingest skips the memories that are marked (`keptPayloads_of_unchanged`).
`indexedHasDoc_migrated_iff` says which databases keep the property when they are opened, and
`indexedHasDoc_reingest` which later ingests keep it. -/

namespace Tellodb

open Relational Database

/-! ## The property -/

/-- A memory is a synthetic query. -/
def Synthetic (r : Row) : Prop :=
  MemoryKind.parse (textOf (r "kind")) = .syntheticQuery

/-- A memory has a document. -/
def HasDocument (db : Database) (memoryId : Value) : Prop :=
  ∃ t, db.tables "fts_memories" = some t ∧ ∃ d ∈ t.rows, d "memory_id" = memoryId

/-- Every memory of a database that is marked as indexed has a document, but for synthetic
queries. -/
def IndexedHasDoc (db : Database) : Prop :=
  ∀ t, db.tables "memories" = some t → "indexed" ∈ t.columns →
    ∀ r ∈ t.rows, r "indexed" = .integer 1 → ¬ Synthetic r → HasDocument db (r "memory_id")

/-- Every memory of a store that is marked as indexed has a document, but for synthetic queries. -/
def TenantStore.IndexedHasDoc (S : TenantStore) : Prop :=
  ∀ r ∈ S.memories.rows, r.indexed = true → r.kind ≠ .syntheticQuery →
    (S.docOf r.memoryId).isSome

/-- What a store reads in the row of a memory. -/
def MemoryRow.cells (r : MemoryRow) : List Value :=
  [.text r.memoryId, .text r.entityId, .text r.content, .text r.kind.asStr, .text r.contentHash,
    .integer (if r.indexed then 1 else 0)]

/-- A store has the memories of a database and their documents. -/
structure Reads (db : Database) (S : TenantStore) : Prop where
  memories : ∃ t, db.tables "memories" = some t ∧ "indexed" ∈ t.columns ∧
    t.rows.map (fun r => ["memory_id", "entity_id", "content", "kind", "content_hash",
      "indexed"].map r) = S.memories.rows.map MemoryRow.cells
  docs : ∀ x, HasDocument db (.text x) ↔ (S.docOf x).isSome

/-- The property of a store is that of the database it is opened on. -/
theorem Reads.indexedHasDoc_iff {db : Database} {S : TenantStore} (h : Reads db S) :
    IndexedHasDoc db ↔ S.IndexedHasDoc := by
  obtain ⟨t, ht, hcolumn, hrows⟩ := h.memories
  -- The columns of a row say whether it is marked and of which kind it is.
  have hcells : ∀ {r : Row} {m : MemoryRow},
      ["memory_id", "entity_id", "content", "kind", "content_hash", "indexed"].map r = m.cells →
        (r "indexed" = .integer 1 ↔ m.indexed = true) ∧
          (Synthetic r ↔ m.kind = .syntheticQuery) ∧ r "memory_id" = .text m.memoryId := by
    intro r m hsame
    simp only [List.map_cons, List.map_nil, MemoryRow.cells, List.cons.injEq, and_true] at hsame
    obtain ⟨hid, -, -, hkind, -, hindexed⟩ := hsame
    refine ⟨?_, ?_, hid⟩
    · rw [hindexed]
      cases m.indexed <;> decide
    · unfold Synthetic
      rw [hkind]
      show MemoryKind.parse m.kind.asStr = .syntheticQuery ↔ _
      rw [MemoryKind.parse_asStr]
  constructor
  · intro hdb m hm hindexed hkind
    obtain ⟨r, hr, hsame⟩ := List.mem_map.mp (hrows ▸ List.mem_map_of_mem hm)
    obtain ⟨hindexed', hkind', hid⟩ := hcells hsame
    rw [← h.docs, ← hid]
    exact hdb t ht hcolumn r hr (hindexed'.mpr hindexed) fun hsynthetic => hkind (hkind'.mp hsynthetic)
  · intro hS t' ht' _ r hr hindexed hkind
    rw [ht] at ht'
    obtain rfl := Option.some.inj ht'
    obtain ⟨m, hm, hsame⟩ := List.mem_map.mp (hrows ▸ List.mem_map_of_mem hr)
    obtain ⟨hindexed', hkind', hid⟩ := hcells hsame.symm
    rw [hid, h.docs]
    exact hS m hm (hindexed'.mp hindexed) fun hsynthetic => hkind (hkind'.mpr hsynthetic)

/-! ## Opening -/

/-- The memories of an older database keep their documents where the migration marks them: it marks
none from version 4 on, and below version 3 it leaves no documents. -/
def MarksDocumented (db : Database) : Prop :=
  4 ≤ db.userVersion ∨ ∀ t, db.tables "memories" = some t → ∀ r ∈ t.rows, ¬ Synthetic r →
    3 ≤ db.userVersion ∧ HasDocument db (r "memory_id")

section

variable {db db' : Database} {sha256 : String → String}

/-- The documents of an older database that is opened: none below version 3. -/
theorem hasDocument_opened (h : Opened sha256 (db.withSchema createdSchema) db') (x : Value) :
    HasDocument db' x ↔ 3 ≤ db.userVersion ∧ HasDocument db x := by
  have hindex : db'.tables "fts_memories" = if db.userVersion < 3 then some ⟨ftsMemoriesColumns, []⟩
      else (db.tables "fts_memories").or (some ⟨ftsMemoriesColumns, []⟩) := h.index
  unfold HasDocument
  rw [hindex]
  by_cases hversion : db.userVersion < 3
  · rw [if_pos hversion]
    constructor
    · rintro ⟨t, ht, d, hd, -⟩
      rw [← Option.some.inj ht] at hd
      exact absurd hd List.not_mem_nil
    · exact fun ⟨hle, _⟩ => absurd hversion (not_lt_of_ge hle)
  · rw [if_neg hversion]
    cases db.tables "fts_memories" with
    | some t => exact ⟨fun hdoc => ⟨not_lt.mp hversion, hdoc⟩, fun hdoc => hdoc.2⟩
    | none =>
      constructor
      · rintro ⟨t, ht, d, hd, -⟩
        rw [← Option.some.inj ht] at hd
        exact absurd hd List.not_mem_nil
      · rintro ⟨-, t, ht, -⟩
        exact absurd ht.symm (Option.some_ne_none t)

/-- The memories of an older database that is opened, with their identifiers, kinds and flags. -/
theorem exists_opened_memories (h : Aged db)
    (hopened : Opened sha256 (db.withSchema createdSchema) db') :
    ∃ (t : DataTable) (g : Row → Row), (db.tables "memories" = some t ∨
        db.tables "memories" = none ∧ t.rows = []) ∧
      db'.tables "memories" = some (migratedMemories sha256 db.userVersion t) ∧
      (migratedMemories sha256 db.userVersion t).rows = t.rows.map g ∧
      ∀ r, g r "memory_id" = r "memory_id" ∧ g r "kind" = r "kind" ∧
        g r "indexed" = if db.userVersion < 4 then .integer 1
          else if "indexed" ∈ t.columns then r "indexed" else .integer 0 := by
  obtain ⟨t, ht, hneeded, horigin⟩ := h.exists_table "memories" ["memory_id", "kind"]
    (by decide +kernel)
  obtain ⟨g, hkept, hflag, hrows⟩ := exists_migratedMemories_rows sha256 db.userVersion t
  -- The migration keeps the identifier and the kind of a row.
  have hold : ∀ r, ∀ column ∈ ["memory_id", "kind"],
      migratedMemory sha256 db.userVersion (g r) column = r column := by
    intro r column hcolumn
    have hne : column ≠ "content_hash" ∧ column ≠ "indexed" ∧ column ≠ "recorded_at_ms" := by
      simp only [List.mem_cons, List.not_mem_nil, or_false] at hcolumn
      rcases hcolumn with rfl | rfl <;> decide
    rw [migratedMemory_of_ne hne.1, flaggedMemory_of_ne hne.2.1, recordWhenCreated_of_ne hne.2.2]
    exact hkept r column (hneeded hcolumn)
  refine ⟨t, _, horigin, ?_, hrows, fun r =>
    ⟨hold r _ (by decide), hold r _ (by decide), ?_⟩⟩
  · rw [hopened.memories, ht]
    rfl
  · rw [migratedMemory_of_ne (by decide), flaggedMemory_indexed]
    -- The mark is kept where there is a column for it.
    by_cases hcolumn : "indexed" ∈ t.columns
    · rw [if_pos hcolumn, hkept r _ hcolumn]
    · rw [if_neg hcolumn, hflag hcolumn]

/-- An older database keeps the property when it is opened if and only if the memories that are
marked then have documents that are not dropped. -/
theorem indexedHasDoc_migrated_iff (h : Aged db) (hdb : IndexedHasDoc db)
    (hopened : Opened sha256 (db.withSchema createdSchema) db') (hcurrent : Current db') :
    IndexedHasDoc db' ↔ MarksDocumented db := by
  obtain ⟨t, g, horigin, ht', hrows, hg⟩ := exists_opened_memories h hopened
  have hsynthetic : ∀ r, Synthetic (g r) ↔ Synthetic r := by
    intro r
    unfold Synthetic
    rw [(hg r).2.1]
  -- What the marks ask for can be said of the rows before the migration.
  have hiff : IndexedHasDoc db' ↔ ∀ r ∈ t.rows, g r "indexed" = .integer 1 → ¬ Synthetic r →
      3 ≤ db.userVersion ∧ HasDocument db (r "memory_id") := by
    have hindexed : "indexed" ∈ (migratedMemories sha256 db.userVersion t).columns := by
      have hcolumn := hcurrent.memories ("indexed", .integer 0) (by decide)
      unfold hasColumn at hcolumn
      rw [ht'] at hcolumn
      exact of_decide_eq_true hcolumn
    constructor
    · intro hdb' r hr hmark hkind
      have hdoc := hdb' _ ht' hindexed (g r) (hrows ▸ List.mem_map_of_mem hr) hmark
        fun hs => hkind ((hsynthetic r).mp hs)
      rw [hasDocument_opened hopened, (hg r).1] at hdoc
      exact hdoc
    · intro hall u hu _ r' hr' hmark hkind
      rw [ht'] at hu
      rw [← Option.some.inj hu, hrows] at hr'
      obtain ⟨r, hr, rfl⟩ := List.mem_map.mp hr'
      rw [hasDocument_opened hopened, (hg r).1]
      exact hall r hr hmark fun hs => hkind ((hsynthetic r).mpr hs)
  rw [hiff]
  by_cases hversion : db.userVersion < 4
  · -- All memories are marked.
    have hfour : ¬ 4 ≤ db.userVersion := not_le_of_gt hversion
    unfold MarksDocumented
    constructor
    · refine fun hall => .inr fun u hu r hr hkind => ?_
      rcases horigin with hold | ⟨hnone, -⟩
      · rw [hold] at hu
        rw [← Option.some.inj hu] at hr
        exact hall r hr (by rw [(hg r).2.2, if_pos hversion]) hkind
      · rw [hnone] at hu
        exact absurd hu.symm (Option.some_ne_none u)
    · intro hmarks r hr _ hkind
      rcases horigin with hold | ⟨-, hnil⟩
      · exact hmarks.resolve_left hfour t hold r hr hkind
      · rw [hnil] at hr
        exact absurd hr List.not_mem_nil
  · -- No memory is marked that was not.
    refine ⟨fun _ => .inl (not_lt.mp hversion), fun _ r hr hmark hkind => ?_⟩
    rw [(hg r).2.2, if_neg hversion] at hmark
    split at hmark
    · rename_i hcolumn
      rcases horigin with hold | ⟨-, hnil⟩
      · exact ⟨by omega, hdb t hold hcolumn r hr hmark hkind⟩
      · rw [hnil] at hr
        exact absurd hr List.not_mem_nil
    · exact absurd hmark (by decide)

end

/-! ## Later ingests -/

/-- What one ingest does, with what decides it. -/
structure Reingest where
  payloads : List (UInt64 × String × AgentObservation)
  batches : IngestBatches
  clock : IngestClock
  /-- The iteration orders of the commit and of a repair. -/
  orders : HashOrder × HashOrder
  faults : VectorFaults

/-- A store after an ingest. -/
def TenantStore.reingest (cosineSimilarity : List ℚ → List ℚ → ℚ) (S : TenantStore)
    (a : Reingest) : TenantStore :=
  match S.commitIngest cosineSimilarity a.orders.1 a.clock a.batches with
  | .ok (S, outcome) => S.indexCommitted a.orders.2 a.faults outcome
  | .error _ => S

/-- An ingest marks memories that have a document only: those that it re-embeds without writing
them have one, and the routers that it merges leave it to them. -/
structure Reingest.Documented (S : TenantStore) (a : Reingest) : Prop where
  prepares : S.Prepares a.payloads a.batches
  neighbours : ∀ update ∈ a.batches.neighbourEmbeddingUpdates,
    lastItem a.batches.observations update.1 = none → ∀ r ∈ S.memories.rows,
      r.memoryId = update.1 → r.kind ≠ .syntheticQuery → (S.docOf r.memoryId).isSome
  routers : ∀ d ∈ S.routerDocs a.batches, ∀ r ∈ S.memories.rows, r.kind ≠ .syntheticQuery →
    d.rowid = ftsRowid r.memoryId → d.memoryId = r.memoryId

section

variable {S S' : TenantStore}

/-- Memories without new marks keep the property where documents stay. -/
theorem TenantStore.IndexedHasDoc.of_docs (hS : S.IndexedHasDoc)
    (hmemories : S'.memories = S.memories)
    (hdocs : ∀ x, (S.docOf x).isSome → (S'.docOf x).isSome) : S'.IndexedHasDoc := by
  intro r hr hindexed hkind
  rw [hmemories] at hr
  exact hdocs _ (hS r hr hindexed hkind)

/-- A batch that is indexed leaves every memory its document, or a new one. -/
theorem isSome_docOf_ftsIndexBatch {batch : List (String × String × String)}
    (h : S.ftsIndexBatch batch = .ok S') {x : String} (hsome : (S.docOf x).isSome) :
    (S'.docOf x).isSome := by
  rw [docOf_ftsIndexBatch h, Option.isSome_or, hsome, Bool.or_true]

/-- A batch that is indexed gives its memories documents. -/
theorem isSome_docOf_of_mem {batch : List (String × String × String)}
    (h : S.ftsIndexBatch batch = .ok S') {document : String × String × String}
    (hmem : document ∈ batch) : (S'.docOf document.1).isSome := by
  obtain ⟨last, -, -, hlast⟩ := exists_lastDoc hmem
  rw [docOf_ftsIndexBatch h, hlast]
  rfl

/-- Marking memories that have documents keeps the property. -/
theorem TenantStore.IndexedHasDoc.markIndexed (hS : S.IndexedHasDoc) {memoryIds : List String}
    (hdocs : ∀ r ∈ S.memories.rows, r.memoryId ∈ memoryIds → r.kind ≠ .syntheticQuery →
      (S.docOf r.memoryId).isSome) : (S.markIndexed memoryIds).IndexedHasDoc := by
  intro r' hr' hindexed hkind
  obtain ⟨r, hr, rfl⟩ := mem_markIndexed hr'
  show (S.docOf _).isSome
  by_cases hmem : r.memoryId ∈ memoryIds
  · rw [if_pos hmem] at hkind ⊢
    exact hdocs r hr hmem hkind
  · rw [if_neg hmem] at hindexed hkind ⊢
    exact hS r hr hindexed hkind

/-- Finishing a reindexing pass over memories that have documents keeps the property. -/
theorem TenantStore.IndexedHasDoc.finishReindex (hS : S.IndexedHasDoc)
    {rows : List PendingIndexRow}
    (hdocs : ∀ row ∈ rows, ∀ r ∈ S.memories.rows, r.memoryId = row.memoryId →
      r.kind ≠ .syntheticQuery → (S.docOf r.memoryId).isSome) :
    (S.finishReindex rows).IndexedHasDoc := by
  intro r' hr' hindexed hkind
  obtain ⟨r, hr, hcase⟩ := mem_finishReindex hr'
  show (S.docOf _).isSome
  rcases hcase with rfl | rfl | ⟨rfl, row, hrow, hid, -⟩
  · exact hS r' hr hindexed hkind
  · exact absurd hindexed (by simp)
  · exact hdocs row hrow r hr hid.symm hkind

/-- A repair keeps the property, and gives the memories of its list documents. -/
theorem TenantStore.IndexedHasDoc.reindexMemoryIds (hS : S.IndexedHasDoc) {order : HashOrder}
    {vectorsFail : Bool} {memoryIds : List String} :
    (S.reindexMemoryIds order vectorsFail memoryIds).1.IndexedHasDoc ∧
      ((S.reindexMemoryIds order vectorsFail memoryIds).2 = true →
        ∀ r ∈ (S.reindexMemoryIds order vectorsFail memoryIds).1.memories.rows,
          r.memoryId ∈ memoryIds → r.kind ≠ .syntheticQuery →
            ((S.reindexMemoryIds order vectorsFail memoryIds).1.docOf r.memoryId).isSome) := by
  unfold TenantStore.reindexMemoryIds
  dsimp only
  generalize hrows : S.pendingRowsOf memoryIds = rows
  cases hindex : S.ftsIndexBatch (S.reindexDocs order rows) with
  | error e => exact ⟨hS, fun h => absurd h (by simp)⟩
  | ok S' =>
    obtain ⟨docs, hdocs⟩ := ftsIndexBatch_inv hindex
    have hmemories : S'.memories = S.memories := by rw [hdocs]
    have hS' : S'.IndexedHasDoc := hS.of_docs hmemories fun x => isSome_docOf_ftsIndexBatch hindex
    -- Every memory of the list was marked, or was read and is indexed now.
    have hlist : ∀ r ∈ S'.memories.rows, r.memoryId ∈ memoryIds → r.kind ≠ .syntheticQuery →
        (S'.docOf r.memoryId).isSome := by
      intro r hr hmem hkind
      cases hindexed : r.indexed with
      | true => exact hS' r hr hindexed hkind
      | false =>
        rw [hmemories] at hr
        obtain ⟨row, hrow⟩ := exists_pendingOf S r
        obtain ⟨hid, -, -, hrowKind, -⟩ := pendingOf_eq hrow
        have hread : row ∈ rows := by
          rw [← hrows]
          exact mem_pendingRowsOf.mpr ⟨r, hr, hindexed, hmem, hrow⟩
        have hmem : (row.memoryId, row.entityId, contentForIndex row.content) ∈
            S.reindexDocs order rows :=
          exists_reindexDocs hread (by rw [hrowKind]; exact hkind)
        have hdoc := isSome_docOf_of_mem hindex hmem
        rw [← hid]
        exact hdoc
    -- The rows are marked only if the vectors were written as well.
    cases vectorsFail with
    | true => exact ⟨hS', fun h => absurd h (by simp)⟩
    | false =>
      have hfinish : (S'.finishReindex rows).IndexedHasDoc := by
        refine hS'.finishReindex fun row hrow r hr hid hkind => hlist r hr ?_ hkind
        rw [← hrows] at hrow
        obtain ⟨q, -, -, hmem, hq⟩ := mem_pendingRowsOf.mp hrow
        rw [hid, (pendingOf_eq hq).1]
        exact hmem
      refine ⟨hfinish, fun _ r' hr' hmem hkind => ?_⟩
      obtain ⟨r, hr, hcase⟩ := mem_finishReindex hr'
      have hsame : r'.memoryId = r.memoryId ∧ r'.kind = r.kind := by
        rcases hcase with heq | heq | ⟨heq, -⟩
        all_goals rw [heq]; exact ⟨rfl, rfl⟩
      show (S'.docOf r'.memoryId).isSome
      rw [hsame.1] at hmem ⊢
      rw [hsame.2] at hkind
      exact hlist r hr hmem hkind

/-- What comes after a commit keeps the property if the memories of the batch are written with
documents or have some. -/
theorem TenantStore.IndexedHasDoc.indexCommitted (hS : S.IndexedHasDoc) {outcome : CommitOutcome}
    (hdocs : ∀ r ∈ S.memories.rows, r.memoryId ∈ outcome.indexedMemoryIds →
      r.kind ≠ .syntheticQuery → (∃ document ∈ outcome.ftsBatch, document.1 = r.memoryId) ∨
        (S.docOf r.memoryId).isSome) (order : HashOrder) (faults : VectorFaults) :
    (S.indexCommitted order faults outcome).IndexedHasDoc := by
  -- The repair and the marks after it, from any store.
  have hrepair : ∀ R : TenantStore, R.IndexedHasDoc →
      (if (R.reindexMemoryIds order faults.repair outcome.indexedMemoryIds).2 = true then
        (R.reindexMemoryIds order faults.repair outcome.indexedMemoryIds).1.markIndexed
          outcome.indexedMemoryIds
        else (R.reindexMemoryIds order faults.repair
          outcome.indexedMemoryIds).1).IndexedHasDoc := by
    intro R hR
    obtain ⟨hrepaired, hlist⟩ := @TenantStore.IndexedHasDoc.reindexMemoryIds R hR order
      faults.repair outcome.indexedMemoryIds
    split
    · rename_i hok
      exact hrepaired.markIndexed (hlist hok)
    · exact hrepaired
  unfold TenantStore.indexCommitted
  dsimp only
  cases hindex : S.ftsIndexBatch outcome.ftsBatch with
  | error e => exact hrepair S hS
  | ok S' =>
    obtain ⟨docs, hS'⟩ := ftsIndexBatch_inv hindex
    have hmemories : S'.memories = S.memories := by rw [hS']
    have hdoc' : S'.IndexedHasDoc := hS.of_docs hmemories fun x => isSome_docOf_ftsIndexBatch hindex
    show (if (!faults.batch) = true then _ else _ : TenantStore).IndexedHasDoc
    split
    · refine hdoc'.markIndexed fun r hr hmem hkind => ?_
      rw [hmemories] at hr
      rcases hdocs r hr hmem hkind with ⟨document, hdocument, hid⟩ | hsome
      · have hdoc := isSome_docOf_of_mem hindex hdocument
        rw [← hid]
        exact hdoc
      · exact isSome_docOf_ftsIndexBatch hindex hsome
    · exact hrepair S' hdoc'

/-- An ingest that marks documented memories keeps the property. -/
theorem indexedHasDoc_reingest {cosineSimilarity : List ℚ → List ℚ → ℚ} {a : Reingest}
    (hS : S.IndexedHasDoc) (ha : a.Documented S) :
    (S.reingest cosineSimilarity a).IndexedHasDoc := by
  unfold TenantStore.reingest
  cases hcommit : S.commitIngest cosineSimilarity a.orders.1 a.clock a.batches with
  | error e => exact hS
  | ok result =>
    obtain ⟨S', outcome⟩ := result
    -- The commit keeps the documents of the rows that it keeps.
    have hkept : ∀ r ∈ S.memories.rows, r.kind ≠ .syntheticQuery → (S.docOf r.memoryId).isSome →
        (S'.docOf r.memoryId).isSome := fun r hr hkind hsome =>
      isSome_docOf_commitIngest hcommit (fun d hd hrow => ha.routers d hd r hr hkind hrow) hsome
    have hS' : S'.IndexedHasDoc := by
      intro r hr hindexed hkind
      obtain ⟨hold, -⟩ := mem_of_indexed_commitIngest hcommit hr hindexed
      exact hkept r hold hkind (hS r hold hindexed hkind)
    refine hS'.indexCommitted (fun r hr hmem hkind => ?_) a.orders.2 a.faults
    rcases mem_memories_commitIngest hcommit hr with ⟨item, hlast, hrow⟩ | ⟨hlast, q, hq, hrow⟩
    · -- A memory of the batch comes with its document.
      obtain ⟨hitem, hid⟩ := mem_of_lastItem hlast
      refine .inl ⟨(item.2.1, item.2.2.entityId, contentForIndex item.2.2.textualContent), ?_, hid⟩
      have hbatch : outcome.ftsBatch = ftsBatchOf a.batches.observations := by
        rw [commitIngest_outcome hcommit]
        exact ha.prepares.ftsBatch
      rw [hbatch]
      refine List.mem_filterMap.mpr ⟨item, hitem, ?_⟩
      have hitemKind : item.2.2.kind ≠ .syntheticQuery := by
        rw [hrow] at hkind
        exact hkind
      unfold indexTextFor
      rw [if_pos hitemKind]
      rfl
    · -- A memory that is re-embedded has one.
      refine .inr ?_
      have hsame : r.memoryId = q.memoryId ∧ r.kind = q.kind := by
        rw [hrow]
        split <;> exact ⟨rfl, rfl⟩
      rw [hsame.1] at hmem hlast ⊢
      rw [hsame.2] at hkind
      refine hkept q hq hkind ?_
      rcases (mem_indexedMemoryIds hcommit).mp hmem with ⟨item, hitem, hid⟩ | hneighbour
      · exact absurd hid (lastItem_eq_none.mp hlast item hitem)
      · obtain ⟨n, hn, hnid⟩ := List.mem_map.mp hneighbour
        obtain ⟨update, hupdate, hn⟩ := List.mem_filterMap.mp hn
        obtain ⟨v, -, rfl⟩ := Option.map_eq_some_iff.mp hn
        have hnid' : update.1 = q.memoryId := hnid
        exact ha.neighbours update hupdate (by rw [hnid']; exact hlast) q hq hnid'.symm hkind

/-- An older database that opens keeps the property if and only if the memories that are marked then
are documented, and every run of ingests that mark documented memories keeps it from there. -/
theorem indexedHasDoc_opened_iff {db db' : Database} {sha256 : String → String} (h : Aged db)
    (hdb : IndexedHasDoc db) (hopened : initSchema sha256 db = .ok db') :
    (IndexedHasDoc db' ↔ MarksDocumented db) ∧
      (MarksDocumented db → ∀ S, Reads db' S → ∀ cosineSimilarity (run : List Reingest),
        EachStep (TenantStore.reingest cosineSimilarity) (fun S a => a.Documented S) S run →
          (run.foldl (TenantStore.reingest cosineSimilarity) S).IndexedHasDoc) := by
  obtain ⟨hcurrent, htables⟩ := (h.initSchema_iff sha256).2 db' hopened
  have hiff := indexedHasDoc_migrated_iff h hdb htables hcurrent
  refine ⟨hiff, fun hmarks S hreads cosineSimilarity run hrun => ?_⟩
  exact hrun.invariant (fun S a hS ha => indexedHasDoc_reingest hS ha)
    (hreads.indexedHasDoc_iff.mp (hiff.mpr hmarks))

end

/-- Payloads that are stored and marked are skipped, so nothing is written for them again. -/
theorem keptPayloads_of_unchanged {S : TenantStore}
    {payloads : List (UInt64 × String × AgentObservation)}
    (h : ∀ item ∈ payloads, ∃ r ∈ S.memories.rows, r.memoryId = item.2.1 ∧
      r.contentHash = item.2.2.contentHash ∧ r.indexed = true) : S.keptPayloads payloads = [] := by
  unfold TenantStore.keptPayloads
  rw [List.filter_eq_nil_iff]
  intro item hitem hkept
  obtain ⟨r, hr, hid, hhash, hindexed⟩ := h item hitem
  have hfind : S.memories.find? item.2.1 = some r := Table.find?_eq_some.mpr ⟨hr, hid⟩
  unfold TenantStore.storedContentState at hkept
  rw [hfind, Option.map_some, shouldKeepPayload, hhash, hindexed] at hkept
  simp at hkept

/-- A database with one memory and no other table opens. -/
theorem openable_oneMemory (version recorded indexed : ℤ) :
    Openable (oneMemory version recorded indexed) :=
  ⟨fun t ht => absurd ht.symm (Option.some_ne_none t),
    fun t ht => absurd ht.symm (Option.some_ne_none t)⟩

/-- The one memory is not marked. -/
theorem indexedHasDoc_oneMemory (version recorded : ℤ) :
    IndexedHasDoc (oneMemory version recorded 0) := by
  intro t ht _ r hr hmark
  rw [← Option.some.inj ht] at hr
  rw [List.mem_singleton.mp hr] at hmark
  have hzero : Value.integer 0 = .integer 1 := hmark
  exact absurd hzero (by decide)

/-- The one memory as an ingest of the same content has it. -/
private def sameMemory : UInt64 × String × AgentObservation :=
  (100, "legacy::s1::0",
    { entityId := "legacy"
      textualContent := "a memory written by an older build"
      embedding := []
      kind := .fact
      contentHash := contentHash id "a memory written by an older build" "legacy" .fact
      expiresAtMs := none
      sessionId := "s1"
      turnIndex := 0
      role := ""
      parentMemoryId := none })

/-- The store of the database of version 2 with the one memory, after it is opened. -/
private def reopened : TenantStore :=
  (insertObservationsTx 100 TenantStore.empty [sameMemory]).1.markIndexed ["legacy::s1::0"]

/-- The property, computed. -/
theorem TenantStore.indexedHasDoc_iff_all (S : TenantStore) :
    S.IndexedHasDoc ↔ (S.memories.rows.all fun r =>
      !r.indexed || decide (r.kind = .syntheticQuery) || (S.docOf r.memoryId).isSome) = true := by
  rw [List.all_eq_true]
  refine forall_congr' fun r => forall_congr' fun _ => ?_
  cases r.indexed
  · simp
  · by_cases hkind : r.kind = .syntheticQuery
    · simp [hkind]
    · simp [hkind]

/-- A memory of a database of version 2 is marked without a document when the database is opened,
and an ingest of the same content, which is skipped, does not give it one. -/
theorem lost_document :
    Aged (oneMemory 2 100 0) ∧ IndexedHasDoc (oneMemory 2 100 0) ∧
      ∃ db', initSchema id (oneMemory 2 100 0) = .ok db' ∧ ¬ IndexedHasDoc db' ∧
        Reads db' reopened ∧ reopened.Prepares [sameMemory] {} ∧
          ¬ (reopened.reingest (fun _ _ => 0) { payloads := [sameMemory]
                                                batches := {}
                                                clock := ⟨200, 200, 200⟩
                                                orders := (.insertion, .insertion)
                                                faults := ⟨false, false⟩ }).IndexedHasDoc := by
  have haged := aged_oneMemory (show (2 : ℤ) < schemaVersion by decide) 100 0
  have hdb := indexedHasDoc_oneMemory 2 100
  obtain ⟨hiff, hall⟩ := haged.initSchema_iff id
  obtain ⟨db', hopened⟩ := hiff.mpr (openable_oneMemory 2 100 0)
  obtain ⟨hcurrent, htables⟩ := hall db' hopened
  refine ⟨haged, hdb, db', hopened, ?_, ?_, ?_, ?_⟩
  · rw [indexedHasDoc_migrated_iff haged hdb htables hcurrent]
    -- The store is of version 2, whose documents are dropped.
    rintro (hversion | hdocs)
    · exact absurd hversion (by decide)
    · have hdoc := hdocs _ rfl _ List.mem_cons_self (by unfold Synthetic; decide +kernel)
      exact absurd hdoc.1 (by decide)
  -- The tables that are opened are those of the reopened store.
  · have hold : (db'.tables "memories") = ((oneMemory 2 100 0).tables "memories").map
        (migratedMemories id 2) := htables.memories
    refine ⟨⟨_, hold.trans rfl, ?_, ?_⟩, fun x => ?_⟩
    · rw [migratedMemories_columns, mem_upgradedMemories]
      exact .inl (by decide)
    · decide +kernel
    · rw [hasDocument_opened htables]
      refine ⟨fun hdoc => absurd hdoc.1 (by decide), fun hdoc => ?_⟩
      have hnone : reopened.docOf x = none := rfl
      rw [hnone] at hdoc
      exact absurd hdoc (by decide)
  · exact ⟨List.nil_sublist _, rfl⟩
  -- The memory is marked and there is no document.
  · rw [TenantStore.indexedHasDoc_iff_all]
    decide +kernel

/-- A database of version 6 with the same memory, which is marked, and its document. -/
private def markedMemory : Database :=
  databaseOf 6 [("memories", ⟨allMemoryColumns, [rowOf [("rowid", .integer 1),
      ("memory_id", .text "legacy::s1::0"), ("entity_id", .text "legacy"),
      ("content", .text "a memory written by an older build"), ("kind", .text "fact"),
      ("content_hash", .text sameMemory.2.2.contentHash), ("created_at_ms", .integer 100),
      ("recorded_at_ms", .integer 100), ("session_id", .text "s1"), ("turn_index", .integer 0),
      ("role", .text ""), ("indexed", .integer 1)]]⟩),
    ("fts_memories", ⟨ftsMemoriesColumns, [rowOf [("memory_id", .text "legacy::s1::0"),
      ("entity_id", .text "legacy"), ("entity_tok", .text (ftsEntityTok "legacy")),
      ("content", .text "a memory written by an older build")]]⟩)]

/-- The store of that database, with a vector of the memory. -/
private def markedStore : TenantStore :=
  ((((insertObservationsTx 100 TenantStore.empty
    [(100, "legacy::s1::0", { sameMemory.2.2 with embedding := [1] })]).1.ftsIndexBatch
      [("legacy::s1::0", "legacy", "a memory written by an older build")]).toOption.getD
        TenantStore.empty).markIndexed ["legacy::s1::0"])

/-- Another memory of the session. -/
private def nextMemory : UInt64 × String × AgentObservation :=
  (200, "legacy::s1::1", { sameMemory.2.2 with
    textualContent := "a memory written by this build"
    embedding := [1]
    contentHash := contentHash id "a memory written by this build" "legacy" .fact
    turnIndex := 1 })

/-- The memory is sent again unchanged. Then another memory of its session comes, for which it is
embedded again, and the vectors of that batch fail at first. -/
private def resentRun : List Reingest :=
  [{ payloads := [sameMemory]
     batches := {}
     clock := ⟨200, 200, 200⟩
     orders := (.insertion, .insertion)
     faults := ⟨false, false⟩ },
    { payloads := [nextMemory]
      batches := { observations := [nextMemory]
                   ftsBatch := ftsBatchOf [nextMemory]
                   neighbourEmbeddingUpdates := [("legacy::s1::0", [1 / 2])] }
      clock := ⟨300, 300, 300⟩
      orders := (.insertion, .insertion)
      faults := ⟨true, false⟩ }]

/-- The marked memory meets the constraints. -/
private theorem aged_markedMemory : Aged markedMemory := by
  refine aged_databaseOf (by decide) ?_ ?_ fun t ht => absurd ht.symm (Option.some_ne_none t)
  · intro entry hentry
    simp only [List.mem_cons, List.not_mem_nil, or_false] at hentry
    rcases hentry with rfl | rfl
    · show agedColumns "memories" allMemoryColumns = true
      decide +kernel
    · show agedColumns "fts_memories" ftsMemoriesColumns = true
      decide +kernel
  · intro t ht
    rw [← Option.some.inj ht]
    refine ⟨List.nodup_singleton _, fun r hr => ?_⟩
    rw [List.mem_singleton.mp hr]
    refine ⟨fun column hcolumn => ?_, Int.one_pos⟩
    simp only [List.mem_cons, List.not_mem_nil, or_false] at hcolumn
    rcases hcolumn with rfl | rfl | rfl
    all_goals exact ⟨_, rfl⟩

/-- The marked memory has a document in its database. -/
private theorem hasDocument_markedMemory (x : Value) :
    HasDocument markedMemory x ↔ x = .text "legacy::s1::0" := by
  constructor
  · rintro ⟨t, ht, d, hd, rfl⟩
    rw [← Option.some.inj ht] at hd
    rw [List.mem_singleton.mp hd]
    rfl
  · rintro rfl
    exact ⟨_, rfl, _, List.mem_cons_self, rfl⟩

/-- A database of version 6 whose memory is marked and has a document keeps the property when it is
opened, when the memory is sent again, and when another one comes. In the end the memory is marked
again and has a document. -/
theorem markedMemory_documented :
    ∃ db', initSchema id markedMemory = .ok db' ∧ IndexedHasDoc db' ∧ Reads db' markedStore ∧
      (resentRun.foldl (TenantStore.reingest fun _ _ => 0) markedStore).IndexedHasDoc ∧
      ∃ r ∈ (resentRun.foldl (TenantStore.reingest fun _ _ => 0) markedStore).memories.rows,
        r.memoryId = "legacy::s1::0" ∧ r.indexed = true := by
  have haged := aged_markedMemory
  have hdb : IndexedHasDoc markedMemory := by
    intro t ht _ r hr _ _
    rw [← Option.some.inj ht] at hr
    rw [List.mem_singleton.mp hr]
    exact (hasDocument_markedMemory _).mpr rfl
  have hopenable : Openable markedMemory :=
    ⟨fun t ht => absurd ht.symm (Option.some_ne_none t),
      fun t ht => absurd ht.symm (Option.some_ne_none t)⟩
  obtain ⟨hiff, hall⟩ := haged.initSchema_iff id
  obtain ⟨db', hopened⟩ := hiff.mpr hopenable
  obtain ⟨-, htables⟩ := hall db' hopened
  obtain ⟨hkept, hrun⟩ := indexedHasDoc_opened_iff haged hdb hopened
  have hmarks : MarksDocumented markedMemory := .inl (by decide)
  -- The store reads what the opened database holds.
  have hreads : Reads db' markedStore := by
    have hold : db'.tables "memories" = (markedMemory.tables "memories").map
        (migratedMemories id 6) := htables.memories
    refine ⟨⟨_, hold.trans rfl, ?_, ?_⟩, fun x => ?_⟩
    · rw [migratedMemories_columns, mem_upgradedMemories]
      exact .inl (by decide)
    · decide +kernel
    -- The document of the memory is still there.
    · rw [hasDocument_opened htables, hasDocument_markedMemory]
      constructor
      · rintro ⟨-, hx⟩
        rw [Value.text.inj hx]
        decide +kernel
      · intro hdoc
        obtain ⟨d, hd⟩ := Option.isSome_iff_exists.mp hdoc
        obtain ⟨hfound, hid⟩ := Option.filter_eq_some_iff.mp hd
        have hrows : markedStore.ftsMemories.rows =
            [ftsDoc "legacy::s1::0" "legacy" "a memory written by an older build"] := by
          decide +kernel
        have hmem := (Table.find?_eq_some.mp hfound).1
        rw [hrows] at hmem
        rw [← of_decide_eq_true hid, List.mem_singleton.mp hmem]
        exact ⟨by decide, rfl⟩
  refine ⟨db', hopened, hkept.mpr hmarks, hreads, ?_, by decide +kernel⟩
  -- The memory is sent once more, and then a memory next to it.
  refine hrun hmarks markedStore hreads (fun _ _ => 0) resentRun ?_
  unfold resentRun
  rw [EachStep.cons_iff, EachStep.cons_iff]
  refine ⟨⟨⟨List.nil_sublist _, rfl⟩, fun update hupdate => absurd hupdate List.not_mem_nil,
    fun d hd => absurd hd List.not_mem_nil⟩, ⟨⟨by decide +kernel, rfl⟩, ?_,
    fun d hd => absurd hd List.not_mem_nil⟩, .nil⟩
  intro update hupdate _ r hr hid _
  rw [hid, List.mem_singleton.mp hupdate]
  decide +kernel

end Tellodb
