import Tellodb.Collections.Chunks
import Tellodb.Storage.Pipeline
import Tellodb.Commit.Visible
import Tellodb.Deletion.Exact

/-!
# Documents and marks

What the steps of an ingest leave of the text index and of the memories that are marked as indexed.
`docOf_ftsIndexBatch` and `docOf_commitIngest` give the document of every memory after a step,
`mem_memories_commitIngest`, `mem_markIndexed` and `mem_finishReindex` its row. -/

namespace Tellodb

open Relational Collections

/-! ## Documents -/

/-- The last document of a batch under an identifier. -/
def lastDoc (batch : List (String × String × String)) (x : String) : Option FtsDoc :=
  (batch.reverse.find? fun document => document.1 = x).map fun document =>
    ftsDoc document.1 document.2.1 document.2.2

/-- The document on the row of a memory in a table of documents. -/
def docIn (t : Table FtsDoc.rowid) (x : String) : Option FtsDoc :=
  (t.find? (ftsRowid x)).filter fun d => d.memoryId = x

/-- A document that is indexed is the document of its memory, and the others stay. -/
theorem docIn_ftsIndexDoc {t t' : Table FtsDoc.rowid} {document : String × String × String}
    (h : ftsIndexDoc t document = .ok t') (x : String) :
    docIn t' x = if document.1 = x then some (ftsDoc document.1 document.2.1 document.2.2)
      else docIn t x := by
  unfold ftsIndexDoc at h
  split at h
  · exact absurd h (by simp)
  · rename_i hfree
    rw [← Except.ok.inj h]
    unfold docIn
    rw [Table.find?_insertOrReplace]
    by_cases hx : document.1 = x
    · rw [if_pos hx, if_pos (by rw [← hx]; rfl)]
      simp [Option.filter, ftsDoc, hx]
    · rw [if_neg hx]
      split
      · rename_i hrow
        -- What was on the row of the document was of the same memory, so not of `x`.
        have hnone : (t.find? (ftsRowid x)).filter (fun d => d.memoryId = x) = none := by
          rw [Option.filter_eq_none_iff]
          intro d hd hdx
          refine hfree ⟨d, ?_, ?_⟩
          · have hrowid : ftsRowid document.1 = ftsRowid x := hrow
            rw [hrowid]
            exact hd
          · rw [of_decide_eq_true hdx]
            exact Ne.symm hx
        rw [hnone]
        simp [Option.filter, ftsDoc, hx]
      · rfl

/-- The document of a memory after a batch is indexed: the last one of the batch, else the one that
was there. -/
theorem docOf_ftsIndexBatch {S S' : TenantStore} {batch : List (String × String × String)}
    (h : S.ftsIndexBatch batch = .ok S') (x : String) :
    S'.docOf x = (lastDoc batch x).or (S.docOf x) := by
  -- The loop writes the documents one after the other, so the last one of an identifier counts.
  have hfold : ∀ {t t' : Table FtsDoc.rowid}, batch.foldlM ftsIndexDoc t = .ok t' →
      docIn t' x = (lastDoc batch x).or (docIn t x) := by
    intro t t' ht
    clear h
    induction batch generalizing t with
    | nil =>
      rw [← Except.ok.inj ht]
      rfl
    | cons document rest ih =>
      rw [List.foldlM_cons] at ht
      obtain ⟨t₁, hfirst, hrest⟩ := exists_of_bind ht
      have hlast : lastDoc (document :: rest) x = (lastDoc rest x).or
          (if document.1 = x then some (ftsDoc document.1 document.2.1 document.2.2) else none) := by
        unfold lastDoc
        rw [List.reverse_cons, List.find?_append]
        cases rest.reverse.find? fun document => document.1 = x with
        | some found => rfl
        | none =>
          by_cases hx : document.1 = x
          · simp [hx]
          · simp [hx]
      rw [ih hrest, docIn_ftsIndexDoc hfirst, hlast, Option.or_assoc]
      by_cases hx : document.1 = x
      · rw [if_pos hx, if_pos hx, Option.some_or]
      · rw [if_neg hx, if_neg hx, Option.none_or]
  unfold TenantStore.ftsIndexBatch at h
  obtain ⟨t', ht, h⟩ := exists_of_bind h
  rw [← Except.ok.inj h]
  exact hfold ht

/-- Indexing a batch changes the documents only. -/
theorem ftsIndexBatch_inv {S S' : TenantStore} {batch : List (String × String × String)}
    (h : S.ftsIndexBatch batch = .ok S') : ∃ t, S' = { S with ftsMemories := t } := by
  unfold TenantStore.ftsIndexBatch at h
  obtain ⟨t, -, h⟩ := exists_of_bind h
  exact ⟨t, (Except.ok.inj h).symm⟩

/-- A batch has a last document under an identifier if it has any. -/
theorem exists_lastDoc {batch : List (String × String × String)}
    {document : String × String × String} (h : document ∈ batch) :
    ∃ last ∈ batch, last.1 = document.1 ∧
      lastDoc batch document.1 = some (ftsDoc last.1 last.2.1 last.2.2) := by
  unfold lastDoc
  cases hfound : batch.reverse.find? fun other => other.1 = document.1 with
  | none =>
    have hnone := List.find?_eq_none.mp hfound document (List.mem_reverse.mpr h)
    exact absurd (decide_eq_true rfl) hnone
  | some last =>
    have hname := List.find?_some hfound
    exact ⟨last, List.mem_reverse.mp (List.mem_of_find?_eq_some hfound),
      of_decide_eq_true hname, rfl⟩

/-! ## A commit -/

section

variable {recordedAt : UInt64} {item : UInt64 × String × AgentObservation}

/-- The memories after one is written: its row, and the rows of the others. -/
theorem mem_upsertMemory_iff {t : AutoTable MemoryRow.memoryId MemoryRow.rowid} {r : MemoryRow} :
    r ∈ (upsertMemory recordedAt t item).1.rows ↔
      r = memoryRow recordedAt item (upsertMemory recordedAt t item).2 ∨
        (r ∈ t.rows ∧ r.memoryId ≠ item.2.1) := by
  obtain ⟨timestamp, memoryId, o⟩ := item
  unfold upsertMemory
  cases hfind : t.find? memoryId with
  | some q =>
    obtain ⟨hq, hid⟩ := Table.find?_eq_some.mp hfind
    have hset : (setObservation timestamp recordedAt o).set q =
        memoryRow recordedAt (timestamp, memoryId, o) q.rowid := by
      rw [← hid]
      rfl
    -- The row that was there is set, and the others do not have its number.
    simp only [hfind, AutoTable.updateWhere_rows, List.mem_map]
    constructor
    · rintro ⟨p, hp, rfl⟩
      by_cases hrowid : p.rowid = q.rowid
      · rw [eq_of_rowid hp hq hrowid]
        refine .inl (Eq.trans ?_ hset)
        exact if_pos (decide_eq_true rfl)
      · have hsame : (setObservation timestamp recordedAt o).on (fun v => v.rowid = q.rowid) p = p :=
          if_neg fun h => hrowid (of_decide_eq_true h)
        rw [hsame]
        refine .inr ⟨hp, fun h => hrowid ?_⟩
        rw [t.keyed.eq_of_mem hp hq (h.trans hid.symm)]
    · rintro (rfl | ⟨hr, hne⟩)
      · exact ⟨q, hq, (if_pos (decide_eq_true rfl)).trans hset⟩
      · refine ⟨r, hr, if_neg fun h => hne ?_⟩
        rw [eq_of_rowid hr hq (of_decide_eq_true h)]
        exact hid
  | none =>
    have hnone : ∀ q ∈ t.rows, q.memoryId ≠ memoryId := Table.find?_eq_none.mp hfind
    -- The row is new, and no other has the identifier.
    simp only [hfind]
    rw [AutoTable.insert_rows fun q hq => hnone q hq, List.mem_append, List.mem_singleton]
    constructor
    · rintro (hr | rfl)
      · exact .inr ⟨hr, hnone r hr⟩
      · exact .inl rfl
    · rintro (rfl | ⟨hr, -⟩)
      · exact .inr rfl
      · exact .inl hr

/-- What is found after a memory is written. -/
theorem find?_upsertMemory (t : AutoTable MemoryRow.memoryId MemoryRow.rowid) (x : String) :
    (upsertMemory recordedAt t item).1.find? x =
      if item.2.1 = x then some (memoryRow recordedAt item (upsertMemory recordedAt t item).2)
      else t.find? x := by
  refine Option.ext fun r => ?_
  rw [Table.find?_eq_some, mem_upsertMemory_iff]
  by_cases hx : item.2.1 = x
  · rw [if_pos hx, Option.some_inj]
    constructor
    · rintro ⟨rfl | ⟨-, hne⟩, hid⟩
      · rfl
      · exact absurd (hid.trans hx.symm) hne
    · rintro rfl
      exact ⟨.inl rfl, hx⟩
  · rw [if_neg hx, Table.find?_eq_some]
    constructor
    · rintro ⟨rfl | ⟨hr, -⟩, hid⟩
      · exact absurd hid hx
      · exact ⟨hr, hid⟩
    · rintro ⟨hr, hid⟩
      exact ⟨.inr ⟨hr, fun h => hx (h.symm.trans hid)⟩, hid⟩

/-- The last memory of a batch under an identifier. -/
def lastItem (items : List (UInt64 × String × AgentObservation)) (x : String) :
    Option (UInt64 × String × AgentObservation) :=
  items.reverse.find? fun item => item.2.1 = x

/-- A last memory of a batch is one of the batch. -/
theorem mem_of_lastItem {items : List (UInt64 × String × AgentObservation)} {x : String}
    (h : lastItem items x = some item) : item ∈ items ∧ item.2.1 = x := by
  have hname := List.find?_some h
  exact ⟨List.mem_reverse.mp (List.mem_of_find?_eq_some h), of_decide_eq_true hname⟩

/-- A batch has no last memory under an identifier if it has none at all. -/
theorem lastItem_eq_none {items : List (UInt64 × String × AgentObservation)} {x : String} :
    lastItem items x = none ↔ ∀ item ∈ items, item.2.1 ≠ x := by
  simp [lastItem]

/-- The last memory of a batch with one more. -/
theorem lastItem_append (items : List (UInt64 × String × AgentObservation)) (x : String) :
    lastItem (items ++ [item]) x = if item.2.1 = x then some item else lastItem items x := by
  unfold lastItem
  rw [List.reverse_append, List.reverse_singleton, List.singleton_append, List.find?_cons]
  by_cases hx : item.2.1 = x
  · simp [hx]
  · simp [hx]

/-- The memories of a batch are written one after the other. -/
theorem insertObservationsTx_memories (S : TenantStore)
    (items : List (UInt64 × String × AgentObservation)) :
    (insertObservationsTx recordedAt S items).1.memories =
      items.foldl (fun t item => (upsertMemory recordedAt t item).1) S.memories := by
  have hfold : ∀ (t : AutoTable MemoryRow.memoryId MemoryRow.rowid) (v : Table VectorRow.vectorId)
      (rowids : List ℕ), (items.foldl
        (fun (s : AutoTable MemoryRow.memoryId MemoryRow.rowid × Table VectorRow.vectorId × List ℕ)
            item =>
          ((upsertMemory recordedAt s.1 item).1,
            putVector (upsertMemory recordedAt s.1 item).2 s.2.1 item,
            s.2.2 ++ [(upsertMemory recordedAt s.1 item).2])) (t, v, rowids)).1 =
        items.foldl (fun t item => (upsertMemory recordedAt t item).1) t := by
    induction items with
    | nil => exact fun _ _ _ => rfl
    | cons item rest ih => exact fun t v rowids => ih _ _ _
  exact hfold S.memories S.vectorLookup []

/-- A column that is found after the memories of a batch are written. -/
theorem column_insertObservationsTx {α : Type} {column : MemoryRow → α}
    {written : UInt64 × String × AgentObservation → α}
    (hwritten : ∀ item rowid, column (memoryRow recordedAt item rowid) = written item)
    (S : TenantStore) (items : List (UInt64 × String × AgentObservation)) (x : String) :
    ((insertObservationsTx recordedAt S items).1.memories.find? x).map column =
      (lastItem items x).elim ((S.memories.find? x).map column) fun item =>
        some (written item) := by
  rw [insertObservationsTx_memories]
  induction items using List.reverseRecOn with
  | nil => rfl
  | append_singleton items item ih =>
    rw [List.foldl_append, List.foldl_cons, List.foldl_nil, find?_upsertMemory, lastItem_append]
    by_cases hx : item.2.1 = x
    · rw [if_pos hx, if_pos hx, Option.map_some, hwritten]
      rfl
    · rw [if_neg hx, if_neg hx, ih]

/-- The memories after those of a batch are written: the last one under each identifier, and those
under other identifiers. -/
theorem mem_insertObservationsTx {S : TenantStore} {r : MemoryRow}
    {items : List (UInt64 × String × AgentObservation)}
    (hr : r ∈ (insertObservationsTx recordedAt S items).1.memories.rows) :
    (∃ item, lastItem items r.memoryId = some item ∧ r = memoryRow recordedAt item r.rowid) ∨
      (lastItem items r.memoryId = none ∧ r ∈ S.memories.rows) := by
  rw [insertObservationsTx_memories] at hr
  induction items using List.reverseRecOn with
  | nil => exact .inr ⟨rfl, hr⟩
  | append_singleton items item ih =>
    rw [List.foldl_append, List.foldl_cons, List.foldl_nil] at hr
    rw [lastItem_append]
    rcases mem_upsertMemory_iff.mp hr with hr | ⟨hr, hne⟩
    · refine .inl ⟨item, if_pos ?_, ?_⟩
      · rw [hr]
        rfl
      · rw [hr]
        rfl
    · rw [if_neg (Ne.symm hne)]
      exact ih hr

end

/-! ### The memories that a batch re-embeds -/

/-- A memory after some are to be indexed again. -/
theorem mem_updateNeighbours {S : TenantStore} {r' : MemoryRow} {updates : List (String × List ℚ)}
    (h : r' ∈ (updateNeighbourEmbeddingsTx S updates).1.memories.rows) :
    ∃ r ∈ S.memories.rows, r' = if r.memoryId ∈ (updateNeighbourEmbeddingsTx S updates).2.map
      NeighbourVector.memoryId then { r with indexed := false } else r := by
  show ∃ r ∈ S.memories.rows, r' = if r.memoryId ∈ (neighbourVectors S.vectorLookup updates).map
      NeighbourVector.memoryId then { r with indexed := false } else r
  change r' ∈ (List.foldl _ S.memories (neighbourVectors S.vectorLookup updates)).rows at h
  generalize neighbourVectors S.vectorLookup updates = applied at h ⊢
  -- The neighbours are unmarked in turn, and a row may be among them more than once.
  induction applied using List.reverseRecOn generalizing r' with
  | nil => exact ⟨r', h, by simp⟩
  | append_singleton applied n ih =>
    rw [List.foldl_append, List.foldl_cons, List.foldl_nil, AutoTable.updateWhere_rows,
      List.mem_map] at h
    obtain ⟨q, hq, rfl⟩ := h
    obtain ⟨r, hr, rfl⟩ := ih hq
    refine ⟨r, hr, ?_⟩
    rw [List.map_append, List.map_singleton]
    unfold Assignment.on
    by_cases hold : r.memoryId ∈ applied.map NeighbourVector.memoryId
    · rw [if_pos hold, if_pos (List.mem_append_left _ hold)]
      split <;> rfl
    · rw [if_neg hold]
      by_cases hnew : r.memoryId = n.memoryId
      · rw [if_pos (decide_eq_true hnew), if_pos (by simp [hnew])]
        rfl
      · rw [if_neg fun h => hnew (of_decide_eq_true h), if_neg]
        rw [List.mem_append, List.mem_singleton]
        exact not_or.mpr ⟨hold, hnew⟩

section

variable {cosineSimilarity : List ℚ → List ℚ → ℚ} {order : HashOrder} {clock : IngestClock}
  {S S' : TenantStore} {b : IngestBatches} {outcome : CommitOutcome}

/-- What a commit hands to the steps after it. -/
theorem commitIngest_outcome
    (h : S.commitIngest cosineSimilarity order clock b = .ok (S', outcome)) :
    outcome = commitOutcome b (insertObservationsTx clock.observations S b.observations).2
      (neighbourVectors (insertObservationsTx clock.observations S b.observations).1.vectorLookup
        b.neighbourEmbeddingUpdates) := by
  unfold TenantStore.commitIngest at h
  change (insertMetricsTx _ _ _ >>= _) = _ at h
  obtain ⟨R₁, hmetrics, h⟩ := exists_of_bind h
  obtain ⟨t, rfl⟩ := insertMetricsTx_inv hmetrics
  obtain ⟨⟨R, updates⟩, hfacts, h⟩ := exists_of_bind h
  exact (Prod.mk.inj (Except.ok.inj h)).2.symm

/-- The memories that are marked after a commit: those of the batch, and those that it
re-embeds. -/
theorem mem_indexedMemoryIds
    (h : S.commitIngest cosineSimilarity order clock b = .ok (S', outcome)) {x : String} :
    x ∈ outcome.indexedMemoryIds ↔ (∃ item ∈ b.observations, item.2.1 = x) ∨
      x ∈ (neighbourVectors
        (insertObservationsTx clock.observations S b.observations).1.vectorLookup
          b.neighbourEmbeddingUpdates).map NeighbourVector.memoryId := by
  rw [commitIngest_outcome h]
  unfold commitOutcome
  rw [List.mem_dedup, mem_orderBy, List.mem_append, List.mem_map]

/-- The memories after a commit: the last one of the batch under each identifier, and those under
other identifiers, which wait to be indexed again if they are re-embedded. -/
theorem mem_memories_commitIngest
    (h : S.commitIngest cosineSimilarity order clock b = .ok (S', outcome)) {r' : MemoryRow}
    (hr' : r' ∈ S'.memories.rows) :
    (∃ item, lastItem b.observations r'.memoryId = some item ∧
        r' = memoryRow clock.observations item r'.rowid) ∨
      (lastItem b.observations r'.memoryId = none ∧ ∃ r ∈ S.memories.rows,
        r' = if r.memoryId ∈ outcome.indexedMemoryIds then { r with indexed := false } else r) := by
  obtain ⟨S₁, hmemories, hvectors, hS', -⟩ := commitIngest_memories h
  rw [hS'] at hr'
  obtain ⟨r, hr, heq⟩ := mem_updateNeighbours hr'
  have hid : r'.memoryId = r.memoryId := by
    rw [heq]
    split <;> rfl
  rw [hmemories] at hr
  rw [hid]
  rcases mem_insertObservationsTx hr with ⟨item, hlast, hrow⟩ | ⟨hlast, hold⟩
  · refine .inl ⟨item, hlast, ?_⟩
    -- A memory of the batch waits to be indexed anyway.
    have hwaits : { r with indexed := false } = r := by
      rw [hrow]
      rfl
    rw [hwaits, ite_self] at heq
    rw [heq]
    exact hrow
  · refine .inr ⟨hlast, r, hold, ?_⟩
    rw [heq]
    refine if_congr ?_ rfl rfl
    rw [mem_indexedMemoryIds h, ← hvectors]
    constructor
    · exact .inr
    · rintro (⟨item, hitem, hsame⟩ | hneighbour)
      · exact absurd hsame (lastItem_eq_none.mp hlast item hitem)
      · exact hneighbour

/-- A memory that is indexed after a commit is not of the commit. -/
theorem mem_of_indexed_commitIngest
    (h : S.commitIngest cosineSimilarity order clock b = .ok (S', outcome)) {r : MemoryRow}
    (hr : r ∈ S'.memories.rows) (hindexed : r.indexed = true) :
    r ∈ S.memories.rows ∧ r.memoryId ∉ outcome.indexedMemoryIds := by
  rcases mem_memories_commitIngest h hr with ⟨item, -, hrow⟩ | ⟨-, q, hq, hrow⟩
  · rw [hrow] at hindexed
    exact absurd hindexed (by simp [memoryRow, newMemory])
  · by_cases hmem : q.memoryId ∈ outcome.indexedMemoryIds
    · rw [if_pos hmem] at hrow
      rw [hrow] at hindexed
      exact absurd hindexed (by simp)
    · rw [if_neg hmem] at hrow
      rw [hrow]
      exact ⟨hq, hmem⟩

/-- The documents of the routers that a commit merges. -/
def TenantStore.routerDocs (S : TenantStore) (b : IngestBatches) : List FtsDoc :=
  (((b.sessionRouterUpdates.foldl (mergeFragment S.sessionRouter) []).map Prod.snd).filter
    fun record => !record.routerText.isEmpty).map fun record =>
      routerDoc record.entityId record.sessionId record.routerText

/-- The documents after a commit: those of the routers that it merges are written. -/
theorem commitIngest_ftsMemories
    (h : S.commitIngest cosineSimilarity order clock b = .ok (S', outcome)) :
    S'.ftsMemories = (S.routerDocs b).foldl Table.insertOrReplace S.ftsMemories := by
  obtain ⟨t, T, edges, cards, rfl⟩ := commitIngest_frame h
  unfold TenantStore.routerDocs
  rw [List.foldl_map]
  rfl

/-- The index of routers after a commit: the routers that it merges are written. -/
theorem commitIngest_ftsSessionRouter
    (h : S.commitIngest cosineSimilarity order clock b = .ok (S', outcome)) :
    S'.ftsSessionRouter =
      ((b.sessionRouterUpdates.foldl (mergeFragment S.sessionRouter) []).map Prod.snd).foldl
        (fun t record => t.insertOrReplace
          ⟨record.sessionId, record.entityId, record.routerText⟩) S.ftsSessionRouter := by
  obtain ⟨t, T, edges, cards, rfl⟩ := commitIngest_frame h
  rfl

/-- The queue after a commit: the consolidations of the batch are entered. -/
theorem commitIngest_consolidationQueue
    (h : S.commitIngest cosineSimilarity order clock b = .ok (S', outcome)) :
    S'.consolidationQueue =
      (insertConsolidationTasksTx S b.consolidationTasks).consolidationQueue := by
  obtain ⟨t, T, edges, cards, rfl⟩ := commitIngest_frame h
  rfl

/-- A commit leaves the core profiles alone. -/
theorem commitIngest_coreProfiles
    (h : S.commitIngest cosineSimilarity order clock b = .ok (S', outcome)) :
    S'.coreProfiles = S.coreProfiles := by
  obtain ⟨t, T, edges, cards, rfl⟩ := commitIngest_frame h
  rfl

/-- A commit leaves the document of a memory alone if no router that it merges takes its row. -/
theorem docOf_commitIngest
    (h : S.commitIngest cosineSimilarity order clock b = .ok (S', outcome)) {x : String}
    (hx : ∀ d ∈ S.routerDocs b, d.rowid ≠ ftsRowid x) : S'.docOf x = S.docOf x := by
  unfold TenantStore.docOf
  rw [commitIngest_ftsMemories h, Table.find?_foldl_insertOrReplace_of_ne _ hx]

/-- A memory keeps having a document if the routers that a commit merges take its row with documents
of its own only. -/
theorem isSome_docOf_commitIngest
    (h : S.commitIngest cosineSimilarity order clock b = .ok (S', outcome)) {x : String}
    (hx : ∀ d ∈ S.routerDocs b, d.rowid = ftsRowid x → d.memoryId = x)
    (hsome : (S.docOf x).isSome) : (S'.docOf x).isSome := by
  have hfold : ∀ t : Table FtsDoc.rowid, (docIn t x).isSome →
      (docIn ((S.routerDocs b).foldl Table.insertOrReplace t) x).isSome := by
    generalize S.routerDocs b = docs at hx
    induction docs with
    | nil => exact fun _ ht => ht
    | cons d rest ih =>
      intro t ht
      refine ih (fun d hd => hx d (List.mem_cons_of_mem _ hd)) _ ?_
      unfold docIn
      rw [Table.find?_insertOrReplace]
      split
      · rename_i hrow
        have hsame := hx d List.mem_cons_self hrow
        simp [Option.filter, hsame]
      · exact ht
  unfold TenantStore.docOf at hsome ⊢
  rw [commitIngest_ftsMemories h]
  exact hfold _ hsome

end

/-! ## Marks -/

/-- A memory after some are marked. -/
theorem mem_markIndexed {S : TenantStore} {memoryIds : List String} {r' : MemoryRow}
    (h : r' ∈ (S.markIndexed memoryIds).memories.rows) :
    ∃ r ∈ S.memories.rows,
      r' = if r.memoryId ∈ memoryIds then { r with indexed := true } else r := by
  change r' ∈ (List.foldl _ S.memories memoryIds).rows at h
  induction memoryIds using List.reverseRecOn generalizing r' with
  | nil => exact ⟨r', h, by simp⟩
  | append_singleton memoryIds x ih =>
    rw [List.foldl_append, List.foldl_cons, List.foldl_nil, AutoTable.updateWhere_rows,
      List.mem_map] at h
    obtain ⟨q, hq, rfl⟩ := h
    obtain ⟨r, hr, rfl⟩ := ih hq
    refine ⟨r, hr, ?_⟩
    unfold Assignment.on
    by_cases hold : r.memoryId ∈ memoryIds
    · rw [if_pos hold, if_pos (List.mem_append_left _ hold)]
      split <;> rfl
    · rw [if_neg hold]
      by_cases hnew : r.memoryId = x
      · rw [if_pos (decide_eq_true hnew), if_pos (by simp [hnew])]
        rfl
      · rw [if_neg fun h => hnew (of_decide_eq_true h), if_neg]
        rw [List.mem_append, List.mem_singleton]
        exact not_or.mpr ⟨hold, hnew⟩

/-- A memory after one row of a reindexing pass, which sets its mark or clears it. -/
theorem mem_finishRow {t : AutoTable MemoryRow.memoryId MemoryRow.rowid} {row : PendingIndexRow}
    {r' : MemoryRow} (h : r' ∈ (finishRow t row).rows) :
    ∃ r ∈ t.rows, r' = r ∨ r' = { r with indexed := false } ∨
      r' = { r with indexed := true } ∧ row.memoryId = r.memoryId ∧
        row.contentHash = r.contentHash := by
  unfold finishRow at h
  dsimp only at h
  split at h
  · obtain ⟨r, hr, rfl⟩ := List.mem_map.mp h
    refine ⟨r, hr, ?_⟩
    unfold Assignment.on
    split
    · rename_i hfinishes
      have hboth := of_decide_eq_true hfinishes
      exact .inr (.inr ⟨rfl, hboth.1.symm, hboth.2.1.symm⟩)
    · exact .inl rfl
  · obtain ⟨r, hr, rfl⟩ := List.mem_map.mp h
    refine ⟨r, hr, ?_⟩
    unfold Assignment.on
    split
    · exact .inr (.inl rfl)
    · exact .inl rfl

/-- A memory after a reindexing pass: it is indexed if it was, or if the pass read its content. -/
theorem mem_finishReindex {S : TenantStore} {rows : List PendingIndexRow} {r' : MemoryRow}
    (h : r' ∈ (S.finishReindex rows).memories.rows) :
    ∃ r ∈ S.memories.rows, (r' = r ∨ r' = { r with indexed := false } ∨
      r' = { r with indexed := true } ∧
        ∃ row ∈ rows, row.memoryId = r.memoryId ∧ row.contentHash = r.contentHash) := by
  change r' ∈ (rows.foldl finishRow S.memories).rows at h
  induction rows using List.reverseRecOn generalizing r' with
  | nil => exact ⟨r', h, .inl rfl⟩
  | append_singleton rows row ih =>
    rw [List.foldl_append, List.foldl_cons, List.foldl_nil] at h
    obtain ⟨q, hq, hr'⟩ := mem_finishRow h
    obtain ⟨r, hr, hcase⟩ := ih hq
    refine ⟨r, hr, ?_⟩
    have hrest : ∀ other ∈ rows, other ∈ rows ++ [row] := fun _ => List.mem_append_left _
    have hid : q.memoryId = r.memoryId ∧ q.contentHash = r.contentHash := by
      rcases hcase with rfl | rfl | ⟨rfl, -⟩ <;> exact ⟨rfl, rfl⟩
    rcases hr' with rfl | rfl | ⟨rfl, hrow⟩
    · refine hcase.imp_right (Or.imp_right fun ⟨heq, other, hother, hsame⟩ => ?_)
      exact ⟨heq, other, hrest other hother, hsame⟩
    · rcases hcase with rfl | rfl | ⟨rfl, -⟩
      all_goals exact .inr (.inl rfl)
    · refine .inr (.inr ⟨?_, row, List.mem_append_right _ List.mem_cons_self, ?_⟩)
      · rcases hcase with rfl | rfl | ⟨rfl, -⟩ <;> rfl
      · rw [← hid.1, ← hid.2]
        exact hrow

/-! ## Memories that wait to be indexed -/

/-- What a reindexing pass reads of a memory. -/
theorem pendingOf_eq {S : TenantStore} {r : MemoryRow} {row : PendingIndexRow}
    (h : row ∈ pendingOf S r) : row.memoryId = r.memoryId ∧ row.entityId = r.entityId ∧
      row.content = r.content ∧ row.kind = r.kind ∧ row.contentHash = r.contentHash := by
  unfold pendingOf at h
  cases hvectors : S.vectorLookup.rows.filter fun v => v.memoryId = r.memoryId with
  | nil =>
    simp only [hvectors, List.mem_singleton] at h
    rw [h]
    exact ⟨rfl, rfl, rfl, rfl, rfl⟩
  | cons v vectors =>
    simp only [hvectors, List.mem_map] at h
    obtain ⟨v, -, rfl⟩ := h
    exact ⟨rfl, rfl, rfl, rfl, rfl⟩

/-- A reindexing pass reads a memory at least once. -/
theorem exists_pendingOf (S : TenantStore) (r : MemoryRow) : ∃ row, row ∈ pendingOf S r := by
  unfold pendingOf
  cases S.vectorLookup.rows.filter fun v => v.memoryId = r.memoryId with
  | nil => exact ⟨_, List.mem_singleton.mpr rfl⟩
  | cons v vectors => exact ⟨_, List.mem_map_of_mem List.mem_cons_self⟩

/-- What `reindex_memory_ids` reads: the memories of the list that wait to be indexed. -/
theorem mem_pendingRowsOf {S : TenantStore} {memoryIds : List String} {row : PendingIndexRow} :
    row ∈ S.pendingRowsOf memoryIds ↔ ∃ r ∈ S.memories.rows, r.indexed = false ∧
      r.memoryId ∈ memoryIds ∧ row ∈ pendingOf S r := by
  have hchunks : ∀ x, x ∈ memoryIds ↔ ∃ chunk ∈ memoryIds.toChunks inChunk, x ∈ chunk := by
    intro x
    rw [← List.mem_flatten, flatten_toChunks]
  unfold TenantStore.pendingRowsOf
  simp only [List.mem_flatMap, List.mem_filter, Bool.and_eq_true, Bool.not_eq_true',
    decide_eq_true_eq, hchunks]
  constructor
  · rintro ⟨chunk, hchunk, r, ⟨hr, hindexed, hmem⟩, hrow⟩
    exact ⟨r, hr, hindexed, ⟨chunk, hchunk, hmem⟩, hrow⟩
  · rintro ⟨r, hr, hindexed, ⟨chunk, hchunk, hmem⟩, hrow⟩
    exact ⟨chunk, hchunk, r, ⟨hr, hindexed, hmem⟩, hrow⟩

/-- A reindexing pass writes a document for each memory that it reads, but for synthetic
queries. -/
theorem exists_reindexDocs {order : HashOrder} {S : TenantStore} {rows : List PendingIndexRow}
    {row : PendingIndexRow} (hrow : row ∈ rows) (hkind : row.kind ≠ .syntheticQuery) :
    (row.memoryId, row.entityId, contentForIndex row.content) ∈ S.reindexDocs order rows := by
  refine List.mem_append_left _ (List.mem_filterMap.mpr ⟨row, hrow, ?_⟩)
  unfold indexTextFor
  rw [if_pos hkind]
  rfl

end Tellodb
