import Tellodb.Storage.Tasks
import Tellodb.Index.Docs

/-!
# Marks of tasks that run side by side

A memory that is marked as indexed is to have the document of its stored content (`IndexedFresh`).
An ingest marks its memories by their identifiers alone and writes documents without a look at what
is stored, so an ingest that is slow may mark the content of another, or write an old document over
a newer one (`stale_document`); a reindexing pass marks a memory only if it still has the content
that it read. `indexedFresh_run` keeps the property through every run in which no commit comes
between the documents of a task and its marks, and no document is written late
(`World.Orderly`). -/

namespace Tellodb

open Relational

/-! ## The property -/

/-- The document of a memory is the index text of a content. -/
def TenantStore.Documents (S : TenantStore) (x : String) (kind : MemoryKind) (content : String) :
    Prop :=
  ∀ text ∈ indexTextFor kind content, (S.docOf x).map FtsDoc.content = some text

/-- Every memory that is marked as indexed has the document of its stored content. -/
def TenantStore.IndexedFresh (S : TenantStore) : Prop :=
  ∀ r ∈ S.memories.rows, r.indexed = true → S.Documents r.memoryId r.kind r.content

instance (S : TenantStore) (x : String) (kind : MemoryKind) (content : String) :
    Decidable (S.Documents x kind content) :=
  inferInstanceAs (Decidable (∀ text ∈ indexTextFor kind content, _))

instance (S : TenantStore) : Decidable S.IndexedFresh :=
  inferInstanceAs (Decidable (∀ r ∈ S.memories.rows, _))

/-! ## What a task has left to do -/

/-- A task is to mark a memory that has some content, and will do so if nothing else is written. -/
def Task.Marks (x contentHash : String) : Task → Prop
  | .committed ingest => x ∈ ingest.outcome.indexedMemoryIds
  | .failed ingest => x ∈ ingest.outcome.indexedMemoryIds
  | .read rows repairs =>
    (∃ row ∈ rows, row.memoryId = x ∧ row.contentHash = contentHash) ∨
      ∃ ingest ∈ repairs, x ∈ ingest.outcome.indexedMemoryIds
  | .gathered rows _ repairs =>
    (∃ row ∈ rows, row.memoryId = x ∧ row.contentHash = contentHash) ∨
      ∃ ingest ∈ repairs, x ∈ ingest.outcome.indexedMemoryIds
  | .indexed rows repairs =>
    (∃ row ∈ rows, row.memoryId = x ∧ row.contentHash = contentHash) ∨
      ∃ ingest ∈ repairs, x ∈ ingest.outcome.indexedMemoryIds
  | .written ingest => x ∈ ingest.outcome.indexedMemoryIds
  | .consolidating _ => False
  | .consolidated _ _ => False

/-- A task is to write a document of a memory before it marks it. An ingest that failed reads first
which of its memories wait. -/
def Task.Writes (x : String) : Task → Prop
  | .committed ingest => ∃ document ∈ ingest.outcome.ftsBatch, document.1 = x
  | .failed _ => True
  | .read rows _ => ∃ row ∈ rows, row.memoryId = x ∧ row.kind ≠ .syntheticQuery
  | .gathered _ docs _ => ∃ document ∈ docs, document.1 = x
  | _ => False

/-- A task is to mark a memory with the document that it finds. -/
def Task.Settles (x contentHash : String) (task : Task) : Prop :=
  task.Marks x contentHash ∧ ¬ task.Writes x

/-- The documents that the next transaction of a task writes. -/
def Task.nextDocs : Task → List (String × String × String)
  | .committed ingest => ingest.outcome.ftsBatch
  | .gathered _ docs _ => docs
  | _ => []

/-! ## The condition -/

/-- A commit that does not come between the documents of a task and its marks. -/
structure World.CommitsInTurn (w : World) (b : IngestBatches) : Prop where
  ftsBatch : b.ftsBatch = ftsBatchOf b.observations
  /-- What a task is to mark with the document that it finds is not written, unless the document is
  that of the new content already. -/
  settled : ∀ item ∈ b.observations, lastItem b.observations item.2.1 = some item →
    ∀ task ∈ w.tasks, task.Settles item.2.1 item.2.2.contentHash →
      w.store.Documents item.2.1 item.2.2.kind item.2.2.textualContent
  /-- A memory that is re-embedded without being written has its document. -/
  neighbours : ∀ update ∈ b.neighbourEmbeddingUpdates, lastItem b.observations update.1 = none →
    ∀ r ∈ w.store.memories.rows, r.memoryId = update.1 →
      w.store.Documents r.memoryId r.kind r.content
  /-- No router takes the place of the document of a memory. -/
  routers : ∀ d ∈ w.store.routerDocs b,
    (∀ r ∈ w.store.memories.rows, d.rowid ≠ ftsRowid r.memoryId) ∧
      ∀ item ∈ b.observations, d.rowid ≠ ftsRowid item.2.1

/-- The documents that a task writes next are those of the stored contents. -/
def World.WritesFresh (w : World) (task : Task) : Prop :=
  ∀ r ∈ w.store.memories.rows, ∀ d ∈ lastDoc task.nextDocs r.memoryId,
    ∀ text ∈ indexTextFor r.kind r.content, d.content = text

/-- A step that does not come between the documents of a task and its marks, and writes no document
late. -/
def World.Orderly (w : World) : WorldStep → Prop
  | .commit _ _ b => w.CommitsInTurn b
  | .advance index _ _ _ => ∀ task ∈ w.tasks[index]?, w.WritesFresh task
  | _ => True

section

variable {w : World}

instance (x contentHash : String) (task : Task) : Decidable (task.Settles x contentHash) := by
  unfold Task.Settles Task.Marks Task.Writes
  cases task <;> infer_instance

instance (b : IngestBatches) : Decidable (w.CommitsInTurn b) :=
  decidable_of_iff (_ ∧ _ ∧ _ ∧ _)
    ⟨fun ⟨h₁, h₂, h₃, h₄⟩ => ⟨h₁, h₂, h₃, h₄⟩, fun ⟨h₁, h₂, h₃, h₄⟩ => ⟨h₁, h₂, h₃, h₄⟩⟩

instance (task : Task) : Decidable (w.WritesFresh task) :=
  inferInstanceAs (Decidable (∀ r ∈ w.store.memories.rows, _))

instance : (a : WorldStep) → Decidable (w.Orderly a)
  | .commit _ _ b => inferInstanceAs (Decidable (w.CommitsInTurn b))
  | .advance index _ _ _ =>
    inferInstanceAs (Decidable (∀ task ∈ w.tasks[index]?, w.WritesFresh task))
  | .reindex _ => .isTrue trivial
  | .consolidate _ => .isTrue trivial
  | .fail _ => .isTrue trivial

end

/-! ## One step -/

/-- What a task is to mark with the document that it finds has the document of its content. -/
def TenantStore.SettledFresh (S : TenantStore) (task : Task) : Prop :=
  ∀ r ∈ S.memories.rows, task.Settles r.memoryId r.contentHash →
    S.Documents r.memoryId r.kind r.content

/-- The memories that are marked, or are about to be, have their documents. -/
structure World.Sound (w : World) : Prop where
  indexed : w.store.IndexedFresh
  settled : ∀ task ∈ w.tasks, w.store.SettledFresh task

section

variable {S S' : TenantStore} {x : String} {kind : MemoryKind} {content : String}

/-- A synthetic query has no document to wait for. -/
theorem TenantStore.documents_synthetic (S : TenantStore) (x content : String) :
    S.Documents x .syntheticQuery content := by
  intro text htext
  exact absurd htext (by simp [indexTextFor])

/-- Documents are read from the text index. -/
theorem TenantStore.Documents.of_docOf (h : S.Documents x kind content)
    (hdoc : S'.docOf x = S.docOf x) : S'.Documents x kind content := by
  intro text htext
  rw [hdoc]
  exact h text htext

/-- A batch of documents that are those of a content leaves the document of that content, if it was
there or is of the batch. -/
theorem documents_ftsIndexBatch {batch : List (String × String × String)}
    (h : S.ftsIndexBatch batch = .ok S')
    (hfresh : ∀ d ∈ lastDoc batch x, ∀ text ∈ indexTextFor kind content, d.content = text)
    (hdoc : (∃ document ∈ batch, document.1 = x) ∨ S.Documents x kind content) :
    S'.Documents x kind content := by
  intro text htext
  rw [docOf_ftsIndexBatch h]
  cases hlast : lastDoc batch x with
  | some d =>
    rw [Option.some_or, Option.map_some, hfresh d hlast text htext]
  | none =>
    rw [Option.none_or]
    rcases hdoc with ⟨document, hmem, rfl⟩ | hdoc
    · obtain ⟨last, -, -, hsome⟩ := exists_lastDoc hmem
      rw [hsome] at hlast
      exact absurd hlast (Option.some_ne_none _)
    · exact hdoc text htext

/-- A pass that has just read its memories writes a document of each of them. -/
theorem settledFresh_read {rows : List PendingIndexRow} {repairs : Option Ingest}
    (hrows : ∀ row ∈ rows, ∃ r ∈ S.memories.rows, row ∈ pendingOf S r)
    (hrepairs : ∀ ingest ∈ repairs, ∀ r ∈ S.memories.rows,
      r.memoryId ∈ ingest.outcome.indexedMemoryIds →
        r.indexed = true ∨ ∃ row ∈ rows, row ∈ pendingOf S r)
    (hS : S.IndexedFresh) : S.SettledFresh (.read rows repairs) := by
  rintro r hr ⟨hmarks, hwrites⟩
  -- A row of the memory is of its kind, and the pass writes a document of it unless it is a
  -- synthetic query.
  have hread : ∀ row ∈ rows, row.memoryId = r.memoryId → row.kind = r.kind →
      S.Documents r.memoryId r.kind r.content := by
    intro row hrow hid hkind
    by_cases hsynthetic : r.kind = .syntheticQuery
    · rw [hsynthetic]
      exact S.documents_synthetic _ _
    · exact absurd ⟨row, hrow, hid, hkind ▸ hsynthetic⟩ hwrites
  rcases hmarks with ⟨row, hrow, hid, -⟩ | ⟨ingest, hingest, hmem⟩
  · obtain ⟨q, hq, hpending⟩ := hrows row hrow
    obtain ⟨hqid, -, -, hkind, -⟩ := pendingOf_eq hpending
    obtain rfl := S.memories.keyed.eq_of_mem hq hr (hqid.symm.trans hid)
    exact hread row hrow hqid hkind
  · rcases hrepairs ingest hingest r hr hmem with hindexed | ⟨row, hrow, hpending⟩
    · exact hS r hr hindexed
    · obtain ⟨hqid, -, -, hkind, -⟩ := pendingOf_eq hpending
      exact hread row hrow hqid hkind

end

section

variable {cosineSimilarity : List ℚ → List ℚ → ℚ} {order : HashOrder} {clock : IngestClock}
  {w : World} {b : IngestBatches} {S' : TenantStore} {outcome : CommitOutcome}

/-- What a memory that may wait to be indexed again keeps. -/
theorem same_of_reembedded {p : Prop} [Decidable p] {r r' : MemoryRow}
    (h : r' = if p then { r with indexed := false } else r) : r'.memoryId = r.memoryId ∧
      r'.kind = r.kind ∧ r'.content = r.content ∧ r'.contentHash = r.contentHash := by
  rw [h]
  split <;> exact ⟨rfl, rfl, rfl, rfl⟩

/-- The documents of the memories stay in a commit in turn. -/
theorem World.CommitsInTurn.documents (hb : w.CommitsInTurn b)
    (hcommit : w.store.commitIngest cosineSimilarity order clock b = .ok (S', outcome))
    {r : MemoryRow} (hr : r ∈ w.store.memories.rows)
    (hdoc : w.store.Documents r.memoryId r.kind r.content) :
    S'.Documents r.memoryId r.kind r.content :=
  hdoc.of_docOf (docOf_commitIngest hcommit fun d hd => (hb.routers d hd).1 r hr)

/-- A commit in turn leaves what the other tasks settle documented. -/
theorem World.CommitsInTurn.settledFresh (hb : w.CommitsInTurn b)
    (hcommit : w.store.commitIngest cosineSimilarity order clock b = .ok (S', outcome))
    {task : Task} (htask : task ∈ w.tasks) (hw : w.store.SettledFresh task) :
    S'.SettledFresh task := by
  intro r' hr' hsettles
  rcases mem_memories_commitIngest hcommit hr' with ⟨item, hlast, hrow⟩ | ⟨-, r, hr, hrow⟩
  · obtain ⟨hitem, hid⟩ := mem_of_lastItem hlast
    have hsame : r'.contentHash = item.2.2.contentHash ∧ r'.kind = item.2.2.kind ∧
        r'.content = item.2.2.textualContent := by
      rw [hrow]
      exact ⟨rfl, rfl, rfl⟩
    obtain ⟨hhash, hkind, hcontent⟩ := hsame
    rw [← hid] at hlast hsettles ⊢
    rw [hhash] at hsettles
    rw [hkind, hcontent]
    exact (hb.settled item hitem hlast task htask hsettles).of_docOf
      (docOf_commitIngest hcommit fun d hd => (hb.routers d hd).2 item hitem)
  · obtain ⟨hid, hkind, hcontent, hhash⟩ := same_of_reembedded hrow
    rw [hid, hhash] at hsettles
    rw [hid, hkind, hcontent]
    exact hb.documents hcommit hr (hw r hr hsettles)

/-- The new ingest is to write the documents of its batch, and what it re-embeds is documented. -/
theorem World.CommitsInTurn.settledFresh_committed (hb : w.CommitsInTurn b)
    (hcommit : w.store.commitIngest cosineSimilarity order clock b = .ok (S', outcome)) :
    S'.SettledFresh (.committed ⟨outcome, b.consolidationTasks⟩) := by
  rintro r' hr' ⟨hmarks, hwrites⟩
  have hbatch : outcome.ftsBatch = ftsBatchOf b.observations := by
    rw [commitIngest_outcome hcommit]
    exact hb.ftsBatch
  rcases mem_memories_commitIngest hcommit hr' with ⟨item, hlast, hrow⟩ | ⟨hlast, r, hr, hrow⟩
  · obtain ⟨hitem, hid⟩ := mem_of_lastItem hlast
    have hkind : r'.kind = item.2.2.kind := by
      rw [hrow]
      rfl
    -- A synthetic query needs no document, and any other item has one in the batch.
    by_cases hsynthetic : r'.kind = .syntheticQuery
    · rw [hsynthetic]
      exact S'.documents_synthetic _ _
    · refine absurd ⟨(item.2.1, item.2.2.entityId, contentForIndex item.2.2.textualContent), ?_,
        hid⟩ hwrites
      rw [hbatch]
      refine List.mem_filterMap.mpr ⟨item, hitem, ?_⟩
      unfold indexTextFor
      rw [if_pos (hkind ▸ hsynthetic)]
      rfl
  · obtain ⟨hid, hkind, hcontent, -⟩ := same_of_reembedded hrow
    have hmem : r'.memoryId ∈ outcome.indexedMemoryIds := hmarks
    rw [hid] at hmem hlast ⊢
    rw [hkind, hcontent]
    -- A row that was not of the batch keeps its text, and is marked only as a neighbour.
    refine hb.documents hcommit hr ?_
    rcases (mem_indexedMemoryIds hcommit).mp hmem with ⟨item, hitem, hsame⟩ | hneighbour
    · exact absurd hsame (lastItem_eq_none.mp hlast item hitem)
    · obtain ⟨n, hn, hnid⟩ := List.mem_map.mp hneighbour
      obtain ⟨update, hupdate, hn⟩ := List.mem_filterMap.mp hn
      obtain ⟨v, -, rfl⟩ := Option.map_eq_some_iff.mp hn
      have hnid' : update.1 = r.memoryId := hnid
      exact hb.neighbours update hupdate (by rw [hnid']; exact hlast) r hr hnid'.symm

/-- A commit in turn keeps the memories that are marked, or are about to be, documented. -/
theorem World.Sound.commit (hw : w.Sound) (hb : w.CommitsInTurn b) :
    (w.step cosineSimilarity (.commit order clock b)).Sound := by
  cases hcommit : w.store.commitIngest cosineSimilarity order clock b with
  | error e =>
    rw [World.step_commit_of_error hcommit]
    exact hw
  | ok result =>
    obtain ⟨S', outcome⟩ := result
    rw [World.step_commit_of_ok hcommit]
    refine ⟨fun r hr hindexed => ?_, fun task htask => ?_⟩
    · obtain ⟨hmem, -⟩ := mem_of_indexed_commitIngest hcommit hr hindexed
      exact hb.documents hcommit hmem (hw.indexed r hmem hindexed)
    · rcases List.mem_append.mp htask with htask | htask
      · exact hb.settledFresh hcommit htask (hw.settled task htask)
      · rw [List.mem_singleton.mp htask]
        exact hb.settledFresh_committed hcommit

end

section

variable {S S' : TenantStore} {order : HashOrder} {vectorsFail : Bool} {rows : List PendingIndexRow}

/-- Writing documents of the stored contents keeps the memories documented, and gives those of the
batch their documents. -/
theorem documents_of_written {batch : List (String × String × String)}
    (h : S.ftsIndexBatch batch = .ok S')
    (hfresh : ∀ r ∈ S.memories.rows, ∀ d ∈ lastDoc batch r.memoryId,
      ∀ text ∈ indexTextFor r.kind r.content, d.content = text) :
    S'.memories = S.memories ∧ ∀ r ∈ S.memories.rows,
      (∃ document ∈ batch, document.1 = r.memoryId) ∨ S.Documents r.memoryId r.kind r.content →
        S'.Documents r.memoryId r.kind r.content := by
  refine ⟨?_, fun r hr hdoc => documents_ftsIndexBatch h (hfresh r hr) hdoc⟩
  obtain ⟨docs, hS'⟩ := ftsIndexBatch_inv h
  rw [hS']

/-- What a task settles is documented after marks are set or cleared. -/
theorem TenantStore.SettledFresh.of_marks {task : Task} (h : S.SettledFresh task)
    (hdocs : S'.ftsMemories = S.ftsMemories)
    (hrows : ∀ r' ∈ S'.memories.rows, ∃ r ∈ S.memories.rows, r' = { r with indexed := r'.indexed }) :
    S'.SettledFresh task := by
  intro r' hr' hsettles
  obtain ⟨r, hr, hsame⟩ := hrows r' hr'
  rw [hsame] at hsettles ⊢
  have hdoc := h r hr hsettles
  refine hdoc.of_docOf ?_
  unfold TenantStore.docOf
  rw [hdocs]

/-- A memory after some are marked is one that was there, marked if it is of the list. -/
theorem exists_of_markIndexed {memoryIds : List String} {r' : MemoryRow}
    (h : r' ∈ (S.markIndexed memoryIds).memories.rows) :
    ∃ r ∈ S.memories.rows, r' = { r with indexed := r'.indexed } ∧
      (r'.indexed = true → r.indexed = true ∨ r.memoryId ∈ memoryIds) := by
  obtain ⟨r, hr, hcase⟩ := mem_markIndexed h
  refine ⟨r, hr, ?_⟩
  rw [hcase]
  split
  · rename_i hmem
    exact ⟨rfl, fun _ => .inr hmem⟩
  · exact ⟨rfl, .inl⟩

/-- A memory after a reindexing pass is one that was there, marked if the pass read its content. -/
theorem exists_of_finishReindex {r' : MemoryRow} (h : r' ∈ (S.finishReindex rows).memories.rows) :
    ∃ r ∈ S.memories.rows, r' = { r with indexed := r'.indexed } ∧ (r'.indexed = true →
      r.indexed = true ∨
        ∃ row ∈ rows, row.memoryId = r.memoryId ∧ row.contentHash = r.contentHash) := by
  obtain ⟨r, hr, hcase⟩ := mem_finishReindex h
  refine ⟨r, hr, ?_⟩
  rcases hcase with heq | heq | ⟨heq, hread⟩
  · rw [heq]
    exact ⟨rfl, .inl⟩
  · rw [heq]
    exact ⟨rfl, fun hindexed => absurd hindexed (by simp)⟩
  · rw [heq]
    exact ⟨rfl, fun _ => .inr hread⟩

/-- Documents stay when memories are marked. -/
theorem TenantStore.Documents.of_marks {x : String} {kind : MemoryKind} {content : String}
    (h : S.Documents x kind content) (hdocs : S'.ftsMemories = S.ftsMemories) :
    S'.Documents x kind content := by
  refine h.of_docOf ?_
  unfold TenantStore.docOf
  rw [hdocs]

end

section

variable {w : World} {order : HashOrder} {task : Task} {vectorsFail : Bool} {now : UInt64}

/-- What the next transaction of a task leaves: the memories that are marked or settled by another
task stay documented, and so is what is left of the task to settle. -/
structure Carries (S S' : TenantStore) (left : Option Task) : Prop where
  indexed : S'.IndexedFresh
  others : ∀ other, S.SettledFresh other → S'.SettledFresh other
  left : ∀ task ∈ left, S'.SettledFresh task

/-- Where nothing is written. -/
theorem Carries.stay {S : TenantStore} {left : Option Task} (hS : S.IndexedFresh)
    (hleft : ∀ task ∈ left, S.SettledFresh task) : Carries S S left :=
  ⟨hS, fun _ hother => hother, hleft⟩

/-- The documents of the batch are written, and what is left of the task to settle it had to settle
before, or they are documents of it. -/
theorem Carries.written (hS : w.store.IndexedFresh) (htask : w.store.SettledFresh task)
    (hfresh : w.WritesFresh task) {batch : List (String × String × String)} {S' : TenantStore}
    {left : Option Task} (hbatch : task.nextDocs = batch)
    (hindex : w.store.ftsIndexBatch batch = .ok S')
    (hleft : ∀ next ∈ left, ∀ x hash, next.Settles x hash →
      task.Marks x hash ∧ (task.Writes x → ∃ document ∈ batch, document.1 = x)) :
    Carries w.store S' left := by
  obtain ⟨hmemories, hdocs⟩ := documents_of_written hindex (by rw [← hbatch]; exact hfresh)
  refine ⟨fun r hr hindexed => ?_, fun other hother r hr hsettles => ?_,
    fun next hnext r hr hsettles => ?_⟩
  all_goals rw [hmemories] at hr
  · exact hdocs r hr (.inr (hS r hr hindexed))
  · exact hdocs r hr (.inr (hother r hr hsettles))
  · obtain ⟨hmarks, hwritten⟩ := hleft next hnext _ _ hsettles
    refine hdocs r hr ?_
    by_cases hwrite : task.Writes r.memoryId
    · exact .inl (hwritten hwrite)
    · exact .inr (htask r hr ⟨hmarks, hwrite⟩)

/-- Core profiles and the queue have no part in it. -/
theorem Carries.profiles {S S' : TenantStore} {left : Option Task} (hS : S.IndexedFresh)
    (hmemories : S'.memories = S.memories) (hdocs : S'.ftsMemories = S.ftsMemories)
    (hleft : ∀ next ∈ left, ∀ x hash, ¬ next.Marks x hash) : Carries S S' left := by
  have hrows : ∀ r' ∈ S'.memories.rows, ∃ r ∈ S.memories.rows,
      r' = { r with indexed := r'.indexed } := by
    rw [hmemories]
    exact fun r hr => ⟨r, hr, rfl⟩
  refine ⟨fun r hr hindexed => ?_, fun other hother => hother.of_marks hdocs hrows,
    fun next hnext r hr hsettles => absurd hsettles.1 (hleft next hnext _ _)⟩
  rw [hmemories] at hr
  exact (hS r hr hindexed).of_marks hdocs

/-- What waits of an ingest that failed is read. -/
theorem settledFresh_repair {S : TenantStore} (hS : S.IndexedFresh) (ingest : Ingest) :
    S.SettledFresh (.read (S.pendingRowsOf ingest.outcome.indexedMemoryIds) (some ingest)) := by
  refine settledFresh_read (fun row hrow => ?_) (fun o ho r hr hmem => ?_) hS
  · obtain ⟨r, hr, -, -, hpending⟩ := mem_pendingRowsOf.mp hrow
    exact ⟨r, hr, hpending⟩
  · rw [← Option.some.inj ho] at hmem
    cases hindexed : r.indexed with
    | true => exact .inl rfl
    | false =>
      obtain ⟨row, hrow⟩ := exists_pendingOf S r
      exact .inr ⟨row, mem_pendingRowsOf.mpr ⟨r, hr, hindexed, hmem, hrow⟩, hrow⟩

/-- A reindexing pass finishes. -/
theorem carries_finishReindex {S : TenantStore} {rows : List PendingIndexRow}
    {repairs : Option Ingest} (hS : S.IndexedFresh)
    (htask : S.SettledFresh (.indexed rows repairs)) :
    Carries S (S.finishReindex rows) (repairs.map .written) := by
  have hrows : ∀ r' ∈ (S.finishReindex rows).memories.rows, ∃ r ∈ S.memories.rows,
      r' = { r with indexed := r'.indexed } := by
    intro r' hr'
    obtain ⟨r, hr, hsame, -⟩ := exists_of_finishReindex hr'
    exact ⟨r, hr, hsame⟩
  refine ⟨fun r' hr' hindexed => ?_, fun other hother => hother.of_marks rfl hrows,
    fun next hnext => ?_⟩
  · obtain ⟨r, hr, hsame, hmark⟩ := exists_of_finishReindex hr'
    rw [hsame]
    refine TenantStore.Documents.of_marks ?_ rfl
    rcases hmark hindexed with hold | hread
    · exact hS r hr hold
    · exact htask r hr ⟨.inl hread, id⟩
  · obtain ⟨ingest, hingest, rfl⟩ := Option.map_eq_some_iff.mp hnext
    have hwritten : S.SettledFresh (.written ingest) := fun r hr hsettles =>
      htask r hr ⟨.inr ⟨ingest, hingest, hsettles.1⟩, id⟩
    exact hwritten.of_marks rfl hrows

/-- An ingest marks its memories. -/
theorem carries_markIndexed {S : TenantStore} {ingest : Ingest} (hS : S.IndexedFresh)
    (htask : S.SettledFresh (.written ingest)) :
    Carries S (S.markIndexed ingest.outcome.indexedMemoryIds)
      (some (.consolidating ingest.consolidation)) := by
  have hrows : ∀ r' ∈ (S.markIndexed ingest.outcome.indexedMemoryIds).memories.rows,
      ∃ r ∈ S.memories.rows, r' = { r with indexed := r'.indexed } := by
    intro r' hr'
    obtain ⟨r, hr, hsame, -⟩ := exists_of_markIndexed hr'
    exact ⟨r, hr, hsame⟩
  refine ⟨fun r' hr' hindexed => ?_, fun other hother => hother.of_marks rfl hrows,
    fun next hnext r hr hsettles => ?_⟩
  · obtain ⟨r, hr, hsame, hmark⟩ := exists_of_markIndexed hr'
    rw [hsame]
    refine TenantStore.Documents.of_marks ?_ rfl
    rcases hmark hindexed with hold | hmem
    · exact hS r hr hold
    · exact htask r hr ⟨hmem, id⟩
  · rw [← Option.some.inj hnext] at hsettles
    exact absurd hsettles.1 id

/-- The next transaction of a task, if it writes no document late. -/
theorem carries_advance (hS : w.store.IndexedFresh) (htask : w.store.SettledFresh task)
    (hfresh : w.WritesFresh task) :
    Carries w.store (task.advance order vectorsFail now w.store).1
      (task.advance order vectorsFail now w.store).2 := by
  -- The cases are the stages of the task, each with the outcome of its writes.
  cases task with
  | committed ingest =>
    cases hindex : w.store.ftsIndexBatch ingest.outcome.ftsBatch with
    | error e =>
      rw [Task.advance_committed_of_error hindex]
      refine .stay hS fun next hnext r hr hsettles => ?_
      rw [← Option.some.inj hnext] at hsettles
      exact absurd trivial hsettles.2
    | ok S' =>
      rw [Task.advance_committed_of_ok hindex]
      refine .written hS htask hfresh rfl hindex fun next hnext x hash hsettles => ?_
      rw [← Option.some.inj hnext] at hsettles
      cases vectorsFail with
      | true => exact absurd trivial hsettles.2
      | false => exact ⟨hsettles.1, id⟩
  | failed ingest =>
    refine .stay hS fun next hnext => ?_
    rw [← Option.some.inj hnext]
    exact settledFresh_repair hS ingest
  | read rows repairs =>
    refine .stay hS fun next hnext r hr hsettles => ?_
    rw [← Option.some.inj hnext] at hsettles
    refine htask r hr ⟨hsettles.1, fun hwrite => hsettles.2 ?_⟩
    obtain ⟨row, hrow, hid, hkind⟩ := hwrite
    exact ⟨_, exists_reindexDocs hrow hkind, hid⟩
  | gathered rows docs repairs =>
    cases hindex : w.store.ftsIndexBatch docs with
    | error e =>
      rw [Task.advance_gathered_of_error hindex]
      exact .stay hS fun next hnext => absurd hnext (by simp)
    | ok S' =>
      rw [Task.advance_gathered_of_ok hindex]
      refine .written hS htask hfresh rfl hindex fun next hnext x hash hsettles => ?_
      cases vectorsFail with
      | true => exact absurd hnext (by simp)
      | false =>
        rw [← Option.some.inj hnext] at hsettles
        exact ⟨hsettles.1, id⟩
  | indexed rows repairs => exact carries_finishReindex hS htask
  | written ingest => exact carries_markIndexed hS htask
  -- The consolidation writes profiles and nothing of the index.
  | consolidating tasks =>
    cases tasks with
    | nil => exact .stay hS fun next hnext => absurd hnext (by simp [Task.advance])
    | cons first tasks =>
      obtain ⟨t, ht⟩ := updateCoreProfileHeuristic_inv now w.store first
      refine .profiles hS ?_ ?_ fun next hnext x hash => ?_
      · rw [Task.advance, ht]
      · rw [Task.advance, ht]
      · rw [← Option.some.inj hnext]
        exact id
  | consolidated memoryId tasks =>
    refine .profiles hS rfl rfl fun next hnext x hash => ?_
    rw [← Option.some.inj hnext]
    exact id

end

/-! ## Runs -/

section

variable {cosineSimilarity : List ℚ → List ℚ → ℚ} {w : World}

/-- A task that is replaced by what is left of it. -/
theorem World.Sound.replace {S' : TenantStore} {left : Option Task} (hw : w.Sound)
    (h : Carries w.store S' left) (index : ℕ) :
    World.Sound ⟨S', replaceTask w.tasks index left⟩ := by
  refine ⟨h.indexed, fun task htask => ?_⟩
  rcases mem_replaceTask htask with hleft | htask
  · exact h.left task hleft
  · exact h.others task (hw.settled task htask)

/-- A step in order keeps the memories that are marked, or are about to be, documented. -/
theorem World.Sound.step (hw : w.Sound) {a : WorldStep} (ha : w.Orderly a) :
    (w.step cosineSimilarity a).Sound := by
  cases a with
  | commit order clock b => exact hw.commit ha
  | reindex limit =>
    refine ⟨hw.indexed, fun task htask => ?_⟩
    rcases List.mem_append.mp htask with htask | htask
    · exact hw.settled task htask
    -- The pass that begins has read rows of the store.
    · rw [List.mem_singleton.mp htask]
      refine settledFresh_read (fun row hrow => ?_) (fun _ hnone => absurd hnone (by simp))
        hw.indexed
      obtain ⟨r, hr, hrow⟩ := List.mem_flatMap.mp (List.mem_of_mem_take hrow)
      exact ⟨r, (List.mem_filter.mp hr).1, hrow⟩
  | consolidate limit =>
    refine ⟨hw.indexed, fun task htask => ?_⟩
    rcases List.mem_append.mp htask with htask | htask
    · exact hw.settled task htask
    -- A consolidation marks nothing.
    · rw [List.mem_singleton.mp htask]
      exact fun r _ hsettles => absurd hsettles.1 id
  | advance index order vectorsFail now =>
    cases htask : w.tasks[index]? with
    | none =>
      rw [World.step_advance_of_none htask]
      exact hw
    | some task =>
      rw [World.step_advance htask]
      have hmem : task ∈ w.tasks := List.mem_of_getElem? htask
      exact hw.replace (carries_advance hw.indexed (hw.settled task hmem) (ha task htask)) index
  | fail index =>
    cases htask : w.tasks[index]? with
    | none =>
      rw [World.step_fail_of_none htask]
      exact hw
    | some task =>
      rw [World.step_fail htask]
      refine hw.replace ⟨hw.indexed, fun _ hother => hother, fun next hnext r hr hsettles => ?_⟩ index
      -- An ingest reads first what waits, and consolidations mark nothing.
      rcases task.fail_cases hnext with ⟨ingest, rfl⟩ | ⟨tasks, rfl⟩
      · exact absurd trivial hsettles.2
      · exact absurd hsettles.1 id

/-- From a store whose marked memories are documented, every run of ingests and reindexing passes
side by side keeps them so, if no commit comes between the documents of a task and its marks and no
document is written late. -/
theorem indexedFresh_run {S : TenantStore} {run : List WorldStep} (hS : S.IndexedFresh)
    (hrun : EachStep (World.step cosineSimilarity) World.Orderly ⟨S, []⟩ run) :
    (run.foldl (World.step cosineSimilarity) ⟨S, []⟩).store.IndexedFresh := by
  have hsound : World.Sound ⟨S, []⟩ := ⟨hS, fun task htask => absurd htask List.not_mem_nil⟩
  exact (hrun.invariant (fun w a hw ha => hw.step ha) hsound).indexed

end

/-- One memory of an ingest. -/
private def note (content hash : String) : UInt64 × String × AgentObservation :=
  (100, "alice::s1::0",
    { entityId := "alice"
      textualContent := content
      embedding := []
      kind := .fact
      contentHash := hash
      expiresAtMs := none
      sessionId := "s1"
      turnIndex := 0
      role := ""
      parentMemoryId := none })

/-- The commit of one memory. -/
private def noteCommit (content hash : String) : WorldStep :=
  .commit .insertion ⟨100, 100, 100⟩
    { observations := [note content hash]
      ftsBatch := ftsBatchOf [note content hash] }

/-- A memory is committed, and committed again with new content; the second ingest is done first,
and the first one then writes its old document over it. -/
theorem stale_document :
    ¬ ([noteCommit "lives in Oslo" "h1", noteCommit "lives in Rome" "h2",
      .advance 1 .insertion false 100, .advance 1 .insertion false 100,
      .advance 0 .insertion false 100].foldl
        (World.step fun _ _ => 0) ⟨TenantStore.empty, []⟩).store.IndexedFresh := by
  decide +kernel

/-- The two ingests one after the other, with a reindexing pass that comes in between. -/
theorem documents_in_turn :
    ([noteCommit "lives in Oslo" "h1", .reindex 500, .advance 0 .insertion false 100,
      .advance 1 .insertion false 100, .advance 1 .insertion false 100,
      .advance 1 .insertion false 100, .advance 0 .insertion false 100,
      noteCommit "lives in Rome" "h2", .advance 1 .insertion false 100,
      .advance 1 .insertion false 100].foldl
        (World.step fun _ _ => 0) ⟨TenantStore.empty, []⟩).store.IndexedFresh :=
  indexedFresh_run (by decide +kernel) (by decide +kernel)

end Tellodb
