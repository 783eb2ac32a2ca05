import Tellodb.Deletion.Exact
import Tellodb.Index.Docs
import Tellodb.Storage.Tasks

/-!
# What ingests put back after a deletion

A deletion removes the documents of a memory, what the core profiles have of it, and its part in the
routers of its sessions. An ingest that committed the memory before carries its documents and the
text for the core profile along, and a reindexing pass the documents of memories and routers that it
has gathered. Both write them without a look at what is stored, so they come back if the deletion is
faster (`put_back`). `TextSince` says where else the text of a document may come from: a memory or a
router that the deletion has left, or a batch that is sent after it. `keepsForgotten_run` says what
is safe: tasks whose documents come from there, and that have nothing of the memory to
consolidate. -/

namespace Tellodb

open Relational

/-! ## The property -/

/-- The identifier of the document of a router. -/
def IsRouterId (x : String) : Prop :=
  ∃ entityId sessionId, x = routerId entityId sessionId

/-- A document is of a memory, of a record derived from it, or of the router of a session (given
with its entity). -/
def Concerns (memoryId : String) (sessions : List (String × String)) (x : String) : Prop :=
  isOf memoryId x = true ∨ ∃ session ∈ sessions, x = routerId session.2 session.1

section

variable (left : TenantStore) (sent : List IngestBatches)

/-- A router that is made since a deletion: one that the deletion has left, a fragment that is sent
after it, or one of these merged with further fragments. -/
inductive RouterSince : SessionRouterRecord → Prop
  | stored {r : SessionRouterRow} (hr : r ∈ left.sessionRouter.rows) : RouterSince r.record
  | fragment {b : IngestBatches} {record : SessionRouterRecord} (hb : b ∈ sent)
      (hrecord : record ∈ b.sessionRouterUpdates) : RouterSince record
  | merged {b : IngestBatches} {previous record : SessionRouterRecord}
      (hprevious : RouterSince previous) (hb : b ∈ sent)
      (hrecord : record ∈ b.sessionRouterUpdates) :
      RouterSince (mergeRouterRecords previous record)

/-- The text of such a router. -/
def RouterTextSince (text : String) : Prop :=
  (∃ r ∈ left.sessionRouter.rows, r.routerText = text) ∨
    ∃ record, RouterSince left sent record ∧ record.routerText = text

/-- A text that a document may have under its identifier since a deletion: that of a memory which
the deletion has left, of a memory or document that is sent after it, or of a router that is made
since. -/
inductive TextSince : String → String → Prop
  | memory {r : MemoryRow} {text : String} (hr : r ∈ left.memories.rows)
      (htext : indexTextFor r.kind r.content = some text) : TextSince r.memoryId text
  | observation {b : IngestBatches} {item : UInt64 × String × AgentObservation} {text : String}
      (hb : b ∈ sent) (hitem : item ∈ b.observations)
      (htext : indexTextFor item.2.2.kind item.2.2.textualContent = some text) :
      TextSince item.2.1 text
  | document {b : IngestBatches} {document : String × String × String} (hb : b ∈ sent)
      (hdocument : document ∈ b.ftsBatch) : TextSince document.1 document.2.2
  | router (entityId sessionId : String) {text : String} (htext : RouterTextSince left sent text) :
      TextSince (routerId entityId sessionId) text

end

/-- Nothing of a deleted memory is put back, where the deletion has left the store `left`, and
`sent` is what is sent after it. -/
structure KeepsForgotten (memoryId : String) (sessions : List (String × String))
    (left : TenantStore) (sent : List IngestBatches) (S : TenantStore) : Prop where
  /-- A document of the memory is one that the deletion has left. (The identifier of a router may
  extend that of a memory, which does not make it a document of the memory.) -/
  docs : ∀ d ∈ S.ftsMemories.rows, isOf memoryId d.memoryId = true → ¬ IsRouterId d.memoryId →
    d ∈ left.ftsMemories.rows
  /-- A document of a router of the sessions, or under an identifier that extends that of the
  memory, is one that the deletion has left, or has a text from elsewhere. -/
  routers : ∀ d ∈ S.ftsMemories.rows, Concerns memoryId sessions d.memoryId →
    d ∈ left.ftsMemories.rows ∨ TextSince left sent d.memoryId d.content
  /-- So is a document of the index of routers. -/
  sessionRouters : ∀ d ∈ S.ftsSessionRouter.rows, (d.sessionId, d.entityId) ∈ sessions →
    d ∈ left.ftsSessionRouter.rows ∨ RouterTextSince left sent d.routerText
  /-- No core profile has a fact of the memory. -/
  profiles : ∀ p ∈ S.coreProfiles.rows, ∀ f ∈ p.profile.facts,
    f.memoryId.any (isOf memoryId) = false

/-! ## The condition -/

/-- The memories that an ingest is to consolidate. -/
def Ingest.consolidates (ingest : Ingest) : List String :=
  ingest.consolidation.map IngestConsolidationTask.memoryId

/-- The memories that a task is to consolidate, itself or after it has repaired its documents. -/
def Task.consolidates : Task → List String
  | .committed ingest => ingest.consolidates
  | .failed ingest => ingest.consolidates
  | .read _ repairs => (repairs.map Ingest.consolidates).getD []
  | .gathered _ _ repairs => (repairs.map Ingest.consolidates).getD []
  | .indexed _ repairs => (repairs.map Ingest.consolidates).getD []
  | .written ingest => ingest.consolidates
  | .consolidating tasks => tasks.map IngestConsolidationTask.memoryId
  | .consolidated _ tasks => tasks.map IngestConsolidationTask.memoryId

/-- The identifiers and texts of the documents that a task has to write: those of its batch, of the
memories that it has read, or what it has gathered. -/
def Task.documents : Task → List (String × String)
  | .committed ingest => ingest.outcome.ftsBatch.map fun document => (document.1, document.2.2)
  | .read rows _ => rows.filterMap fun row =>
    (indexTextFor row.kind row.content).map fun text => (row.memoryId, text)
  | .gathered _ docs _ => docs.map fun document => (document.1, document.2.2)
  | _ => []

/-- A task carries no text of a memory along. -/
structure Task.FreeOf (memoryId : String) (sessions : List (String × String))
    (left : TenantStore) (sent : List IngestBatches) (task : Task) : Prop where
  /-- The documents of the memory and of the routers of its sessions have texts from elsewhere. -/
  documents : ∀ document ∈ task.documents, Concerns memoryId sessions document.1 →
    TextSince left sent document.1 document.2
  /-- It has nothing of the memory to consolidate. -/
  consolidates : ∀ x ∈ task.consolidates, isOf memoryId x = false

/-- A batch sends a memory, a record that is derived from it, or what it contributes to a router. -/
def IngestBatches.Sends (b : IngestBatches) (memoryId : String) : Prop :=
  (∃ item ∈ b.observations, isOf memoryId item.2.1 = true) ∨
    (∃ document ∈ b.ftsBatch, isOf memoryId document.1 = true) ∨
      (∃ record ∈ b.sessionRouterUpdates, ∃ x ∈ record.sourceMemoryIds, isOf memoryId x = true) ∨
        ∃ task ∈ b.consolidationTasks, isOf memoryId task.memoryId = true

/-- What a step sends. -/
def WorldStep.batches : WorldStep → List IngestBatches
  | .commit _ _ b => [b]
  | _ => []

/-- A step is the commit of a batch that sends a memory. -/
def WorldStep.Sends (memoryId : String) (a : WorldStep) : Prop :=
  ∃ b ∈ a.batches, b.Sends memoryId

/-! ## One step -/

section

variable {S S' : TenantStore} {memoryId : String}

/-- A document after a batch is indexed is of the batch, or was there. -/
theorem mem_ftsIndexBatch {batch : List (String × String × String)}
    (h : S.ftsIndexBatch batch = .ok S') {d : FtsDoc} (hd : d ∈ S'.ftsMemories.rows) :
    d ∈ S.ftsMemories.rows ∨
      ∃ document ∈ batch, document.1 = d.memoryId ∧ document.2.2 = d.content := by
  -- Each document that is indexed replaces the one of its row.
  have hfold : ∀ {t t' : Table FtsDoc.rowid}, batch.foldlM ftsIndexDoc t = .ok t' →
      d ∈ t'.rows → d ∈ t.rows ∨
        ∃ document ∈ batch, document.1 = d.memoryId ∧ document.2.2 = d.content := by
    clear h hd
    induction batch with
    | nil =>
      intro t t' ht hd
      rw [← Except.ok.inj ht] at hd
      exact .inl hd
    | cons document rest ih =>
      intro t t' ht hd
      rw [List.foldlM_cons] at ht
      obtain ⟨t₁, hfirst, hrest⟩ := exists_of_bind ht
      rcases ih hrest hd with hmem | ⟨other, hother, hsame⟩
      · unfold ftsIndexDoc at hfirst
        split at hfirst
        · exact absurd hfirst (by simp)
        · rw [← Except.ok.inj hfirst] at hmem
          rcases Table.mem_insertOrReplace.mp hmem with ⟨hold, -⟩ | hnew
          · exact .inl hold
          · exact .inr ⟨document, List.mem_cons_self, by rw [hnew]; exact ⟨rfl, rfl⟩⟩
      · exact .inr ⟨other, List.mem_cons_of_mem _ hother, hsame⟩
  unfold TenantStore.ftsIndexBatch at h
  obtain ⟨t', ht, h⟩ := exists_of_bind h
  rw [← Except.ok.inj h] at hd
  exact hfold ht hd

/-- A fact of a profile that a memory joins is of that memory, or was there. -/
theorem mem_facts_add {p p' : CoreProfile} {task : IngestConsolidationTask} {excerpt : String}
    (h : p.add task excerpt = some p') {f : ProfileFact} (hf : f ∈ p'.facts) :
    f ∈ p.facts ∨ f.memoryId = some task.memoryId := by
  unfold CoreProfile.add at h
  split at h
  · exact absurd h (by simp)
  · rw [← Option.some.inj h] at hf
    have hmem : f ∈ p.facts ++ [⟨some task.memoryId, some task.timestamp, excerpt⟩] :=
      (mem_orderBy _ _ _).mp (List.mem_of_mem_take hf)
    rcases List.mem_append.mp hmem with hold | hnew
    · exact .inl hold
    · rw [List.mem_singleton.mp hnew]
      exact .inr rfl

/-- A fact of a core profile after a memory joins one is of that memory, or was there. -/
theorem mem_facts_updateCoreProfileHeuristic {now : UInt64} {task : IngestConsolidationTask}
    {p : CoreProfileRow}
    (hp : p ∈ (S.updateCoreProfileHeuristic now task).coreProfiles.rows) {f : ProfileFact}
    (hf : f ∈ p.profile.facts) :
    (∃ q ∈ S.coreProfiles.rows, f ∈ q.profile.facts) ∨ f.memoryId = some task.memoryId := by
  unfold TenantStore.updateCoreProfileHeuristic at hp
  dsimp only at hp
  split at hp
  · exact .inl ⟨p, hp, hf⟩
  · split at hp
    · rename_i profile hadd
      rcases Table.mem_insertOrReplace.mp hp with ⟨hold, -⟩ | hnew
      · exact .inl ⟨p, hold, hf⟩
      · rw [hnew] at hf
        rcases mem_facts_add hadd hf with hmem | hid
        · cases hfind : S.coreProfiles.find? task.entityId with
          | none =>
            rw [hfind] at hmem
            exact absurd hmem List.not_mem_nil
          | some q =>
            rw [hfind] at hmem
            exact .inl ⟨q, (Table.find?_eq_some.mp hfind).1, hmem⟩
        · exact .inr hid
    · exact .inl ⟨p, hp, hf⟩

/-- What a reindexing pass gathers is of a memory that it has read, or of a stored router. -/
theorem carried_reindexDocs {order : HashOrder} {rows : List PendingIndexRow}
    {document : String × String × String} (h : document ∈ S.reindexDocs order rows) :
    (∃ row ∈ rows, indexTextFor row.kind row.content = some document.2.2 ∧
        row.memoryId = document.1) ∨
      ∃ r ∈ S.sessionRouter.rows, ∃ entityId sessionId, document.1 = routerId entityId sessionId ∧
        document.2.2 = r.routerText := by
  rcases List.mem_append.mp h with hmem | hmem
  · obtain ⟨row, hrow, hdocument⟩ := List.mem_filterMap.mp hmem
    obtain ⟨text, htext, rfl⟩ := Option.map_eq_some_iff.mp hdocument
    exact .inl ⟨row, hrow, htext, rfl⟩
  · obtain ⟨session, -, hdocument⟩ := List.mem_filterMap.mp hmem
    obtain ⟨router, hrouter, rfl⟩ := Option.map_eq_some_iff.mp hdocument
    exact .inr ⟨router, (Table.find?_eq_some.mp hrouter).1, session.1, session.2, rfl, rfl⟩

/-- Two rows of one memory with the same text. -/
def MemoryRow.SameText (r' r : MemoryRow) : Prop :=
  r'.memoryId = r.memoryId ∧ r'.kind = r.kind ∧ r'.content = r.content

/-- Marks leave the memories and their texts as they are. -/
theorem sameText_of_markIndexed {memoryIds : List String} {r' : MemoryRow}
    (h : r' ∈ (S.markIndexed memoryIds).memories.rows) : ∃ r ∈ S.memories.rows, r'.SameText r := by
  obtain ⟨r, hr, hcase⟩ := mem_markIndexed h
  refine ⟨r, hr, ?_⟩
  rw [hcase]
  split <;> exact ⟨rfl, rfl, rfl⟩

/-- A reindexing pass leaves the memories and their texts as they are. -/
theorem sameText_of_finishReindex {rows : List PendingIndexRow} {r' : MemoryRow}
    (h : r' ∈ (S.finishReindex rows).memories.rows) : ∃ r ∈ S.memories.rows, r'.SameText r := by
  obtain ⟨r, hr, hcase⟩ := mem_finishReindex h
  refine ⟨r, hr, ?_⟩
  rcases hcase with heq | heq | ⟨heq, -⟩
  all_goals
    rw [heq]
    exact ⟨rfl, rfl, rfl⟩

end

section

variable {left : TenantStore} {sent : List IngestBatches} {memoryId : String}
  {sessions : List (String × String)}

/-- What has no documents to write is free if its consolidations are. -/
theorem Task.FreeOf.of_subset {task next : Task} (h : task.FreeOf memoryId sessions left sent)
    (hdocuments : next.documents = []) (hconsolidates : next.consolidates ⊆ task.consolidates) :
    next.FreeOf memoryId sessions left sent := by
  refine ⟨fun x hx => ?_, fun x hx => h.consolidates x (hconsolidates hx)⟩
  rw [hdocuments] at hx
  exact absurd hx List.not_mem_nil

/-- A task that goes on after a failure carries nothing new along. -/
theorem Task.FreeOf.fail {task next : Task} (h : task.FreeOf memoryId sessions left sent)
    (hnext : task.fail = some next) : next.FreeOf memoryId sessions left sent := by
  unfold Task.fail at hnext
  split at hnext
  · rw [← Option.some.inj hnext]
    exact h.of_subset rfl fun _ hx => hx
  · rw [← Option.some.inj hnext]
    exact h.of_subset rfl fun _ hx => List.mem_cons_of_mem _ hx
  · rw [← Option.some.inj hnext]
    exact h.of_subset rfl fun _ hx => hx
  · exact absurd hnext (by simp)

/-- The stored routers are made since the deletion. -/
def RoutersSince (left : TenantStore) (sent : List IngestBatches)
    (t : Table SessionRouterRow.primaryKey) : Prop :=
  ∀ r ∈ t.rows, RouterSince left sent r.record ∧ RouterTextSince left sent r.routerText

/-- What a batch merges is made since the deletion. -/
theorem RoutersSince.merged {t : Table SessionRouterRow.primaryKey} (ht : RoutersSince left sent t)
    {b : IngestBatches} (hb : b ∈ sent) {updates : List SessionRouterRecord}
    (hupdates : updates ⊆ b.sessionRouterUpdates)
    {entry : (String × String) × SessionRouterRecord}
    (hentry : entry ∈ updates.foldl (mergeFragment t) []) : RouterSince left sent entry.2 := by
  induction updates using List.reverseRecOn generalizing entry with
  | nil => exact absurd hentry List.not_mem_nil
  | append_singleton updates record ih =>
    have hbefore : ∀ entry ∈ updates.foldl (mergeFragment t) [], RouterSince left sent entry.2 :=
      fun entry hentry => ih (fun _ h => hupdates (List.mem_append_left _ h)) hentry
    have hrecord : record ∈ b.sessionRouterUpdates :=
      hupdates (List.mem_append_right _ List.mem_cons_self)
    rw [List.foldl_append, List.foldl_cons, List.foldl_nil, mergeFragment_eq] at hentry
    rcases MergedRouters.mem_put hentry with rfl | ⟨hold, -⟩
    · -- The fragment alone, or merged with what there is for its session.
      cases hprevious : previousRouter t (updates.foldl (mergeFragment t) []) record with
      | none => exact .fragment hb hrecord
      | some previous =>
        refine .merged ?_ hb hrecord
        unfold previousRouter at hprevious
        rcases Option.or_eq_some_iff.mp hprevious with hlookup | ⟨-, hstored⟩
        · obtain ⟨l₁, l₂, hsplit, -⟩ := List.lookup_eq_some_iff.mp hlookup
          exact hbefore (record.session, previous) (by rw [hsplit]; simp)
        · obtain ⟨r, hr, rfl⟩ := Option.map_eq_some_iff.mp hstored
          exact (ht r (Table.find?_eq_some.mp hr).1).1
    · exact hbefore entry hold

/-- A router that is written and was made since the deletion keeps this. -/
theorem RoutersSince.upsertRouter {t : Table SessionRouterRow.primaryKey}
    (ht : RoutersSince left sent t) {record : SessionRouterRecord}
    (hrecord : RouterSince left sent record) (sessionId entityId : String)
    (createdAtMs updatedAtMs : UInt64) :
    RoutersSince left sent (upsertRouter t sessionId entityId record createdAtMs updatedAtMs) := by
  have hnew : RouterSince left sent record ∧ RouterTextSince left sent record.routerText :=
    ⟨hrecord, .inr ⟨record, hrecord, rfl⟩⟩
  intro r hr
  unfold Tellodb.upsertRouter at hr
  cases hfind : t.find? (sessionId, entityId) with
  | none =>
    simp only [hfind, Table.insertOrIgnore] at hr
    split at hr
    · exact ht r hr
    · rcases List.mem_append.mp hr with hr | hr
      · exact ht r hr
      · rw [List.mem_singleton.mp hr]
        exact hnew
  | some row =>
    simp only [hfind, Table.updateWhere] at hr
    obtain ⟨old, hold, rfl⟩ := List.mem_map.mp hr
    unfold Assignment.on
    split
    · exact hnew
    · exact ht old hold

/-- A batch that is sent after the deletion keeps this. -/
theorem RoutersSince.mergeRouterRecordsTx {S : TenantStore}
    (hS : RoutersSince left sent S.sessionRouter) {b : IngestBatches} (hb : b ∈ sent)
    (now : UInt64) :
    RoutersSince left sent (mergeRouterRecordsTx now S b.sessionRouterUpdates).sessionRouter := by
  have hmerged : ∀ record ∈ (b.sessionRouterUpdates.foldl (mergeFragment S.sessionRouter)
      []).map Prod.snd, RouterSince left sent record := by
    intro record hrecord
    obtain ⟨entry, hentry, rfl⟩ := List.mem_map.mp hrecord
    exact hS.merged hb (List.Subset.refl _) hentry
  show RoutersSince left sent (List.foldl _ S.sessionRouter _)
  generalize (b.sessionRouterUpdates.foldl (mergeFragment S.sessionRouter) []).map Prod.snd =
    merged at hmerged
  generalize S.sessionRouter = t at hS
  induction merged generalizing t with
  | nil => exact hS
  | cons record merged ih =>
    exact ih (fun r hr => hmerged r (List.mem_cons_of_mem _ hr)) _
      (hS.upsertRouter (hmerged record List.mem_cons_self) _ _ _ _)

end

/-- After a deletion nothing of the memory is stored, waits or is carried along, and nothing was put
back. -/
structure World.Forgot (memoryId : String) (sessions : List (String × String))
    (left : TenantStore) (sent : List IngestBatches) (w : World) : Prop where
  memories : ∀ r ∈ w.store.memories.rows, isOf memoryId r.memoryId = false ∧
    ∀ text, indexTextFor r.kind r.content = some text → TextSince left sent r.memoryId text
  queue : ∀ r ∈ w.store.consolidationQueue.rows, isOf memoryId r.memoryId = false
  stored : RoutersSince left sent w.store.sessionRouter
  tasks : ∀ task ∈ w.tasks, task.FreeOf memoryId sessions left sent
  docs : ∀ d ∈ w.store.ftsMemories.rows, Concerns memoryId sessions d.memoryId →
    d ∈ left.ftsMemories.rows ∨ TextSince left sent d.memoryId d.content
  sessionRouters : ∀ d ∈ w.store.ftsSessionRouter.rows, (d.sessionId, d.entityId) ∈ sessions →
    d ∈ left.ftsSessionRouter.rows ∨ RouterTextSince left sent d.routerText
  profiles : ∀ p ∈ w.store.coreProfiles.rows, ∀ f ∈ p.profile.facts,
    f.memoryId.any (isOf memoryId) = false

section

variable {left : TenantStore} {sent : List IngestBatches} {w : World} {memoryId : String}
  {sessions : List (String × String)} {order : HashOrder}

/-- What a pass reads of the stored memories is not of the memory, and has texts from elsewhere. -/
theorem World.Forgot.textSince_of_pendingOf (h : World.Forgot memoryId sessions left sent w)
    {r : MemoryRow} (hr : r ∈ w.store.memories.rows) {row : PendingIndexRow}
    (hrow : row ∈ pendingOf w.store r) {text : String}
    (htext : indexTextFor row.kind row.content = some text) :
    TextSince left sent row.memoryId text := by
  obtain ⟨hid, -, hcontent, hkind, -⟩ := pendingOf_eq hrow
  rw [hid]
  exact (h.memories r hr).2 text (by rw [← hkind, ← hcontent]; exact htext)

/-- What is left of a store and a task after the next transaction of the task, which leaves the
routers alone. -/
theorem World.Forgot.replace {S' : TenantStore} {rest : Option Task}
    (h : World.Forgot memoryId sessions left sent w)
    (hmemories : ∀ r' ∈ S'.memories.rows, ∃ r ∈ w.store.memories.rows, r'.SameText r)
    (hqueue : ∀ r ∈ S'.consolidationQueue.rows, r ∈ w.store.consolidationQueue.rows)
    (hrouters : S'.sessionRouter = w.store.sessionRouter)
    (hindex : S'.ftsSessionRouter = w.store.ftsSessionRouter)
    (hdocs : ∀ d ∈ S'.ftsMemories.rows, Concerns memoryId sessions d.memoryId →
      d ∈ left.ftsMemories.rows ∨ TextSince left sent d.memoryId d.content)
    (hprofiles : ∀ p ∈ S'.coreProfiles.rows, ∀ f ∈ p.profile.facts,
      f.memoryId.any (isOf memoryId) = false)
    (hrest : ∀ task ∈ rest, task.FreeOf memoryId sessions left sent) (index : ℕ) :
    World.Forgot memoryId sessions left sent ⟨S', replaceTask w.tasks index rest⟩ where
  -- Only the store and one task have changed.
  memories r' hr' := by
    obtain ⟨r, hr, hid, hkind, hcontent⟩ := hmemories r' hr'
    rw [hid, hkind, hcontent]
    exact h.memories r hr
  queue r hr := h.queue r (hqueue r hr)
  stored := by
    show RoutersSince left sent S'.sessionRouter
    rw [hrouters]
    exact h.stored
  tasks task htask := by
    rcases mem_replaceTask htask with hnext | hold
    · exact hrest task hnext
    · exact h.tasks task hold
  docs := hdocs
  sessionRouters := by
    show ∀ d ∈ S'.ftsSessionRouter.rows, _
    rw [hindex]
    exact h.sessionRouters
  profiles := hprofiles

/-- A batch of documents that is free of a memory puts nothing of it back. -/
theorem World.Forgot.written {S' : TenantStore} {batch : List (String × String × String)}
    (h : World.Forgot memoryId sessions left sent w) (hindex : w.store.ftsIndexBatch batch = .ok S')
    (hbatch : ∀ document ∈ batch, Concerns memoryId sessions document.1 →
      TextSince left sent document.1 document.2.2)
    {rest : Option Task} (hrest : ∀ task ∈ rest, task.FreeOf memoryId sessions left sent)
    (index : ℕ) :
    World.Forgot memoryId sessions left sent ⟨S', replaceTask w.tasks index rest⟩ := by
  have hdocs : ∀ d ∈ S'.ftsMemories.rows, Concerns memoryId sessions d.memoryId →
      d ∈ left.ftsMemories.rows ∨ TextSince left sent d.memoryId d.content := by
    intro d hd hconcerns
    rcases mem_ftsIndexBatch hindex hd with hold | ⟨document, hdocument, hid, htext⟩
    · exact h.docs d hold hconcerns
    · rw [← hid] at hconcerns ⊢
      rw [← htext]
      exact .inr (hbatch document hdocument hconcerns)
  obtain ⟨docs, rfl⟩ := ftsIndexBatch_inv hindex
  refine h.replace ?_ ?_ ?_ ?_ hdocs h.profiles hrest index
  · exact fun r hr => ⟨r, hr, rfl, rfl, rfl⟩
  · exact fun _ hr => hr
  · rfl
  · rfl

/-- A memory that joins a core profile puts nothing of another one back. -/
theorem World.Forgot.consolidated {task : IngestConsolidationTask}
    (h : World.Forgot memoryId sessions left sent w)
    (htask : isOf memoryId task.memoryId = false) (now : UInt64) {rest : Option Task}
    (hrest : ∀ task ∈ rest, task.FreeOf memoryId sessions left sent) (index : ℕ) :
    World.Forgot memoryId sessions left sent
      ⟨w.store.updateCoreProfileHeuristic now task, replaceTask w.tasks index rest⟩ := by
  have hprofiles : ∀ p ∈ (w.store.updateCoreProfileHeuristic now task).coreProfiles.rows,
      ∀ f ∈ p.profile.facts, f.memoryId.any (isOf memoryId) = false := by
    intro p hp f hf
    rcases mem_facts_updateCoreProfileHeuristic hp hf with ⟨q, hq, hmem⟩ | hid
    · exact h.profiles q hq f hmem
    · rw [hid]
      exact htask
  obtain ⟨t, ht⟩ := updateCoreProfileHeuristic_inv now w.store task
  rw [ht] at hprofiles ⊢
  refine h.replace ?_ ?_ ?_ ?_ ?_ hprofiles hrest index
  · exact fun r hr => ⟨r, hr, rfl, rfl, rfl⟩
  · exact fun _ hr => hr
  · rfl
  · rfl
  · exact h.docs

/-- Where nothing is written. -/
theorem World.Forgot.stay (h : World.Forgot memoryId sessions left sent w) {rest : Option Task}
    (hrest : ∀ task ∈ rest, task.FreeOf memoryId sessions left sent) (index : ℕ) :
    World.Forgot memoryId sessions left sent ⟨w.store, replaceTask w.tasks index rest⟩ :=
  h.replace (fun r hr => ⟨r, hr, rfl, rfl, rfl⟩) (fun _ hr => hr) rfl rfl h.docs h.profiles hrest
    index

/-- What a repair reads is stored, and nothing of the memory is stored any more. -/
theorem World.Forgot.freeOf_read (h : World.Forgot memoryId sessions left sent w) {ingest : Ingest}
    (hingest : ∀ x ∈ ingest.consolidates, isOf memoryId x = false) (memoryIds : List String) :
    (Task.read (w.store.pendingRowsOf memoryIds) (some ingest)).FreeOf memoryId sessions left
      sent := by
  refine ⟨fun document hdocument _ => ?_, hingest⟩
  obtain ⟨row, hrow, hdocument⟩ := List.mem_filterMap.mp hdocument
  obtain ⟨text, htext, rfl⟩ := Option.map_eq_some_iff.mp hdocument
  obtain ⟨r, hr, -, -, hpending⟩ := mem_pendingRowsOf.mp hrow
  exact h.textSince_of_pendingOf hr hpending htext

/-- What a pass gathers it has read, or it is the text of a stored router. -/
theorem World.Forgot.freeOf_gathered (h : World.Forgot memoryId sessions left sent w)
    {rows : List PendingIndexRow} {repairs : Option Ingest}
    (htask : (Task.read rows repairs).FreeOf memoryId sessions left sent) :
    (Task.gathered rows (w.store.reindexDocs order rows) repairs).FreeOf memoryId sessions left
      sent := by
  refine ⟨fun x hx hconcerns => ?_, htask.consolidates⟩
  obtain ⟨document, hdocument, rfl⟩ := List.mem_map.mp hx
  rcases carried_reindexDocs hdocument with
    ⟨row, hrow, htext, hid⟩ | ⟨r, hr, entityId, sessionId, hid, htext⟩
  · refine htask.documents _ (List.mem_filterMap.mpr ⟨row, hrow, ?_⟩) hconcerns
    rw [htext, Option.map_some, hid]
  · show TextSince left sent document.1 document.2.2
    rw [hid, htext]
    exact .router entityId sessionId (h.stored r hr).2

/-- The next transaction of a task puts nothing back. -/
theorem World.Forgot.advance {task : Task} {index : ℕ}
    (h : World.Forgot memoryId sessions left sent w)
    (htask : task.FreeOf memoryId sessions left sent) (vectorsFail : Bool) (now : UInt64) :
    World.Forgot memoryId sessions left sent ⟨(task.advance order vectorsFail now w.store).1,
      replaceTask w.tasks index (task.advance order vectorsFail now w.store).2⟩ := by
  cases task with
  -- The documents of a commit are in the batch that it was sent.
  | committed ingest =>
    have hdocs : ∀ document ∈ ingest.outcome.ftsBatch, Concerns memoryId sessions document.1 →
        TextSince left sent document.1 document.2.2 := fun document hdocument =>
      htask.documents (document.1, document.2.2) (List.mem_map_of_mem hdocument)
    cases hindex : w.store.ftsIndexBatch ingest.outcome.ftsBatch with
    | error e =>
      rw [Task.advance_committed_of_error hindex]
      refine h.stay (fun next hnext => ?_) index
      rw [← Option.some.inj hnext]
      exact htask.of_subset rfl fun _ hx => hx
    | ok S' =>
      rw [Task.advance_committed_of_ok hindex]
      refine h.written hindex hdocs (fun next hnext => ?_) index
      rw [← Option.some.inj hnext]
      cases vectorsFail <;> exact htask.of_subset rfl fun _ hx => hx
  -- A failed pass keeps its documents for the next reading.
  | failed ingest =>
    refine h.stay (fun next hnext => ?_) index
    rw [← Option.some.inj hnext]
    exact h.freeOf_read htask.consolidates _
  | read rows repairs =>
    refine h.stay (fun next hnext => ?_) index
    rw [← Option.some.inj hnext]
    exact h.freeOf_gathered htask
  -- The documents that were gathered are written, or the pass fails and ends.
  | gathered rows docs repairs =>
    have hdocs : ∀ document ∈ docs, Concerns memoryId sessions document.1 →
        TextSince left sent document.1 document.2.2 := fun document hdocument =>
      htask.documents (document.1, document.2.2) (List.mem_map_of_mem hdocument)
    cases hindex : w.store.ftsIndexBatch docs with
    | error e =>
      rw [Task.advance_gathered_of_error hindex]
      exact h.stay (fun next hnext => absurd hnext (by simp)) index
    | ok S' =>
      rw [Task.advance_gathered_of_ok hindex]
      refine h.written hindex hdocs (fun next hnext => ?_) index
      cases vectorsFail with
      | true => exact absurd hnext (by simp)
      | false =>
        rw [← Option.some.inj hnext]
        exact htask.of_subset rfl fun _ hx => hx
  | indexed rows repairs =>
    rw [Task.advance]
    refine h.replace (fun _ hr => sameText_of_finishReindex hr) (fun _ hr => hr) rfl rfl h.docs
      h.profiles (fun next hnext => ?_) index
    obtain ⟨ingest, rfl, rfl⟩ := Option.map_eq_some_iff.mp hnext
    exact htask.of_subset rfl fun _ hx => hx
  | written ingest =>
    rw [Task.advance]
    refine h.replace (fun _ hr => sameText_of_markIndexed hr) (fun _ hr => hr) rfl rfl h.docs
      h.profiles (fun next hnext => ?_) index
    rw [← Option.some.inj hnext]
    exact htask.of_subset rfl fun _ hx => hx
  -- The consolidation writes the facts of memories that are not of the deleted one.
  | consolidating tasks =>
    cases tasks with
    | nil => exact h.stay (fun next hnext => absurd hnext (by simp [Task.advance])) index
    | cons first tasks =>
      have hfirst : isOf memoryId first.memoryId = false :=
        htask.consolidates first.memoryId List.mem_cons_self
      rw [Task.advance_consolidating]
      dsimp only
      refine h.consolidated hfirst now (fun next hnext => ?_) index
      rw [← Option.some.inj hnext]
      exact htask.of_subset rfl fun _ hx => List.mem_cons_of_mem _ hx
  | consolidated other tasks =>
    rw [Task.advance]
    refine h.replace ?_ ?_ ?_ ?_ ?_ ?_ (fun next hnext => ?_) index
    · exact fun r hr => ⟨r, hr, rfl, rfl, rfl⟩
    · exact fun r hr => (Table.mem_deleteWhere.mp hr).1
    · rfl
    · rfl
    · exact h.docs
    · exact h.profiles
    · rw [← Option.some.inj hnext]
      exact htask.of_subset rfl fun _ hx => hx

/-- The memories after a commit of other ones. -/
theorem World.Forgot.memories_commit {cosineSimilarity : List ℚ → List ℚ → ℚ}
    {clock : IngestClock} {b : IngestBatches} {S' : TenantStore} {outcome : CommitOutcome}
    (h : World.Forgot memoryId sessions left sent w) (hsent : b ∈ sent)
    (hitems : ∀ item ∈ b.observations, isOf memoryId item.2.1 = false)
    (hcommit : w.store.commitIngest cosineSimilarity order clock b = .ok (S', outcome))
    {r' : MemoryRow} (hr' : r' ∈ S'.memories.rows) : isOf memoryId r'.memoryId = false ∧
      ∀ text, indexTextFor r'.kind r'.content = some text →
        TextSince left sent r'.memoryId text := by
  rcases mem_memories_commitIngest hcommit hr' with ⟨item, hlast, hrow⟩ | ⟨-, r, hr, hrow⟩
  · obtain ⟨hitem, hid⟩ := mem_of_lastItem hlast
    rw [← hid]
    refine ⟨hitems item hitem, fun text htext => .observation hsent hitem ?_⟩
    rw [hrow] at htext
    exact htext
  · have hsame : r'.SameText r := by
      rw [hrow]
      split <;> exact ⟨rfl, rfl, rfl⟩
    rw [hsame.1, hsame.2.1, hsame.2.2]
    exact h.memories r hr

/-- A commit of other memories puts nothing back. -/
theorem World.Forgot.commit {cosineSimilarity : List ℚ → List ℚ → ℚ} {clock : IngestClock}
    {b : IngestBatches} (h : World.Forgot memoryId sessions left sent w) (hsent : b ∈ sent)
    (hb : ¬ b.Sends memoryId) :
    World.Forgot memoryId sessions left sent
      (w.step cosineSimilarity (.commit order clock b)) := by
  unfold IngestBatches.Sends at hb
  push Not at hb
  obtain ⟨hitems, hdocs, -, htasks⟩ := hb
  cases hcommit : w.store.commitIngest cosineSimilarity order clock b with
  | error e =>
    rw [World.step_commit_of_error hcommit]
    exact h
  | ok result =>
    obtain ⟨S', outcome⟩ := result
    rw [World.step_commit_of_ok hcommit]
    constructor
    · exact fun r' hr' => h.memories_commit hsent
        (fun item hitem => Bool.eq_false_iff.mpr (hitems item hitem)) hcommit hr'
    · intro r hr
      rw [commitIngest_consolidationQueue hcommit] at hr
      rcases Table.mem_of_mem_foldl_insertOrReplace hr with hold | ⟨task, htask, rfl⟩
      · exact h.queue r hold
      · exact Bool.eq_false_iff.mpr (htasks task htask)
    · obtain ⟨S₁, hrouters, -, hrouters', -⟩ := commitIngest_routers hcommit
      show RoutersSince left sent S'.sessionRouter
      rw [hrouters']
      exact RoutersSince.mergeRouterRecordsTx (by rw [hrouters]; exact h.stored) hsent _
    · intro task htask
      rcases List.mem_append.mp htask with hold | hnew
      · exact h.tasks task hold
      · rw [List.mem_singleton.mp hnew]
        have hbatch : outcome.ftsBatch = b.ftsBatch := by
          rw [commitIngest_outcome hcommit]
          rfl
        refine ⟨fun x hx _ => ?_, fun x hx => ?_⟩
        · obtain ⟨document, hdocument, rfl⟩ := List.mem_map.mp hx
          exact .document hsent (hbatch ▸ hdocument)
        · obtain ⟨task, htask, rfl⟩ := List.mem_map.mp hx
          exact Bool.eq_false_iff.mpr (htasks task htask)
    · intro d hd hconcerns
      rw [commitIngest_ftsMemories hcommit] at hd
      -- The batch writes a router document only with the text of a router that it merges.
      rcases Table.mem_of_mem_foldl_insertOrReplace hd with hold | ⟨router, hrouter, rfl⟩
      · exact h.docs d hold hconcerns
      · obtain ⟨record, hrecord, rfl⟩ := List.mem_map.mp hrouter
        obtain ⟨entry, hentry, rfl⟩ := List.mem_map.mp (List.mem_filter.mp hrecord).1
        have hmade := h.stored.merged hsent (List.Subset.refl _) hentry
        exact .inr (.router entry.2.entityId entry.2.sessionId (.inr ⟨entry.2, hmade, rfl⟩))
    · intro d hd hsession
      rw [commitIngest_ftsSessionRouter hcommit] at hd
      rcases Table.mem_of_mem_foldl_insertOrReplace hd with hold | ⟨record, hrecord, rfl⟩
      · exact h.sessionRouters d hold hsession
      · obtain ⟨entry, hentry, rfl⟩ := List.mem_map.mp hrecord
        have hmade := h.stored.merged hsent (List.Subset.refl _) hentry
        exact .inr (.inr ⟨entry.2, hmade, rfl⟩)
    · rw [commitIngest_coreProfiles hcommit]
      exact h.profiles

/-- A step that does not send the memory again puts nothing back. -/
theorem World.Forgot.step {cosineSimilarity : List ℚ → List ℚ → ℚ} {a : WorldStep}
    (h : World.Forgot memoryId sessions left sent w) (hsent : a.batches ⊆ sent)
    (ha : ¬ a.Sends memoryId) :
    World.Forgot memoryId sessions left sent (w.step cosineSimilarity a) := by
  -- A background pass that begins reads what is stored or waits.
  have hbegin : ∀ task : Task, task.FreeOf memoryId sessions left sent →
      World.Forgot memoryId sessions left sent ⟨w.store, w.tasks ++ [task]⟩ := by
    refine fun task htask => ⟨h.memories, h.queue, h.stored, fun other hother => ?_, h.docs,
      h.sessionRouters, h.profiles⟩
    rcases List.mem_append.mp hother with hold | hnew
    · exact h.tasks other hold
    · rw [List.mem_singleton.mp hnew]
      exact htask
  -- What begins reads the store of this moment, which is free of the text.
  cases a with
  | commit order clock b =>
    have hb : b ∈ (WorldStep.commit order clock b).batches := List.mem_cons_self
    exact h.commit (hsent hb) fun hsends => ha ⟨b, hb, hsends⟩
  | reindex limit =>
    refine hbegin _ ⟨fun document hdocument _ => ?_, fun x hx => absurd hx List.not_mem_nil⟩
    obtain ⟨row, hrow, hdocument⟩ := List.mem_filterMap.mp hdocument
    obtain ⟨text, htext, rfl⟩ := Option.map_eq_some_iff.mp hdocument
    obtain ⟨r, hr, hpending⟩ := List.mem_flatMap.mp (List.mem_of_mem_take hrow)
    exact h.textSince_of_pendingOf (List.mem_filter.mp hr).1 hpending htext
  | consolidate limit =>
    -- What waits for its consolidation is not of the memory.
    refine hbegin _ ⟨fun x hx => absurd hx List.not_mem_nil, fun x hx => ?_⟩
    obtain ⟨task, htask, rfl⟩ := List.mem_map.mp hx
    obtain ⟨r, hr, rfl⟩ := List.mem_map.mp htask
    exact h.queue r ((mem_orderBy _ _ _).mp (List.mem_of_mem_take hr))
  | advance index order vectorsFail now =>
    cases htask : w.tasks[index]? with
    | none =>
      rw [World.step_advance_of_none htask]
      exact h
    | some task =>
      rw [World.step_advance htask]
      exact h.advance (h.tasks task (List.mem_of_getElem? htask)) vectorsFail now
  | fail index =>
    cases htask : w.tasks[index]? with
    | none =>
      rw [World.step_fail_of_none htask]
      exact h
    | some task =>
      rw [World.step_fail htask]
      exact h.stay (fun next hnext => (h.tasks task (List.mem_of_getElem? htask)).fail hnext) index

end

/-! ## Runs -/

section

variable {S : TenantStore} {memoryId reason : String} {order : HashOrder} {now : UInt64}

/-- Removing chunks and rebuilding routers changes neither the queue nor the core profiles. -/
theorem deleteObservation_profiles :
    (S.deleteObservation order now memoryId reason).1.consolidationQueue =
        S.consolidationQueue.deleteWhere (fun r => isOf memoryId r.memoryId) ∧
      (S.deleteObservation order now memoryId reason).1.coreProfiles =
        removeDeletedFromCoreProfiles S.coreProfiles memoryId now := by
  obtain ⟨memories, vectorLookup, ftsMemories, sessionRouter, ftsSessionRouter, hframe⟩ :=
    deleteObservation_frame order now S memoryId reason
  rw [hframe]
  exact ⟨rfl, rfl⟩

/-- What the database finds under a memory is found in memory as well. -/
theorem startsOf_of_isOf {x : String} (h : isOf memoryId x = true) :
    startsOf memoryId x = true := by
  unfold isOf sqlHasPrefix at h
  unfold startsOf
  rw [Bool.or_eq_true] at h ⊢
  rcases h with hself | hprefix
  · exact .inl hself
  · exact .inr (Bool.and_eq_true _ _ ▸ hprefix).1

/-- Nothing of a memory is in a core profile after its deletion. -/
theorem mem_facts_removeDeleted {t : Table CoreProfileRow.entityId} {p : CoreProfileRow}
    (hp : p ∈ (removeDeletedFromCoreProfiles t memoryId now).rows) {f : ProfileFact}
    (hf : f ∈ p.profile.facts) : f.memoryId.any (startsOf memoryId) = false := by
  obtain ⟨q, hq, rfl⟩ := List.mem_map.mp hp
  unfold Assignment.on at hf
  split at hf
  · -- A profile that loses facts keeps those that are not of the memory.
    have hkept := (List.mem_filter.mp hf).2
    rwa [Bool.not_eq_true'] at hkept
  · rename_i hnone
    rw [List.any_eq_true] at hnone
    push Not at hnone
    exact Bool.eq_false_iff.mpr (hnone f hf)

/-- What the deletion has left is from elsewhere for what is sent after it. -/
theorem RouterSince.mono {left : TenantStore} {sent sent' : List IngestBatches}
    (hsent : sent ⊆ sent') {record : SessionRouterRecord} (h : RouterSince left sent record) :
    RouterSince left sent' record := by
  induction h with
  | stored hr => exact .stored hr
  | fragment hb hrecord => exact .fragment (hsent hb) hrecord
  | merged _ hb hrecord ih => exact .merged ih (hsent hb) hrecord

/-- A text from elsewhere stays so when more is sent. -/
theorem TextSince.mono {left : TenantStore} {sent sent' : List IngestBatches}
    (hsent : sent ⊆ sent') {x text : String} (h : TextSince left sent x text) :
    TextSince left sent' x text := by
  cases h with
  | memory hr htext => exact .memory hr htext
  | observation hb hitem htext => exact .observation (hsent hb) hitem htext
  | document hb hdocument => exact .document (hsent hb) hdocument
  | router entityId sessionId htext =>
    exact .router entityId sessionId (htext.imp_right fun ⟨record, hrecord, heq⟩ =>
      ⟨record, hrecord.mono hsent, heq⟩)

/-- Right after a deletion nothing of the memory is stored or waits. -/
theorem World.forgot_of_deleteObservation {sessions : List (String × String)} {tasks : List Task}
    (htasks : ∀ task ∈ tasks, task.FreeOf memoryId sessions
      (S.deleteObservation order now memoryId reason).1 []) (sent : List IngestBatches) :
    World.Forgot memoryId sessions (S.deleteObservation order now memoryId reason).1 sent
      ⟨(S.deleteObservation order now memoryId reason).1, tasks⟩ := by
  obtain ⟨hqueue, hprofiles⟩ :=
    @deleteObservation_profiles S memoryId reason order now
  refine ⟨fun r hr => ?_, fun r hr => ?_, fun r hr => ?_, fun task htask => ?_,
    fun d hd _ => .inl hd, fun d hd _ => .inl hd, fun p hp f hf => ?_⟩
  -- At first the store that the deletion leaves is all that there is.
  · exact ⟨((mem_memories_deleteObservation _ _ _ _ _).mp hr).2, fun _ htext => .memory hr htext⟩
  · change r ∈ (S.deleteObservation order now memoryId reason).1.consolidationQueue.rows at hr
    rw [hqueue] at hr
    exact (Table.mem_deleteWhere.mp hr).2
  · exact ⟨.stored hr, .inl ⟨r, hr, rfl⟩⟩
  · exact ⟨fun document hdocument hconcerns =>
      ((htasks task htask).documents document hdocument hconcerns).mono (List.nil_subset _),
      (htasks task htask).consolidates⟩
  · rw [hprofiles] at hp
    have hgone := mem_facts_removeDeleted hp hf
    cases hid : f.memoryId with
    | none => rfl
    | some x =>
      -- The profile has dropped the facts of all that is of the memory.
      rw [hid] at hgone
      refine Bool.eq_false_iff.mpr fun hof => ?_
      rw [Option.any_some, startsOf_of_isOf hof] at hgone
      exact absurd hgone (by decide)

/-- A document of the memory itself has no text from elsewhere. -/
theorem not_textSince {sent : List IngestBatches} (hsent : ∀ b ∈ sent, ¬ b.Sends memoryId)
    {x text : String} (hof : isOf memoryId x = true) (hrouter : ¬ IsRouterId x) :
    ¬ TextSince (S.deleteObservation order now memoryId reason).1 sent x text := by
  intro h
  cases h with
  | memory hr =>
    rw [((mem_memories_deleteObservation _ _ _ _ _).mp hr).2] at hof
    exact absurd hof (by decide)
  | observation hb hitem => exact hsent _ hb (.inl ⟨_, hitem, hof⟩)
  | document hb hdocument => exact hsent _ hb (.inr (.inl ⟨_, hdocument, hof⟩))
  | router entityId sessionId => exact hrouter ⟨entityId, sessionId, rfl⟩

/-- If no ingest or background pass carries a text of a memory along when the memory is deleted,
itself or in the document of a router, then whatever they do next, and whatever else is ingested,
nothing of it is put back before it is sent again. This holds for the routers of any sessions, and
so for those that the memory contributed to. -/
theorem keepsForgotten_run {cosineSimilarity : List ℚ → List ℚ → ℚ} {tasks : List Task}
    {sessions : List (String × String)} {run : List WorldStep}
    (htasks : ∀ task ∈ tasks, task.FreeOf memoryId sessions
      (S.deleteObservation order now memoryId reason).1 [])
    (hrun : ∀ a ∈ run, ¬ a.Sends memoryId) :
    KeepsForgotten memoryId sessions
      (S.deleteObservation order now memoryId reason).1 (run.flatMap WorldStep.batches)
      (run.foldl (World.step cosineSimilarity)
        ⟨(S.deleteObservation order now memoryId reason).1, tasks⟩).store := by
  have hsent : ∀ b ∈ run.flatMap WorldStep.batches, ¬ b.Sends memoryId := by
    intro b hb hsends
    obtain ⟨a, ha, hb⟩ := List.mem_flatMap.mp hb
    exact hrun a ha ⟨b, hb, hsends⟩
  have hforgot := World.forgot_of_deleteObservation htasks (run.flatMap WorldStep.batches)
  have hbatches : ∀ a ∈ run, a.batches ⊆ run.flatMap WorldStep.batches :=
    fun a ha b hb => List.mem_flatMap.mpr ⟨a, ha, hb⟩
  have hnot := @not_textSince S memoryId reason order now _ hsent
  generalize run.flatMap WorldStep.batches = sent at hsent hforgot hbatches hnot ⊢
  have hend := List.foldlRecOn run (World.step cosineSimilarity) hforgot
    fun w hw a ha => World.Forgot.step hw (hbatches a ha) (hrun a ha)
  refine ⟨fun d hd hof hrouter => ?_, hend.docs, hend.sessionRouters, hend.profiles⟩
  exact (hend.docs d hd (.inl hof)).resolve_right (hnot hof hrouter)

end

/-- One memory of a session. -/
private def entry (memoryId content : String) : UInt64 × String × AgentObservation :=
  (100, memoryId,
    { entityId := "alice"
      textualContent := content
      embedding := []
      kind := .fact
      contentHash := content
      expiresAtMs := none
      sessionId := "s1"
      turnIndex := 0
      role := ""
      parentMemoryId := none })

/-- What it contributes to the router of the session. -/
private def entryFragment (memoryId content : String) : SessionRouterRecord :=
  let record : SessionRouterRecord :=
    { sessionId := "s1"
      entityId := "alice"
      sessionDate := ""
      documentTimeMs := 100
      speakers := []
      persons := []
      sessionFocus := ""
      canonicalFacts := []
      events := [content]
      objects := []
      places := []
      activities := []
      preferenceSignals := []
      salientTerms := []
      sourceMemoryIds := [memoryId]
      routerText := ""
      createdAtMs := 100
      updatedAtMs := 100 }
  { record with routerText := buildSessionRouterText record }

/-- The batch of one memory that is to be consolidated. -/
private def entryBatch (memoryId content : String) : IngestBatches where
  observations := [entry memoryId content]
  ftsBatch := ftsBatchOf [entry memoryId content]
  sessionRouterUpdates := [entryFragment memoryId content]
  consolidationTasks := [⟨"alice", memoryId, 100, content⟩]

/-- The world that a run reaches from an empty store. -/
private def reached (run : List WorldStep) : World :=
  run.foldl (World.step fun _ _ => 0) ⟨TenantStore.empty, []⟩

/-- The world right after the first memory is deleted. -/
private def World.withoutFirst (w : World) : World :=
  ⟨(w.store.deleteObservation .insertion 200 "alice::s1::0" "").1, w.tasks⟩

/-- The commit of the first memory. -/
private def firstCommit : WorldStep :=
  .commit .insertion ⟨100, 100, 100⟩ (entryBatch "alice::s1::0" "lives in oslo")

/-- The next transaction of a task. -/
private def goesOn (index : ℕ) : WorldStep :=
  .advance index .insertion false 200

/-- The ingest of the first memory has committed, and nothing else. -/
private def underWay : World := reached [firstCommit]

/-- The ingest of the first memory has failed, and its repair has gathered what it is to write. -/
private def repairing : World := reached [firstCommit, .fail 0, goesOn 0, goesOn 0]

/-- A memory is deleted while its ingest is under way. The document comes back, and then the text in
the core profile. Out of a repair the router of the session comes back as well, with the text. -/
theorem put_back :
    (∃ d ∈ ([goesOn 0].foldl (World.step fun _ _ => 0)
        underWay.withoutFirst).store.ftsMemories.rows, d.memoryId = "alice::s1::0") ∧
      ¬ KeepsForgotten "alice::s1::0" (underWay.store.affectedRouters "alice::s1::0")
        underWay.withoutFirst.store []
        ([goesOn 0, goesOn 0, goesOn 0].foldl (World.step fun _ _ => 0)
          underWay.withoutFirst).store ∧
      repairing.withoutFirst.store.ftsMemories.rows = [] ∧
        ∃ d ∈ ([goesOn 0].foldl (World.step fun _ _ => 0)
          repairing.withoutFirst).store.ftsMemories.rows, d.memoryId = routerId "alice" "s1" ∧
            d.content = "session s1\nevents lives in oslo" := by
  refine ⟨by decide +kernel, fun h => ?_, by decide +kernel, by decide +kernel⟩
  exact absurd h.profiles (by decide +kernel)

/-- The ingest of the first memory is done, and that of a second one of the session is repaired; it
has read what waits. -/
private def secondRepaired : World :=
  reached [firstCommit, goesOn 0, goesOn 0, goesOn 0,
    .commit .insertion ⟨100, 100, 100⟩ (entryBatch "alice::s1::1" "works in rome"),
    .fail 1, goesOn 1]

/-- The repair goes on, and a third memory of the session is sent. -/
private def laterRun : List WorldStep :=
  [goesOn 1, goesOn 1, .commit .insertion ⟨300, 300, 300⟩ (entryBatch "alice::s1::2" "plays chess"),
    goesOn 2, goesOn 1, goesOn 1]

/-- What one ingest is done with stays away while the router of its session is written again. -/
theorem stays_away :
    KeepsForgotten "alice::s1::0" (secondRepaired.store.affectedRouters "alice::s1::0")
        secondRepaired.withoutFirst.store (laterRun.flatMap WorldStep.batches)
        (laterRun.foldl (World.step fun _ _ => 0) secondRepaired.withoutFirst).store ∧
      ∃ d ∈ (laterRun.foldl (World.step fun _ _ => 0)
        secondRepaired.withoutFirst).store.ftsMemories.rows,
          d.memoryId = routerId "alice" "s1" := by
  have htasks : ∀ task ∈ secondRepaired.tasks,
      (∀ x ∈ task.documents, ¬ Concerns "alice::s1::0"
        (secondRepaired.store.affectedRouters "alice::s1::0") x.1) ∧
      ∀ x ∈ task.consolidates, isOf "alice::s1::0" x = false := by
    unfold Concerns
    decide +kernel
  have hrun : ∀ a ∈ laterRun, ∀ b ∈ a.batches, ¬ b.Sends "alice::s1::0" := by
    unfold IngestBatches.Sends
    decide +kernel
  refine ⟨keepsForgotten_run (fun task htask => ?_) fun a ha => ?_, by decide +kernel⟩
  · obtain ⟨hdocuments, hconsolidates⟩ := htasks task htask
    exact ⟨fun x hx hconcerns => absurd hconcerns (hdocuments x hx), hconsolidates⟩
  · rintro ⟨b, hb, hsends⟩
    exact hrun a ha b hb hsends

end Tellodb
