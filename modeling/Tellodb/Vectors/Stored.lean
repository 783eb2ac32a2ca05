import Tellodb.Vectors.Index
import Tellodb.Index.Docs
import Tellodb.Deletion.Exact
import Mathlib.Data.List.Find

/-!
# Stored vectors

What a commit and a deletion do to the vectors of the store, compared with what they owe to the
index. A vector belongs to a memory (`Anchored`). A commit owes every vector that it writes
(`storedCode_commitIngest`) and a deletion every vector that it removes of its entity
(`storedCode_deleteObservation`). What is not owed is the vector that a commit takes from an entity,
because the memory comes without one or under another entity, and the vector of a derived memory
that was stored under another entity than the deleted one. -/

namespace Tellodb

open Relational Cache

/-- Each vector is that of a memory, under the memory's row and entity. -/
def Anchored (memories : AutoTable MemoryRow.memoryId MemoryRow.rowid)
    (vectors : Table VectorRow.vectorId) : Prop :=
  ∀ v ∈ vectors.rows, ∃ r ∈ memories.rows,
    r.rowid = v.vectorId ∧ r.memoryId = v.memoryId ∧ r.entityId = v.entityId

/-- A store without vectors. -/
theorem anchored_empty : Anchored TenantStore.empty.memories TenantStore.empty.vectorLookup :=
  fun _ hv => absurd hv List.not_mem_nil

/-! ## Memories that are written -/

section

variable {γ : Type} {config : VectorConfig γ} {recordedAt : UInt64}
  {item : UInt64 × String × AgentObservation}

/-- A memory that is stored is written under its row. -/
theorem upsertMemory_rowid {t : AutoTable MemoryRow.memoryId MemoryRow.rowid} {r : MemoryRow}
    (hr : r ∈ t.rows) (hid : r.memoryId = item.2.1) :
    (upsertMemory recordedAt t item).2 = r.rowid := by
  obtain ⟨timestamp, memoryId, o⟩ := item
  have hfind : t.find? memoryId = some r := Table.find?_eq_some.mpr ⟨hr, hid⟩
  unfold upsertMemory
  simp only [hfind]

/-- The vectors after one is stored or removed. -/
theorem storedCode_putVector (rowid : ℕ) (t : Table VectorRow.vectorId) (entityId : String)
    (id : ℕ) : storedCode config (putVector rowid t item) entityId id =
      if id = rowid then
        if item.2.2.embedding.isEmpty = false ∧ item.2.2.entityId = entityId then
          some (config.encode item.2.2.embedding)
        else none
      else storedCode config t entityId id := by
  obtain ⟨timestamp, memoryId, o⟩ := item
  unfold putVector storedCode
  by_cases hempty : o.embedding.isEmpty
  · simp only [hempty, if_true]
    rw [Table.find?_deleteWhere_key]
    by_cases hid : id = rowid
    · rw [if_pos hid.symm, if_pos hid]
      simp
    · rw [if_neg (Ne.symm hid), if_neg hid]
  · simp only [hempty]
    rw [if_neg Bool.false_ne_true, Table.find?_insertOrReplace]
    by_cases hid : id = rowid
    · rw [if_pos hid.symm, if_pos hid]
      by_cases hentity : o.entityId = entityId
      · simp [hentity]
      · simp [hentity]
    · rw [if_neg (Ne.symm hid), if_neg hid]

/-- One memory of a batch, written with its vector. -/
def writeObservation (recordedAt : UInt64)
    (s : AutoTable MemoryRow.memoryId MemoryRow.rowid × Table VectorRow.vectorId × List ℕ)
    (item : UInt64 × String × AgentObservation) :
    AutoTable MemoryRow.memoryId MemoryRow.rowid × Table VectorRow.vectorId × List ℕ :=
  ((upsertMemory recordedAt s.1 item).1,
    putVector (upsertMemory recordedAt s.1 item).2 s.2.1 item,
    s.2.2 ++ [(upsertMemory recordedAt s.1 item).2])

/-- The memories of a batch are written one after the other, each with its vector. -/
theorem insertObservationsTx_eq (S : TenantStore)
    (items : List (UInt64 × String × AgentObservation)) :
    let s := items.foldl (writeObservation recordedAt) (S.memories, S.vectorLookup, [])
    insertObservationsTx recordedAt S items =
      ({ S with memories := s.1, vectorLookup := s.2.1 }, s.2.2) := rfl

/-- The last write under a row identifier. -/
def lastWrite (writes : List ((UInt64 × String × AgentObservation) × ℕ)) (rowid : ℕ) :
    Option ((UInt64 × String × AgentObservation) × ℕ) :=
  writes.reverse.find? fun x => x.2 = rowid

/-- What writing memories does to the vectors: under each row there is what the last write left
there. -/
structure Written (config : VectorConfig γ) (memories : AutoTable MemoryRow.memoryId MemoryRow.rowid)
    (vectors : Table VectorRow.vectorId) (items : List (UInt64 × String × AgentObservation))
    (s : AutoTable MemoryRow.memoryId MemoryRow.rowid × Table VectorRow.vectorId × List ℕ) :
    Prop where
  length : items.length = s.2.2.length
  anchored : Anchored s.1 s.2.1
  kept : ∀ r ∈ memories.rows, ∃ r' ∈ s.1.rows, r'.rowid = r.rowid ∧ r'.memoryId = r.memoryId
  named : ∀ x ∈ items.zip s.2.2, ∃ r ∈ s.1.rows, r.rowid = x.2 ∧ r.memoryId = x.1.2.1
  code : ∀ entityId id, storedCode config s.2.1 entityId id =
    (lastWrite (items.zip s.2.2) id).elim (storedCode config vectors entityId id) fun x =>
      if x.1.2.2.embedding.isEmpty = false ∧ x.1.2.2.entityId = entityId then
        some (config.encode x.1.2.2.embedding)
      else none

/-- Writing a memory keeps the vectors at their memories. -/
theorem Anchored.writeObservation
    {s : AutoTable MemoryRow.memoryId MemoryRow.rowid × Table VectorRow.vectorId × List ℕ}
    (h : Anchored s.1 s.2.1) :
    Anchored (Tellodb.writeObservation recordedAt s item).1
      (Tellodb.writeObservation recordedAt s item).2.1 := by
  have hold : ∀ v ∈ s.2.1.rows, v.vectorId ≠ (upsertMemory recordedAt s.1 item).2 →
      ∃ r ∈ (upsertMemory recordedAt s.1 item).1.rows,
        r.rowid = v.vectorId ∧ r.memoryId = v.memoryId ∧ r.entityId = v.entityId := by
    intro v hv hne
    obtain ⟨r, hr, hrowid, hplace⟩ := h v hv
    refine ⟨r, mem_upsertMemory_iff.mpr (.inr ⟨hr, fun hid => hne ?_⟩), hrowid, hplace⟩
    rw [upsertMemory_rowid hr hid]
    exact hrowid.symm
  intro v hv
  change v ∈ (putVector (upsertMemory recordedAt s.1 item).2 s.2.1 item).rows at hv
  unfold putVector at hv
  dsimp only at hv
  split at hv
  · obtain ⟨hv, hne⟩ := Table.mem_deleteWhere.mp hv
    exact hold v hv (of_decide_eq_false hne)
  · rcases Table.mem_insertOrReplace.mp hv with ⟨hv, hne⟩ | rfl
    · exact hold v hv hne
    · exact ⟨_, mem_upsertMemory_iff.mpr (.inl rfl), rfl, rfl, rfl⟩

/-- What writing the memories of a batch does to the vectors. -/
theorem written_foldl {memories : AutoTable MemoryRow.memoryId MemoryRow.rowid}
    {vectors : Table VectorRow.vectorId} (h : Anchored memories vectors)
    (items : List (UInt64 × String × AgentObservation)) :
    Written config memories vectors items
      (items.foldl (writeObservation recordedAt) (memories, vectors, [])) := by
  -- The writes are taken from the last one on.
  induction items using List.reverseRecOn with
  | nil =>
    exact ⟨rfl, h, fun r hr => ⟨r, hr, rfl, rfl⟩, fun x hx => absurd hx (by simp),
      fun _ _ => rfl⟩
  | append_singleton items item ih =>
    rw [List.foldl_append, List.foldl_cons, List.foldl_nil]
    generalize items.foldl (writeObservation recordedAt) (memories, vectors, []) = s at ih ⊢
    have hzip : (items ++ [item]).zip (writeObservation recordedAt s item).2.2 =
        items.zip s.2.2 ++ [(item, (upsertMemory recordedAt s.1 item).2)] := by
      show (items ++ [item]).zip (s.2.2 ++ [_]) = _
      rw [List.zip_append ih.length]
      rfl
    -- Each memory that is stored stays, or is the one that is written.
    have hkept : ∀ r ∈ s.1.rows, ∃ r' ∈ (writeObservation recordedAt s item).1.rows,
        r'.rowid = r.rowid ∧ r'.memoryId = r.memoryId := by
      intro r hr
      by_cases hid : r.memoryId = item.2.1
      · exact ⟨_, mem_upsertMemory_iff.mpr (.inl rfl), upsertMemory_rowid hr hid, hid.symm⟩
      · exact ⟨r, mem_upsertMemory_iff.mpr (.inr ⟨hr, hid⟩), rfl, rfl⟩
    refine ⟨?_, ih.anchored.writeObservation, ?_, ?_, ?_⟩
    · show (items ++ [item]).length = (s.2.2 ++ [_]).length
      rw [List.length_append, List.length_append, ih.length]
      rfl
    -- A place that is named stays named.
    · intro r hr
      obtain ⟨q, hq, hrowid, hid⟩ := ih.kept r hr
      obtain ⟨r', hr', hrowid', hid'⟩ := hkept q hq
      exact ⟨r', hr', hrowid'.trans hrowid, hid'.trans hid⟩
    · intro x hx
      rw [hzip] at hx
      rcases List.mem_append.mp hx with hx | hx
      · obtain ⟨q, hq, hrowid, hid⟩ := ih.named x hx
        obtain ⟨r', hr', hrowid', hid'⟩ := hkept q hq
        exact ⟨r', hr', hrowid'.trans hrowid, hid'.trans hid⟩
      · rw [List.mem_singleton.mp hx]
        exact ⟨_, mem_upsertMemory_iff.mpr (.inl rfl), rfl, rfl⟩
    · intro entityId id
      rw [hzip]
      -- The last write is the new one if it is under the identifier.
      have hlast : lastWrite (items.zip s.2.2 ++ [(item, (upsertMemory recordedAt s.1 item).2)]) id =
          if (upsertMemory recordedAt s.1 item).2 = id then
            some (item, (upsertMemory recordedAt s.1 item).2)
          else lastWrite (items.zip s.2.2) id := by
        unfold lastWrite
        rw [List.reverse_append, List.reverse_singleton, List.singleton_append, List.find?_cons]
        by_cases hid : (upsertMemory recordedAt s.1 item).2 = id
        · simp [hid]
        · simp [hid]
      -- The vector of the new write is put in the place that the row has.
      have hcode : storedCode config (writeObservation recordedAt s item).2.1 entityId id = _ :=
        storedCode_putVector _ s.2.1 entityId id
      rw [hlast, hcode]
      by_cases hid : id = (upsertMemory recordedAt s.1 item).2
      · rw [if_pos hid, if_pos hid.symm]
        rfl
      · rw [if_neg hid, if_neg (Ne.symm hid)]
        exact ih.code entityId id

/-- The last write under the row of a memory is the last memory of the batch with its
identifier. -/
theorem Written.lastItem_eq {memories : AutoTable MemoryRow.memoryId MemoryRow.rowid}
    {vectors : Table VectorRow.vectorId} {items : List (UInt64 × String × AgentObservation)}
    {s : AutoTable MemoryRow.memoryId MemoryRow.rowid × Table VectorRow.vectorId × List ℕ}
    (h : Written config memories vectors items s) {r : MemoryRow} (hr : r ∈ s.1.rows) :
    lastItem items r.memoryId = (lastWrite (items.zip s.2.2) r.rowid).map Prod.fst := by
  -- The row and the identifier of a write stand for each other.
  have hsame : ∀ x ∈ (items.zip s.2.2).reverse,
      decide (x.1.2.1 = r.memoryId) = decide (x.2 = r.rowid) := by
    intro x hx
    obtain ⟨q, hq, hqrowid, hqid⟩ := h.named x (List.mem_reverse.mp hx)
    refine decide_eq_decide.mpr ⟨fun hname => ?_, fun hrow => ?_⟩
    · rw [← hqrowid, s.1.keyed.eq_of_mem hq hr (hqid.trans hname)]
    · rw [← hqid, eq_of_rowid hq hr (hqrowid.trans hrow)]
  unfold lastItem lastWrite
  conv_lhs => rw [← List.map_fst_zip (Nat.le_of_eq h.length), ← List.map_reverse, List.find?_map]
  exact congrArg _ (List.find?_congr hsame)

/-! ## Neighbours -/

/-- The last neighbour with a vector. -/
def lastNeighbour (applied : List NeighbourVector) (id : ℕ) : Option NeighbourVector :=
  applied.reverse.find? fun n => n.vectorId = id

/-- What new embeddings of neighbours do to the vectors: a vector that is stored has the embedding
of the last neighbour. -/
theorem storedCode_neighbours (t : Table VectorRow.vectorId) (applied : List NeighbourVector)
    (entityId : String) (id : ℕ) :
    storedCode config (applied.foldl (fun t n =>
      t.updateWhere (fun v => v.vectorId = n.vectorId) (setEmbedding n.embedding)) t) entityId id =
      (storedCode config t entityId id).map fun code =>
        (lastNeighbour applied id).elim code fun n => config.encode n.embedding := by
  -- The neighbours are taken from the last one on.
  induction applied using List.reverseRecOn with
  | nil => simp [lastNeighbour]
  | append_singleton applied n ih =>
    rw [List.foldl_append, List.foldl_cons, List.foldl_nil]
    generalize applied.foldl (fun t n =>
      t.updateWhere (fun v => v.vectorId = n.vectorId) (setEmbedding n.embedding)) t = t₁ at ih ⊢
    have hlast : lastNeighbour (applied ++ [n]) id =
        if n.vectorId = id then some n else lastNeighbour applied id := by
      unfold lastNeighbour
      rw [List.reverse_append, List.reverse_singleton, List.singleton_append, List.find?_cons]
      by_cases hid : n.vectorId = id
      · simp [hid]
      · simp [hid]
    -- Only the rows of the neighbour's place are changed.
    have hupdated : storedCode config (t₁.updateWhere (fun v => v.vectorId = n.vectorId)
        (setEmbedding n.embedding)) entityId id =
          (storedCode config t₁ entityId id).map fun code =>
            if n.vectorId = id then config.encode n.embedding else code := by
      refine Option.ext fun code => ?_
      rw [storedCode_eq_some, Option.map_eq_some_iff]
      constructor
      · rintro ⟨v', hv', hid, hentity, hcode⟩
        obtain ⟨v, hv, rfl⟩ := List.mem_map.mp hv'
        unfold Assignment.on at hid hentity hcode
        by_cases hn : v.vectorId = n.vectorId
        · rw [if_pos (decide_eq_true hn)] at hid hentity hcode
          refine ⟨_, storedCode_eq_some.mpr ⟨v, hv, hid, hentity, rfl⟩, ?_⟩
          rw [if_pos (hn.symm.trans hid)]
          exact hcode
        · rw [if_neg fun h => hn (of_decide_eq_true h)] at hid hentity hcode
          refine ⟨_, storedCode_eq_some.mpr ⟨v, hv, hid, hentity, rfl⟩, ?_⟩
          rw [if_neg fun h => hn (hid.trans h.symm)]
          exact hcode
      · rintro ⟨old, hold, rfl⟩
        obtain ⟨v, hv, hid, hentity, rfl⟩ := storedCode_eq_some.mp hold
        refine ⟨_, List.mem_map.mpr ⟨v, hv, rfl⟩, ?_⟩
        unfold Assignment.on
        by_cases hn : n.vectorId = id
        · rw [if_pos (decide_eq_true (hid.trans hn.symm)), if_pos hn]
          exact ⟨hid, hentity, rfl⟩
        · rw [if_neg fun h => hn ((of_decide_eq_true h).symm.trans hid), if_neg hn]
          exact ⟨hid, hentity, rfl⟩
    rw [hupdated, ih, hlast, Option.map_map]
    congr 1
    funext code
    by_cases hid : n.vectorId = id
    · simp [hid]
    · simp [hid]

end

/-! ## Commits -/

section

variable {γ : Type} {config : VectorConfig γ} {cosineSimilarity : List ℚ → List ℚ → ℚ}
  {order : HashOrder} {clock : IngestClock} {S S' : TenantStore} {b : IngestBatches}
  {outcome : CommitOutcome}

/-- A memory without its mark. -/
def unmarked (r : MemoryRow) : MemoryRow :=
  { r with indexed := false }

/-- Memories that agree without their marks differ in them at most. -/
theorem eq_of_unmarked {r r' : MemoryRow} (h : unmarked r' = unmarked r) :
    r' = { r with indexed := r'.indexed } :=
  calc r' = { unmarked r' with indexed := r'.indexed } := rfl
    _ = { unmarked r with indexed := r'.indexed } := by rw [h]
    _ = { r with indexed := r'.indexed } := rfl

/-- Setting or clearing marks changes nothing else. -/
theorem unmarked_updateWhere (t : AutoTable MemoryRow.memoryId MemoryRow.rowid)
    (p : MemoryRow → Bool) (indexed : Bool) :
    (t.updateWhere p (setIndexed indexed)).rows.map unmarked = t.rows.map unmarked := by
  rw [AutoTable.updateWhere_rows, List.map_map]
  refine List.map_congr_left fun r _ => ?_
  unfold Function.comp Assignment.on
  split <;> rfl

/-- A row of a reindexing pass sets or clears marks only. -/
theorem unmarked_finishRow (t : AutoTable MemoryRow.memoryId MemoryRow.rowid)
    (row : PendingIndexRow) : (finishRow t row).rows.map unmarked = t.rows.map unmarked := by
  unfold finishRow
  dsimp only
  split <;> exact unmarked_updateWhere t _ _

/-- Setting or clearing marks several times changes nothing else. -/
theorem unmarked_foldl_setIndexed {β : Type} {items : List β}
    {f : AutoTable MemoryRow.memoryId MemoryRow.rowid → β →
      AutoTable MemoryRow.memoryId MemoryRow.rowid}
    {t : AutoTable MemoryRow.memoryId MemoryRow.rowid}
    (h : ∀ t item, (f t item).rows.map unmarked = t.rows.map unmarked) :
    (items.foldl f t).rows.map unmarked = t.rows.map unmarked := by
  induction items using List.reverseRecOn with
  | nil => rfl
  | append_singleton items item ih =>
    rw [List.foldl_append, List.foldl_cons, List.foldl_nil, h, ih]

/-- What follows a commit indexes documents and sets or clears marks. -/
theorem indexCommitted_inv (order : HashOrder) (faults : VectorFaults) (S : TenantStore)
    (outcome : CommitOutcome) :
    ∃ docs memories, S.indexCommitted order faults outcome =
        { S with ftsMemories := docs, memories := memories } ∧
      memories.rows.map unmarked = S.memories.rows.map unmarked := by
  obtain ⟨docs, hdocs⟩ : ∃ docs, (S.ftsIndexBatch outcome.ftsBatch).toOption.getD S =
      { S with ftsMemories := docs } := by
    cases hbatch : S.ftsIndexBatch outcome.ftsBatch with
    | error e => exact ⟨S.ftsMemories, rfl⟩
    | ok S' => exact ftsIndexBatch_inv hbatch
  -- Marks are not looked at, so setting them changes nothing.
  have hmark : ∀ (t : AutoTable MemoryRow.memoryId MemoryRow.rowid) (memoryIds : List String),
      (memoryIds.foldl (fun t memoryId => t.updateWhere (fun r => r.memoryId = memoryId)
        (setIndexed true)) t).rows.map unmarked = t.rows.map unmarked := fun t _ =>
    unmarked_foldl_setIndexed fun t _ => unmarked_updateWhere t _ true
  -- A repair writes documents and marks, and nothing else.
  have hrepair : ∀ (S : TenantStore) (memoryIds : List String), ∃ docs memories,
      (S.reindexMemoryIds order faults.repair memoryIds).1 =
          { S with ftsMemories := docs, memories := memories } ∧
        memories.rows.map unmarked = S.memories.rows.map unmarked := by
    intro S memoryIds
    unfold TenantStore.reindexMemoryIds
    dsimp only
    cases hbatch : S.ftsIndexBatch (S.reindexDocs order (S.pendingRowsOf memoryIds)) with
    | error e => exact ⟨S.ftsMemories, S.memories, rfl, rfl⟩
    | ok S' =>
      obtain ⟨docs, rfl⟩ := ftsIndexBatch_inv hbatch
      dsimp only
      split
      · exact ⟨docs, S.memories, rfl, rfl⟩
      · exact ⟨docs, _, rfl, unmarked_foldl_setIndexed unmarked_finishRow⟩
  unfold TenantStore.indexCommitted
  dsimp only
  rw [hdocs]
  split
  · exact ⟨docs, _, rfl, hmark S.memories outcome.indexedMemoryIds⟩
  · obtain ⟨docs', memories, hrepaired, hmarks⟩ :=
      hrepair { S with ftsMemories := docs } outcome.indexedMemoryIds
    rw [hrepaired]
    split
    · exact ⟨docs', _, rfl, (hmark memories outcome.indexedMemoryIds).trans hmarks⟩
    · exact ⟨docs', memories, rfl, hmarks⟩

/-- The batch leaves a stored vector to its entity: when it writes the memory, it last does so under
the same entity and with an embedding. -/
def IngestBatches.Leaves (b : IngestBatches) (v : VectorRow) : Prop :=
  ∀ item, lastItem b.observations v.memoryId = some item →
    item.2.2.embedding.isEmpty = false ∧ item.2.2.entityId = v.entityId

instance (b : IngestBatches) (v : VectorRow) : Decidable (b.Leaves v) :=
  inferInstanceAs (Decidable (∀ item, item ∈ lastItem b.observations v.memoryId → _))

/-- A neighbour has the vector it is updated by. -/
theorem mem_neighbourVectors {t : Table VectorRow.vectorId} {updates : List (String × List ℚ)}
    {n : NeighbourVector} (h : n ∈ neighbourVectors t updates) :
    ∃ v ∈ t.rows, v.vectorId = n.vectorId ∧ v.entityId = n.entityId := by
  obtain ⟨update, -, hn⟩ := List.mem_filterMap.mp h
  obtain ⟨v, hv, rfl⟩ := Option.map_eq_some_iff.mp hn
  exact ⟨v, List.mem_of_find?_eq_some hv, rfl, rfl⟩

/-- A neighbour has the identifier and the embedding of its update, and the memory of its vector. -/
theorem memoryId_neighbourVectors {t : Table VectorRow.vectorId}
    {updates : List (String × List ℚ)} {n : NeighbourVector} (h : n ∈ neighbourVectors t updates) :
    ∃ update ∈ updates, n.embedding = update.2 ∧
      ∃ v ∈ t.rows, v.vectorId = n.vectorId ∧ v.memoryId = update.1 := by
  obtain ⟨update, hupdate, hn⟩ := List.mem_filterMap.mp h
  obtain ⟨v, hv, rfl⟩ := Option.map_eq_some_iff.mp hn
  have hname := List.find?_some hv
  exact ⟨update, hupdate, rfl, v, List.mem_of_find?_eq_some hv, rfl, of_decide_eq_true hname⟩

/-- A memory with a vector that is updated is a neighbour. -/
theorem exists_neighbourVectors {t : Table VectorRow.vectorId} {updates : List (String × List ℚ)}
    {update : String × List ℚ} (hupdate : update ∈ updates) {v : VectorRow} (hv : v ∈ t.rows)
    (hname : v.memoryId = update.1) :
    ∃ n ∈ neighbourVectors t updates, ∃ w ∈ t.rows, w.vectorId = n.vectorId ∧
      w.memoryId = update.1 := by
  cases hfind : t.rows.find? fun v => v.memoryId = update.1 with
  | none => exact absurd (decide_eq_true hname) (List.find?_eq_none.mp hfind v hv)
  | some w =>
    have hwname := List.find?_some hfind
    refine ⟨⟨update.1, w.vectorId, w.entityId, update.2⟩, List.mem_filterMap.mpr
      ⟨update, hupdate, ?_⟩, w, List.mem_of_find?_eq_some hfind, rfl, of_decide_eq_true hwname⟩
    rw [hfind]
    rfl

/-- Marks do not matter to where the vectors are. -/
theorem Anchored.of_marks {memories memories' : AutoTable MemoryRow.memoryId MemoryRow.rowid}
    {vectors : Table VectorRow.vectorId} (h : Anchored memories vectors)
    (hmarks : memories'.rows.map unmarked = memories.rows.map unmarked) :
    Anchored memories' vectors := by
  intro v hv
  obtain ⟨r, hr, hrowid, hname, hentity⟩ := h v hv
  obtain ⟨r', hr', heq⟩ := List.mem_map.mp (hmarks ▸ List.mem_map_of_mem hr)
  refine ⟨r', hr', ?_⟩
  rw [eq_of_unmarked heq]
  exact ⟨hrowid, hname, hentity⟩

/-- Memories are found alike whatever their marks are. -/
theorem find?_unmarked {t t' : AutoTable MemoryRow.memoryId MemoryRow.rowid}
    (h : t'.rows.map unmarked = t.rows.map unmarked) (x : String) :
    (t'.find? x).map unmarked = (t.find? x).map unmarked := by
  have hfind : ∀ t : AutoTable MemoryRow.memoryId MemoryRow.rowid, (t.find? x).map unmarked =
      (t.rows.map unmarked).find? fun r => r.memoryId = x := by
    intro t
    rw [List.find?_map]
    rfl
  rw [hfind, hfind, h]

/-- A column other than the mark is found alike whatever the marks are. -/
theorem column_of_unmarked {α : Type} {column : MemoryRow → α}
    (hcolumn : ∀ r, column (unmarked r) = column r)
    {t t' : AutoTable MemoryRow.memoryId MemoryRow.rowid}
    (h : t'.rows.map unmarked = t.rows.map unmarked) (x : String) :
    (t'.find? x).map column = (t.find? x).map column := by
  have hmap : ∀ o : Option MemoryRow, o.map column = (o.map unmarked).map column := by
    intro o
    rw [Option.map_map, funext (f := column ∘ unmarked) hcolumn]
  rw [hmap, hmap (t.find? x), find?_unmarked h]

/-- After a commit, such a column of an identifier is that of its last memory in the batch, or the
one from before. -/
theorem column_commitIngest {α : Type} {column : MemoryRow → α}
    {written : UInt64 × String × AgentObservation → α}
    (hcolumn : ∀ r, column (unmarked r) = column r)
    (hwritten : ∀ item rowid, column (memoryRow clock.observations item rowid) = written item)
    (h : S.commitIngest cosineSimilarity order clock b = .ok (S', outcome)) (x : String) :
    (S'.memories.find? x).map column =
      (lastItem b.observations x).elim ((S.memories.find? x).map column) fun item =>
        some (written item) := by
  obtain ⟨S₁, hmemories, -, hmemories', -⟩ := commitIngest_memories h
  have hmarks : S'.memories.rows.map unmarked = S₁.memories.rows.map unmarked := by
    rw [hmemories']
    exact unmarked_foldl_setIndexed fun t _ => unmarked_updateWhere t _ false
  rw [column_of_unmarked hcolumn hmarks, hmemories]
  exact column_insertObservationsTx hwritten S b.observations x

/-- A commit keeps the vectors at their memories. -/
theorem Anchored.commitIngest (hS : Anchored S.memories S.vectorLookup)
    (h : S.commitIngest cosineSimilarity order clock b = .ok (S', outcome)) :
    Anchored S'.memories S'.vectorLookup := by
  obtain ⟨S₁, hmemories, hvectors, hS'memories, hS'vectors⟩ := commitIngest_memories h
  let config : VectorConfig (List ℚ) := ⟨id, 0⟩
  have hwritten : Written config S.memories S.vectorLookup b.observations
      (b.observations.foldl (Tellodb.writeObservation clock.observations)
        (S.memories, S.vectorLookup, [])) := written_foldl hS b.observations
  -- The rows and their vectors are in place once the observations are written.
  have hanchored : Anchored S₁.memories S₁.vectorLookup := by
    rw [hmemories, hvectors]
    exact hwritten.anchored
  rw [hS'memories, hS'vectors]
  show Anchored _ _
  unfold updateNeighbourEmbeddingsTx
  dsimp only
  generalize neighbourVectors S₁.vectorLookup b.neighbourEmbeddingUpdates = applied
  intro v hv
  -- New embeddings and marks leave every place alone.
  have hback : ∃ w ∈ S₁.vectorLookup.rows, w.vectorId = v.vectorId ∧ w.memoryId = v.memoryId ∧
      w.entityId = v.entityId := by
    clear hanchored
    induction applied using List.reverseRecOn generalizing v with
    | nil => exact ⟨v, hv, rfl, rfl, rfl⟩
    | append_singleton applied n ih =>
      rw [List.foldl_append, List.foldl_cons, List.foldl_nil] at hv
      obtain ⟨q, hq, rfl⟩ := List.mem_map.mp hv
      obtain ⟨w, hw, hplace⟩ := ih q hq
      refine ⟨w, hw, ?_⟩
      unfold Assignment.on
      split <;> exact hplace
  have hforward : ∀ r ∈ S₁.memories.rows, ∃ r' ∈ (applied.foldl (fun t n =>
      t.updateWhere (fun r => r.memoryId = n.memoryId) (setIndexed false)) S₁.memories).rows,
      r'.rowid = r.rowid ∧ r'.memoryId = r.memoryId ∧ r'.entityId = r.entityId := by
    clear hv hback
    induction applied using List.reverseRecOn with
    | nil => exact fun r hr => ⟨r, hr, rfl, rfl, rfl⟩
    | append_singleton applied n ih =>
      intro r hr
      obtain ⟨q, hq, hplace⟩ := ih r hr
      rw [List.foldl_append, List.foldl_cons, List.foldl_nil]
      refine ⟨_, List.mem_map.mpr ⟨q, hq, rfl⟩, ?_⟩
      unfold Assignment.on
      split <;> exact hplace
  -- The vector was in place, its row is still there, and the places are the same.
  obtain ⟨w, hw, hwid, hwname, hwentity⟩ := hback
  obtain ⟨r, hr, hrowid, hid, hentity⟩ := hanchored w hw
  obtain ⟨r', hr', hrowid', hid', hentity'⟩ := hforward r hr
  exact ⟨r', hr', hrowid'.trans (hrowid.trans hwid), hid'.trans (hid.trans hwname),
    hentity'.trans (hentity.trans hwentity)⟩

/-- The vectors after a commit, and what it owes to the index, in terms of what it writes. -/
theorem commitIngest_written (config : VectorConfig γ) (hS : Anchored S.memories S.vectorLookup)
    (h : S.commitIngest cosineSimilarity order clock b = .ok (S', outcome)) :
    ∃ s : AutoTable MemoryRow.memoryId MemoryRow.rowid × Table VectorRow.vectorId × List ℕ,
      Written config S.memories S.vectorLookup b.observations s ∧
      (∀ entityId id, storedCode config S'.vectorLookup entityId id =
        (storedCode config s.2.1 entityId id).map fun code =>
          (lastNeighbour (neighbourVectors s.2.1 b.neighbourEmbeddingUpdates) id).elim code
            fun n => config.encode n.embedding) ∧
      outcome.patches config =
        (((b.observations.zip s.2.2).filter fun x => !x.1.2.2.embedding.isEmpty).map fun x =>
          ⟨x.1.2.2.entityId, x.2, some (config.encode x.1.2.2.embedding)⟩) ++
        ((neighbourVectors s.2.1 b.neighbourEmbeddingUpdates).map fun n =>
          ⟨n.entityId, n.vectorId, some (config.encode n.embedding)⟩) ∧
      S'.memories.rows.map unmarked = s.1.rows.map unmarked ∧
      ∀ r ∈ s.1.rows, (∃ item, lastItem b.observations r.memoryId = some item ∧
          r = memoryRow clock.observations item r.rowid) ∨
        (lastItem b.observations r.memoryId = none ∧ r ∈ S.memories.rows) := by
  -- The observations come first, then the neighbours.
  obtain ⟨S₁, hmemories, hvectors, hS'memories, hS'vectors⟩ := commitIngest_memories h
  have houtcome := commitIngest_outcome h
  have hwritten : Written config S.memories S.vectorLookup b.observations
      (b.observations.foldl (writeObservation clock.observations)
        (S.memories, S.vectorLookup, [])) := written_foldl hS b.observations
  refine ⟨_, hwritten, ?_, ?_, ?_, fun r hr => mem_insertObservationsTx hr⟩
  · intro entityId id
    rw [hS'vectors, ← storedCode_neighbours]
    show storedCode config (List.foldl _ S₁.vectorLookup _) entityId id = _
    rw [hvectors, insertObservationsTx_eq]
  · rw [houtcome, insertObservationsTx_eq]
    unfold CommitOutcome.patches commitOutcome
    rw [List.map_append, List.map_map, List.map_map]
    rfl
  · rw [hS'memories]
    unfold updateNeighbourEmbeddingsTx
    dsimp only
    rw [unmarked_foldl_setIndexed fun t n => unmarked_updateWhere t _ false, hmemories,
      insertObservationsTx_eq]

/-- What a commit does to the vectors: each is as it was, or is owed to the index, or was taken from
its entity. -/
theorem storedCode_commitIngest (hS : Anchored S.memories S.vectorLookup)
    (h : S.commitIngest cosineSimilarity order clock b = .ok (S', outcome)) (entityId : String)
    (id : ℕ) :
    storedCode config S'.vectorLookup entityId id = storedCode config S.vectorLookup entityId id ∨
      (∃ p ∈ outcome.patches config, p.part = entityId ∧ p.key = id ∧
        p.Fresh (storedCode config S'.vectorLookup)) ∨
      ∃ v ∈ S.vectorLookup.rows, v.vectorId = id ∧ v.entityId = entityId ∧ ¬ b.Leaves v := by
  obtain ⟨s, hwritten, hcode, hpatches, -⟩ := commitIngest_written config hS h
  -- A vector that is gone belonged to a memory that was written elsewhere.
  have htaken : storedCode config s.2.1 entityId id = none →
      storedCode config S.vectorLookup entityId id = none ∨
        ∃ v ∈ S.vectorLookup.rows, v.vectorId = id ∧ v.entityId = entityId ∧ ¬ b.Leaves v := by
    intro hnone
    cases hwas : storedCode config S.vectorLookup entityId id with
    | none => exact .inl rfl
    | some code =>
      obtain ⟨v, hv, hid, hentity, -⟩ := storedCode_eq_some.mp hwas
      refine .inr ⟨v, hv, hid, hentity, fun hleaves => ?_⟩
      obtain ⟨r, hr, hrowid, hname, -⟩ := hS v hv
      obtain ⟨r', hr', hrowid', hname'⟩ := hwritten.kept r hr
      have hitem := hwritten.lastItem_eq hr'
      rw [hname', hname, hrowid', hrowid, hid] at hitem
      rw [hwritten.code entityId id] at hnone
      cases hlast : lastWrite (b.observations.zip s.2.2) id with
      | none =>
        rw [hlast] at hnone
        exact absurd (hwas.symm.trans hnone) (by simp)
      | some x =>
        rw [hlast] at hnone hitem
        obtain ⟨hsome, hsame⟩ := hleaves x.1 hitem
        rw [Option.elim_some, if_pos ⟨hsome, hsame.trans hentity⟩] at hnone
        exact absurd hnone (by simp)
  rw [hpatches, hcode entityId id]
  -- There was no vector after the observations, or there was one.
  cases hstored : storedCode config s.2.1 entityId id with
  | none =>
    rcases htaken hstored with hnone | htaken
    · exact .inl hnone.symm
    · exact .inr (.inr htaken)
  | some code =>
    have hS'code := hcode entityId id
    rw [hstored, Option.map_some] at hS'code
    cases hneighbour : lastNeighbour (neighbourVectors s.2.1 b.neighbourEmbeddingUpdates) id with
    | some n =>
      -- The neighbour's vector is the one that is stored, so it is under the same entity.
      have hnid := List.find?_some hneighbour
      have hn := List.mem_reverse.mp (List.mem_of_find?_eq_some hneighbour)
      obtain ⟨w, hw, hwid, hwentity⟩ := mem_neighbourVectors hn
      obtain ⟨v, hv, hvid, hventity, -⟩ := storedCode_eq_some.mp hstored
      have hsame : w = v :=
        s.2.1.keyed.eq_of_mem hw hv (hwid.trans ((of_decide_eq_true hnid).trans hvid.symm))
      have hentity : n.entityId = entityId := by rw [← hwentity, hsame, hventity]
      refine .inr (.inl ⟨_, List.mem_append_right _ (List.mem_map.mpr ⟨n, hn, rfl⟩), hentity,
        of_decide_eq_true hnid, ?_⟩)
      show storedCode config S'.vectorLookup n.entityId n.vectorId = _
      rw [hentity, of_decide_eq_true hnid, hS'code, hneighbour]
      rfl
    | none =>
      rw [hneighbour] at hS'code
      have hwrite := hwritten.code entityId id
      rw [hstored] at hwrite
      -- Without a neighbour, the last observation is the one that is stored.
      cases hlast : lastWrite (b.observations.zip s.2.2) id with
      | none =>
        rw [hlast] at hwrite
        exact .inl hwrite
      | some x =>
        rw [hlast, Option.elim_some] at hwrite
        split at hwrite
        · rename_i hplace
          obtain ⟨hsome, hentity⟩ := hplace
          have hxid := List.find?_some hlast
          have hx := List.mem_reverse.mp (List.mem_of_find?_eq_some hlast)
          refine .inr (.inl ⟨_, List.mem_append_left _ (List.mem_map.mpr
            ⟨x, List.mem_filter.mpr ⟨hx, by rw [hsome]; rfl⟩, rfl⟩), hentity,
            of_decide_eq_true hxid, ?_⟩)
          show storedCode config S'.vectorLookup x.1.2.2.entityId x.2 = _
          rw [hentity, of_decide_eq_true hxid, hS'code]
          exact hwrite
        · exact absurd hwrite (by simp)

/-- The batch settles on an entity: a memory that it writes under the entity with an embedding is
not written otherwise later in the batch. -/
def IngestBatches.Settles (b : IngestBatches) (entityId : String) : Prop :=
  ∀ item ∈ b.observations, item.2.2.embedding.isEmpty = false → item.2.2.entityId = entityId →
    ∀ last, lastItem b.observations item.2.1 = some last →
      last.2.2.embedding.isEmpty = false ∧ last.2.2.entityId = entityId

instance IngestBatches.decidableSettles (b : IngestBatches) (entityId : String) :
    Decidable (b.Settles entityId) :=
  inferInstanceAs (Decidable (∀ item ∈ b.observations, _ → _ → ∀ last, last ∈
    lastItem b.observations item.2.1 → _))

/-- An element is still the first one under a stronger condition that it meets. -/
theorem find?_of_imp {α : Type} {p q : α → Bool} {l : List α} {a : α} (h : l.find? p = some a)
    (himp : ∀ b, q b = true → p b = true) (ha : q a = true) : l.find? q = some a := by
  induction l with
  | nil => exact absurd h (by simp)
  | cons b l ih =>
    rw [List.find?_cons] at h ⊢
    by_cases hb : p b = true
    · rw [hb] at h
      rw [Option.some.inj h, ha]
    · rw [Bool.eq_false_iff.mpr hb] at h
      rw [Bool.eq_false_iff.mpr fun hq => hb (himp b hq)]
      exact ih h

/-- A commit owes its patches in an order in which they are in time at once, for entities it settles
on. -/
theorem inTime_commitIngest (hS : Anchored S.memories S.vectorLookup)
    (h : S.commitIngest cosineSimilarity order clock b = .ok (S', outcome))
    {loaded : String → Option (ℕ → Option γ)}
    (hsettles : ∀ entityId, (loaded entityId).isSome → b.Settles entityId) :
    InTime (storedCode config S'.vectorLookup) loaded (outcome.patches config) [] := by
  obtain ⟨s, hwritten, hcode, hpatches, -⟩ := commitIngest_written config hS h
  rw [hpatches]
  intro entityId hloaded id p hlastAt
  refine .inl ?_
  -- A memory that is written under the entity is last written so.
  have hobservation : ∀ x ∈ b.observations.zip s.2.2, x.1.2.2.embedding.isEmpty = false →
      x.1.2.2.entityId = entityId → x.2 = id → ∃ y, lastWrite (b.observations.zip s.2.2) id =
        some y ∧ y.1.2.2.embedding.isEmpty = false ∧ y.1.2.2.entityId = entityId := by
    intro x hx hsome hentity hid
    obtain ⟨r, hr, hrowid, hname⟩ := hwritten.named x hx
    have hitem : x.1 ∈ b.observations := (List.of_mem_zip hx).1
    have hlast := hwritten.lastItem_eq hr
    rw [hrowid, hid, hname] at hlast
    cases hwrite : lastWrite (b.observations.zip s.2.2) id with
    | none =>
      rw [hwrite, Option.map_none] at hlast
      exact absurd rfl (lastItem_eq_none.mp hlast x.1 hitem)
    | some y =>
      rw [hwrite, Option.map_some] at hlast
      exact ⟨y, rfl, hsettles entityId hloaded x.1 hitem hsome hentity y.1 hlast⟩
  -- A neighbour has its vector under the entity that the row is stored under.
  have hplace : ∀ n ∈ neighbourVectors s.2.1 b.neighbourEmbeddingUpdates, n.vectorId = id →
      (storedCode config s.2.1 entityId id).isSome → n.entityId = entityId := by
    intro n hn hid hsome
    obtain ⟨code, hstored⟩ := Option.isSome_iff_exists.mp hsome
    obtain ⟨w, hw, hwid, hwentity⟩ := mem_neighbourVectors hn
    obtain ⟨v, hv, hvid, hventity, -⟩ := storedCode_eq_some.mp hstored
    rw [← hwentity, s.2.1.keyed.eq_of_mem hw hv (hwid.trans (hid.trans hvid.symm)), hventity]
  -- The last patch is that of a neighbour, or else that of an observation.
  obtain ⟨-, hpart, hkey⟩ := mem_of_lastAt hlastAt
  show storedCode config S'.vectorLookup p.part p.key = p.value
  rw [hpart, hkey, hcode entityId id]
  rw [lastAt_append] at hlastAt
  cases hneighbours : lastAt ((neighbourVectors s.2.1 b.neighbourEmbeddingUpdates).map fun n =>
      (⟨n.entityId, n.vectorId, some (config.encode n.embedding)⟩ : Patch String ℕ γ))
      entityId id with
  | some q =>
    rw [hneighbours, Option.some_or] at hlastAt
    obtain ⟨hq, hqpart, hqkey⟩ := mem_of_lastAt hneighbours
    obtain ⟨m, hm, rfl⟩ := List.mem_map.mp hq
    obtain ⟨w, hw, hwid, hwentity⟩ := mem_neighbourVectors hm
    have hstored : storedCode config s.2.1 entityId id = some (config.encode w.embedding) :=
      storedCode_eq_some.mpr ⟨w, hw, hwid.trans hqkey, hwentity.trans hqpart, rfl⟩
    cases hlast : lastNeighbour (neighbourVectors s.2.1 b.neighbourEmbeddingUpdates) id with
    | none =>
      exact absurd (decide_eq_true hqkey) (List.find?_eq_none.mp hlast m (List.mem_reverse.mpr hm))
    | some n =>
      have hnid := List.find?_some hlast
      have hn := List.mem_reverse.mp (List.mem_of_find?_eq_some hlast)
      have hentity := hplace n hn (of_decide_eq_true hnid) (by rw [hstored]; rfl)
      have hfound := find?_of_imp (q := fun n => decide (n.entityId = entityId ∧ n.vectorId = id))
        hlast (fun m hm => decide_eq_true (of_decide_eq_true hm).2)
        (decide_eq_true ⟨hentity, of_decide_eq_true hnid⟩)
      -- The neighbour of the patch is the last one.
      unfold lastAt at hneighbours
      rw [← List.map_reverse, List.find?_map] at hneighbours
      have hsame := (congrArg _ hfound).symm.trans hneighbours
      rw [hstored, ← Option.some.inj hlastAt, ← Option.some.inj hsame]
      rfl
  | none =>
    rw [hneighbours, Option.none_or] at hlastAt
    obtain ⟨hp, -, -⟩ := mem_of_lastAt hlastAt
    obtain ⟨x, hx, rfl⟩ := List.mem_map.mp hp
    obtain ⟨hx, hsome⟩ := List.mem_filter.mp hx
    obtain ⟨y, hwrite, hysome, hyentity⟩ := hobservation x hx (by simpa using hsome) hpart hkey
    have hyid := List.find?_some hwrite
    have hstored : storedCode config s.2.1 entityId id =
        some (config.encode y.1.2.2.embedding) := by
      rw [hwritten.code entityId id, hwrite, Option.elim_some, if_pos ⟨hysome, hyentity⟩]
    -- No neighbour is under the identifier, since it would be under the entity as well.
    have hnone : lastNeighbour (neighbourVectors s.2.1 b.neighbourEmbeddingUpdates) id = none := by
      refine List.find?_eq_none.mpr fun n hn hid => ?_
      have hn := List.mem_reverse.mp hn
      have hentity := hplace n hn (of_decide_eq_true hid) (by rw [hstored]; rfl)
      exact List.find?_eq_none.mp hneighbours _ (List.mem_reverse.mpr
        (List.mem_map.mpr ⟨n, hn, rfl⟩)) (decide_eq_true ⟨hentity, of_decide_eq_true hid⟩)
    have hfound := find?_of_imp (q := fun y => decide ((!y.1.2.2.embedding.isEmpty) = true ∧
        decide (y.1.2.2.entityId = entityId ∧ y.2 = id) = true)) hwrite
      (fun z hz => decide_eq_true (of_decide_eq_true (of_decide_eq_true hz).2).2)
      (decide_eq_true ⟨by rw [hysome]; rfl, decide_eq_true ⟨hyentity, of_decide_eq_true hyid⟩⟩)
    unfold lastAt at hlastAt
    rw [← List.map_reverse, List.find?_map, ← List.filter_reverse, List.find?_filter] at hlastAt
    have hsame := (congrArg (Option.map _) hfound).symm.trans hlastAt
    rw [hstored, hnone, ← Option.some.inj hsame]
    rfl

end

/-! ## Deletions -/

section

variable {γ : Type} {config : VectorConfig γ} {order : HashOrder} {now : UInt64} {S : TenantStore}
  {memoryId reason : String}

/-- The vectors after a deletion: those of other memories. -/
theorem mem_vectorLookup_deleteObservation {v : VectorRow} :
    v ∈ (S.deleteObservation order now memoryId reason).1.vectorLookup.rows ↔
      v ∈ S.vectorLookup.rows ∧ v.memoryId ≠ memoryId ∧ v.memoryId ∉ S.chunkIds memoryId := by
  have hchunks : ∀ (chunkIds : List String) (S : TenantStore),
      v ∈ (chunkIds.foldl deleteChunk S).vectorLookup.rows ↔
        v ∈ S.vectorLookup.rows ∧ v.memoryId ∉ chunkIds := by
    intro chunkIds
    induction chunkIds with
    | nil => simp
    | cons chunkId chunkIds ih =>
      intro S
      rw [List.foldl_cons, ih]
      unfold deleteChunk
      simp [and_assoc]
  have hrows : (S.deleteObservation order now memoryId reason).1.vectorLookup =
      ((S.chunkIds memoryId).foldl deleteChunk
        ((order.iterate (S.affectedRouters memoryId)).foldl rebuildRouterAfterDelete
          (deleteRecords now S memoryId reason))).vectorLookup := rfl
  obtain ⟨docs, sessionRouter, ftsSessionRouter, hrouters⟩ := foldl_rebuildRouter_frame
    (order.iterate (S.affectedRouters memoryId)) (deleteRecords now S memoryId reason)
  rw [hrows, hchunks, hrouters]
  unfold deleteRecords
  simp [and_assoc]

/-- A deletion keeps the vectors at their memories. -/
theorem Anchored.deleteObservation (hS : Anchored S.memories S.vectorLookup) :
    Anchored (S.deleteObservation order now memoryId reason).1.memories
      (S.deleteObservation order now memoryId reason).1.vectorLookup := by
  intro v hv
  obtain ⟨hv, hself, hchunk⟩ := mem_vectorLookup_deleteObservation.mp hv
  obtain ⟨r, hr, hrowid, hid, hentity⟩ := hS v hv
  refine ⟨r, (mem_memories_deleteObservation _ _ _ _ _).mpr ⟨hr, ?_⟩, hrowid, hid, hentity⟩
  unfold isOf
  rw [Bool.or_eq_false_iff, decide_eq_false_iff_not, Bool.eq_false_iff, hid]
  refine ⟨hself, fun hprefix => hchunk ?_⟩
  exact (mem_chunkIds _ _).mpr ⟨r, hr, hid, hprefix⟩

/-- What a deletion does to the vectors: each is as it was, or is removed and owed to the index, or
is that of a derived memory under another entity. -/
theorem storedCode_deleteObservation (order : HashOrder) (now : UInt64) (memoryId reason : String)
    (hS : Anchored S.memories S.vectorLookup) (entityId : String)
    (id : ℕ) :
    let deletion := S.deleteObservation order now memoryId reason
    storedCode config deletion.1.vectorLookup entityId id =
        storedCode config S.vectorLookup entityId id ∨
      (∃ p ∈ deletion.2.patches γ, p.part = entityId ∧ p.key = id ∧
        p.Fresh (storedCode config deletion.1.vectorLookup)) ∨
      ∃ v ∈ S.vectorLookup.rows, v.vectorId = id ∧ v.entityId = entityId ∧
        sqlHasPrefix (derivedPrefix memoryId) v.memoryId = true ∧
          v.entityId ≠ deletion.2.entityId := by
  intro deletion
  have hkept : ∀ v : VectorRow, v ∈ deletion.1.vectorLookup.rows ↔
      v ∈ S.vectorLookup.rows ∧ v.memoryId ≠ memoryId ∧ v.memoryId ∉ S.chunkIds memoryId :=
    fun v => mem_vectorLookup_deleteObservation
  -- The vector is deleted, or it is left as it was.
  by_cases hgone : ∃ v ∈ S.vectorLookup.rows, v.vectorId = id ∧ v.entityId = entityId ∧
      (v.memoryId = memoryId ∨ v.memoryId ∈ S.chunkIds memoryId)
  · obtain ⟨v, hv, hid, hentity, hof⟩ := hgone
    have hnone : storedCode config deletion.1.vectorLookup entityId id = none := by
      refine storedCode_eq_none.mpr fun w hw hwid => ?_
      obtain ⟨hw, hself, hchunk⟩ := (hkept w).mp hw
      have hsame : w = v := S.vectorLookup.keyed.eq_of_mem hw hv (hwid.trans hid.symm)
      rw [hsame] at hself hchunk
      rcases hof with h | h
      · exact absurd h hself
      · exact absurd h hchunk
    -- The index is told of the vector under the entity of the memory.
    have howed : id ∈ deletion.2.vectorIds → deletion.2.entityId = entityId →
        ∃ p ∈ deletion.2.patches γ, p.part = entityId ∧ p.key = id ∧
          p.Fresh (storedCode config deletion.1.vectorLookup) := by
      intro hmem hplace
      refine ⟨_, List.mem_map.mpr ⟨id, hmem, rfl⟩, hplace, rfl, ?_⟩
      show storedCode config deletion.1.vectorLookup deletion.2.entityId id = none
      rw [hplace]
      exact hnone
    obtain ⟨r, hr, hrowid, hname, hrentity⟩ := hS v hv
    rcases hof with hself | hchunk
    · -- The vector of the memory itself is under the memory's entity.
      refine .inr (.inl (howed ?_ ?_))
      · refine List.mem_append_left _ (Option.mem_toList.mpr ?_)
        show (S.vectorLookup.rows.find? fun v => v.memoryId = memoryId).map VectorRow.vectorId =
          some id
        cases hfind : S.vectorLookup.rows.find? fun v => v.memoryId = memoryId with
        | none => exact absurd (decide_eq_true hself) (List.find?_eq_none.mp hfind v hv)
        | some w =>
          have hwname := List.find?_some hfind
          obtain ⟨q, hq, hqrowid, hqname, -⟩ := hS w (List.mem_of_find?_eq_some hfind)
          have hsame : q = r := S.memories.keyed.eq_of_mem hq hr
            (hqname.trans ((of_decide_eq_true hwname).trans (hself.symm.trans hname.symm)))
          rw [Option.map_some, ← hqrowid, hsame, hrowid, hid]
      · show ((S.memories.find? memoryId).map MemoryRow.entityId).getD "" = entityId
        have hfind : S.memories.find? memoryId = some r :=
          Table.find?_eq_some.mpr ⟨hr, hname.trans hself⟩
        rw [hfind]
        exact hrentity.trans hentity
    -- A chunk can be under another entity than its memory.
    · obtain ⟨q, hq, hqname, hprefix⟩ := (mem_chunkIds S memoryId).mp hchunk
      by_cases hplace : deletion.2.entityId = entityId
      · refine .inr (.inl (howed (List.mem_append_right _ ?_) hplace))
        show id ∈ (S.chunksOf memoryId).filterMap Prod.snd
        refine List.mem_filterMap.mpr ⟨(q.memoryId, some v.vectorId), ?_, congrArg some hid⟩
        unfold TenantStore.chunksOf
        refine List.mem_flatMap.mpr ⟨q, List.mem_filter.mpr ⟨hq, hqname ▸ hprefix⟩, ?_⟩
        have hvec : v ∈ S.vectorLookup.rows.filter fun v => v.memoryId = q.memoryId :=
          List.mem_filter.mpr ⟨hv, decide_eq_true hqname.symm⟩
        cases hvectors : S.vectorLookup.rows.filter fun v => v.memoryId = q.memoryId with
        | nil => exact absurd (hvectors ▸ hvec) List.not_mem_nil
        | cons w vectors =>
          rw [hvectors] at hvec
          exact List.mem_map.mpr ⟨v, hvec, rfl⟩
      · refine .inr (.inr ⟨v, hv, hid, hentity, hprefix, fun h => hplace ?_⟩)
        rw [← h, hentity]
  · refine .inl (Option.ext fun code => ?_)
    rw [storedCode_eq_some, storedCode_eq_some]
    constructor
    · rintro ⟨v, hv, hplace⟩
      exact ⟨v, ((hkept v).mp hv).1, hplace⟩
    · rintro ⟨v, hv, hid, hentity, hcode⟩
      refine ⟨v, (hkept v).mpr ⟨hv, ?_⟩, hid, hentity, hcode⟩
      exact not_or.mp fun hof => hgone ⟨v, hv, hid, hentity, hof⟩

/-- What a deletion is to remove is stored no more. -/
theorem storedCode_removed {id : ℕ} (entityId : String)
    (hid : id ∈ (S.deleteObservation order now memoryId reason).2.vectorIds) :
    storedCode config (S.deleteObservation order now memoryId reason).1.vectorLookup entityId id =
      none := by
  -- The identifier is that of the memory's vector or of a chunk's.
  have hgone : ∃ v ∈ S.vectorLookup.rows, v.vectorId = id ∧
      (v.memoryId = memoryId ∨ v.memoryId ∈ S.chunkIds memoryId) := by
    rcases List.mem_append.mp hid with hself | hchunk
    · obtain ⟨v, hv, rfl⟩ := Option.map_eq_some_iff.mp (Option.mem_toList.mp hself)
      have hname := List.find?_some hv
      exact ⟨v, List.mem_of_find?_eq_some hv, rfl, .inl (of_decide_eq_true hname)⟩
    · obtain ⟨chunk, hmem, hvector⟩ := List.mem_filterMap.mp hchunk
      obtain ⟨r, hr, hchunk⟩ := List.mem_flatMap.mp hmem
      obtain ⟨hr, hprefix⟩ := List.mem_filter.mp hr
      cases hvectors : S.vectorLookup.rows.filter fun v => v.memoryId = r.memoryId with
      | nil =>
        rw [hvectors] at hchunk
        rw [List.mem_singleton.mp hchunk] at hvector
        exact absurd hvector (by simp)
      | cons w vectors =>
        rw [hvectors] at hchunk
        obtain ⟨v, hv, rfl⟩ := List.mem_map.mp hchunk
        rw [← hvectors] at hv
        obtain ⟨hv, hname⟩ := List.mem_filter.mp hv
        refine ⟨v, hv, Option.some.inj hvector, .inr ((mem_chunkIds S memoryId).mpr ?_)⟩
        exact ⟨r, hr, (of_decide_eq_true hname).symm, of_decide_eq_true hname ▸ hprefix⟩
  obtain ⟨v, hv, hvid, hof⟩ := hgone
  refine storedCode_eq_none.mpr fun w hw hwid => ?_
  obtain ⟨hw, hself, hchunk⟩ := mem_vectorLookup_deleteObservation.mp hw
  rw [S.vectorLookup.keyed.eq_of_mem hw hv (hwid.trans hvid.symm)] at hself hchunk
  exact absurd hof (not_or.mpr ⟨hself, hchunk⟩)

end

end Tellodb
