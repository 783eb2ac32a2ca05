import Tellodb.Facts.Turns
import Tellodb.Routers.Text

/-!
# What a commit leaves to be read

Each table of a commit on its own: under which key a row of a record is stored, and what that row
says. A memory, a card or a metric is stored as it is unless the batch has a later one under its
key, and a router gets everything that the fragments of its session list. The edges of the cards and
the facts are written twice: the registrations replace those of the facts that they place and of the
versions that these replace, and at the end each card and fact adds its own where there is none.
`commitIngest_edges` says what is found under an edge's identifier then. -/

namespace Tellodb

open Relational FactTables FactVersion

/-! ## Memories -/

section

variable {recordedAt : UInt64} {item other : UInt64 × String × AgentObservation}

/-- The row of a memory of a batch. -/
def memoryRow (recordedAt : UInt64) (item : UInt64 × String × AgentObservation) (rowid : ℕ) :
    MemoryRow :=
  (newMemory item.1 recordedAt item.2.1 item.2.2).withRowid rowid

/-- Two rows of the memories with one row identifier are one row. -/
theorem eq_of_rowid {t : AutoTable MemoryRow.memoryId MemoryRow.rowid} {r q : MemoryRow}
    (hr : r ∈ t.rows) (hq : q ∈ t.rows) (h : r.rowid = q.rowid) : r = q :=
  Keyed.eq_of_mem t.keyed_rowid hr hq h

/-- A memory that is written is stored. -/
theorem exists_upsertMemory (t : AutoTable MemoryRow.memoryId MemoryRow.rowid) :
    ∃ rowid, memoryRow recordedAt item rowid ∈ (upsertMemory recordedAt t item).1.rows := by
  obtain ⟨timestamp, memoryId, o⟩ := item
  unfold upsertMemory
  cases hfind : t.find? memoryId with
  | some r =>
    obtain ⟨hr, hid⟩ := Table.find?_eq_some.mp hfind
    refine ⟨r.rowid, ?_⟩
    simp only [hfind, AutoTable.updateWhere_rows, List.mem_map]
    refine ⟨r, hr, ?_⟩
    simp [Assignment.on, setObservation, memoryRow, newMemory, hid]
  | none =>
    refine ⟨t.sequence + 1, ?_⟩
    simp only [hfind]
    rw [AutoTable.insert_rows fun q hq => Table.find?_eq_none.mp hfind q hq]
    exact List.mem_append_right _ List.mem_cons_self

/-- A memory stays stored when another one is written. -/
theorem mem_upsertMemory {t : AutoTable MemoryRow.memoryId MemoryRow.rowid} {r : MemoryRow}
    (hr : r ∈ t.rows) (h : other.2.1 ≠ r.memoryId) :
    r ∈ (upsertMemory recordedAt t other).1.rows := by
  obtain ⟨timestamp, memoryId, o⟩ := other
  unfold upsertMemory
  cases hfind : t.find? memoryId with
  | some q =>
    obtain ⟨hq, hid⟩ := Table.find?_eq_some.mp hfind
    simp only [hfind, AutoTable.updateWhere_rows, List.mem_map]
    refine ⟨r, hr, if_neg ?_⟩
    intro hrowid
    rw [eq_of_rowid hr hq (of_decide_eq_true hrowid), hid] at h
    exact h rfl
  | none =>
    simp only [hfind]
    rw [AutoTable.insert_rows fun q hq => Table.find?_eq_none.mp hfind q hq]
    exact List.mem_append_left _ hr

/-- The last memory of a batch under its identifier is stored as it is. -/
theorem exists_insertObservationsTx (recordedAt : UInt64) (S : TenantStore)
    (before : List (UInt64 × String × AgentObservation))
    {after : List (UInt64 × String × AgentObservation)}
    (hlast : ∀ later ∈ after, later.2.1 ≠ item.2.1) :
    ∃ rowid, memoryRow recordedAt item rowid ∈
      (insertObservationsTx recordedAt S (before ++ item :: after)).1.memories.rows := by
  show ∃ rowid, _ ∈ (List.foldl _ (S.memories, S.vectorLookup, []) _).1.rows
  refine foldl_of_split (P := fun s : AutoTable MemoryRow.memoryId MemoryRow.rowid ×
    Table VectorRow.vectorId × List ℕ => ∃ rowid, memoryRow recordedAt item rowid ∈ s.1.rows)
    _ ?_ ?_
  · exact fun s => exists_upsertMemory s.1
  · rintro later hlater s ⟨rowid, hrow⟩
    exact ⟨rowid, mem_upsertMemory hrow (hlast later hlater)⟩

/-- A memory that waits to be indexed stays as it is when neighbours are to be indexed again. -/
theorem mem_updateNeighbourEmbeddingsTx {S : TenantStore} {r : MemoryRow}
    (hr : r ∈ S.memories.rows) (hindexed : r.indexed = false)
    (updates : List (String × List ℚ)) :
    r ∈ (updateNeighbourEmbeddingsTx S updates).1.memories.rows := by
  show r ∈ (List.foldl _ S.memories (neighbourVectors S.vectorLookup updates)).rows
  generalize neighbourVectors S.vectorLookup updates = applied
  generalize S.memories = t at hr
  induction applied generalizing t with
  | nil => exact hr
  | cons n applied ih =>
    refine ih _ (List.mem_map.mpr ⟨r, hr, ?_⟩)
    unfold Assignment.on
    split
    · show { r with indexed := false } = r
      rw [← hindexed]
    · rfl

end

/-! ## Cards -/

/-- The last card of a batch under its identifier is stored. -/
theorem mem_insertCardsTx (S : TenantStore) (before : List MemoryCard) {after : List MemoryCard}
    {card : MemoryCard}
    (hlast : ∀ later ∈ after, later.cardId ≠ card.cardId) :
    card ∈ (insertCardsTx S (before ++ card :: after)).memoryCards.rows := by
  show card ∈ (List.foldl Table.insertOrReplace S.memoryCards _).rows
  refine foldl_of_split (P := fun t : Table MemoryCard.cardId => card ∈ t.rows) _ ?_ ?_
  · exact fun t => Table.mem_insertOrReplace.mpr (.inr rfl)
  · exact fun later hlater t ht =>
      Table.mem_insertOrReplace.mpr (.inl ⟨ht, Ne.symm (hlast later hlater)⟩)

/-- A card with another flag and time. -/
def MemoryCard.withLatest (card : MemoryCard) (isLatest : Bool) (updatedAtMs : UInt64) :
    MemoryCard :=
  { card with isLatest := isLatest, updatedAtMs := updatedAtMs }

/-- Changes of the flag leave the rest of a card alone. -/
theorem exists_updateCardLatestTx {S : TenantStore} {card : MemoryCard}
    (hcard : card ∈ S.memoryCards.rows) (updates : List (String × Bool × UInt64)) :
    ∃ isLatest updatedAtMs,
      card.withLatest isLatest updatedAtMs ∈ (updateCardLatestTx S updates).memoryCards.rows := by
  have hkept : ∀ (updates : List (String × Bool × UInt64)) (t : Table MemoryCard.cardId),
      (∃ isLatest updatedAtMs, card.withLatest isLatest updatedAtMs ∈ t.rows) →
        ∃ isLatest updatedAtMs, card.withLatest isLatest updatedAtMs ∈ (updates.foldl
          (fun t update => t.updateWhere (fun card => card.cardId = update.1)
            (setLatest update.2.1 update.2.2)) t).rows := by
    intro updates
    induction updates with
    | nil => exact fun _ ht => ht
    | cons update updates ih =>
      rintro t ⟨isLatest, updatedAtMs, hrow⟩
      refine ih _ ?_
      by_cases hid : card.cardId = update.1
      · refine ⟨update.2.1, update.2.2, List.mem_map.mpr ⟨_, hrow, ?_⟩⟩
        exact if_pos (decide_eq_true hid)
      · refine ⟨isLatest, updatedAtMs, List.mem_map.mpr ⟨_, hrow, ?_⟩⟩
        exact if_neg fun hsame => hid (of_decide_eq_true hsame)
  exact hkept updates S.memoryCards ⟨card.isLatest, card.updatedAtMs, hcard⟩

/-! ## Edges -/

/-- The edge that a card or a fact states. -/
structure StatedEdge where
  memoryId : String
  subject : String
  predicate : String
  object : String
  deriving DecidableEq

/-- The identifier of a stated edge. The object is not part of it. -/
def StatedEdge.edgeId (edge : StatedEdge) : String :=
  factEdgeId edge.memoryId edge.subject edge.predicate

/-- The edge of a card. -/
def MemoryCard.statedEdge (card : MemoryCard) : StatedEdge :=
  ⟨card.sourceMemoryId, card.subject, card.predicate, card.object⟩

/-- The edge of a fact. -/
def IngestFactRegistration.statedEdge (fact : IngestFactRegistration) : StatedEdge :=
  ⟨fact.memoryId, fact.subject, fact.predicate, fact.object⟩

/-- What a stored edge states. -/
def EdgeRow.stated (e : EdgeRow) : StatedEdge :=
  ⟨e.memoryId, e.source, e.edgeType, e.target⟩

/-- What an edge to be written states. -/
def IngestGraphEdge.stated (entry : IngestGraphEdge) : StatedEdge :=
  ⟨entry.memoryId, entry.subject, entry.predicate, entry.object⟩

/-- The parts that the edges of facts are not written without. -/
def StatedEdge.isWritten (edge : StatedEdge) : Bool :=
  !(trim edge.subject.toList).isEmpty && !(trim edge.object.toList).isEmpty

/-- The parts that the edges of cards and facts are not added without. -/
def StatedEdge.isComplete (edge : StatedEdge) : Bool :=
  !edge.subject.isEmpty && !edge.predicate.isEmpty && !edge.object.isEmpty

/-- The edges that the cards and the facts of a commit state. -/
def TenantStore.statedEdges (cosineSimilarity : List ℚ → List ℚ → ℚ) (S : TenantStore)
    (b : IngestBatches) : List StatedEdge :=
  (b.memoryCardBatch.map MemoryCard.statedEdge ++
    (S.commitFacts cosineSimilarity b).map IngestFactRegistration.statedEdge).filter
      StatedEdge.isComplete

/-- The edges that the registration of a fact writes at its turn. -/
def FactTables.writtenEdges (recordedAt : UInt64) (turn : FactTables × IngestFactRegistration) :
    List StatedEdge :=
  ((graphEntries (turn.1.ingestStatus recordedAt turn.2) turn.2).map
    IngestGraphEdge.stated).filter StatedEdge.isWritten

/-- The edge that the registrations of a commit write last under an identifier. -/
def TenantStore.lastWritten (cosineSimilarity : List ℚ → List ℚ → ℚ) (order : HashOrder)
    (clock : IngestClock) (S : TenantStore) (b : IngestBatches) (edgeId : String) :
    Option StatedEdge :=
  (((S.facts.batchTurns order clock.facts (S.commitFacts cosineSimilarity b)).flatMap
    (writtenEdges clock.facts)).filter fun edge => edge.edgeId = edgeId).getLast?

/-- What is found under an identifier after edges of facts have been written. -/
theorem stated_insertGraphEntriesTx (t : Table EdgeRow.edgeId) (entries : List IngestGraphEdge)
    (edgeId : String) : ((insertGraphEntriesTx t entries).find? edgeId).map EdgeRow.stated =
      (((entries.map IngestGraphEdge.stated).filter StatedEdge.isWritten).filter
        fun edge => edge.edgeId = edgeId).getLast?.or ((t.find? edgeId).map EdgeRow.stated) := by
  have hrows : insertGraphEntriesTx t entries = ((entries.filter
      (StatedEdge.isWritten ∘ IngestGraphEdge.stated)).map IngestGraphEdge.row).foldl
        (fun t row => t.insertOrReplace row) t := by
    rw [List.foldl_map]
    rfl
  rw [hrows, Table.find?_foldl_insertOrReplace_last, Option.map_or, ← List.getLast?_map,
    List.filter_map, List.map_map, List.filter_map, List.filter_map]
  rfl

/-- What is found under an identifier after the edges of cards and facts have been added. -/
theorem stated_insertCardEdgesTx (S R : TenantStore) (cosineSimilarity : List ℚ → List ℚ → ℚ)
    (b : IngestBatches) (edgeId : String) :
    ((insertCardEdgesTx R b.memoryCardBatch (S.commitFacts cosineSimilarity b)).edges.find?
        edgeId).map EdgeRow.stated =
      ((R.edges.find? edgeId).map EdgeRow.stated).or
        ((S.statedEdges cosineSimilarity b).find? fun edge => edge.edgeId = edgeId) := by
  have hfind := fun rows => Table.find?_foldl_insertOrIgnore_first rows R.edges edgeId
  unfold insertCardEdgesTx TenantStore.statedEdges
  dsimp only
  rw [hfind, Option.map_or]
  simp only [List.filter_append, List.find?_append, List.filter_map, List.find?_map, Option.map_or,
    Option.map_map]
  rfl

/-- What a status writes to the graph does not depend on the pointer of a stale entry. -/
theorem stated_graphEntries (status : FactVersionStatus) (fact : IngestFactRegistration) :
    (graphEntries status.unresolved fact).map IngestGraphEdge.stated =
      (graphEntries status fact).map IngestGraphEdge.stated := by
  cases status <;> rfl

/-- The facts of one entity write the edges of their turns. -/
theorem stated_graphEntries_zip {recordedAt : UInt64}
    {batch : List (FactTables × IngestFactRegistration)} {statuses : List FactVersionStatus}
    (h : statuses.map FactVersionStatus.unresolved =
      (batch.map fun turn => turn.1.ingestStatus recordedAt turn.2).map
        FactVersionStatus.unresolved) :
    (((statuses.zip (batch.map Prod.snd)).flatMap fun x => graphEntries x.1 x.2).map
        IngestGraphEdge.stated).filter StatedEdge.isWritten =
      batch.flatMap (writtenEdges recordedAt) := by
  induction batch generalizing statuses with
  | nil => simp
  | cons turn batch ih =>
    cases statuses with
    | nil => exact absurd h (by simp)
    | cons status statuses =>
      rw [List.map_cons, List.map_cons, List.map_cons, List.cons.injEq] at h
      rw [List.map_cons, List.zip_cons_cons, List.flatMap_cons, List.map_append,
        List.filter_append, ih h.2, List.flatMap_cons, ← stated_graphEntries, h.1,
        stated_graphEntries]
      rfl

/-- The registrations of a batch write the edges of their turns. -/
theorem registerFactsTx_edges {order : HashOrder} {recordedAt : UInt64} {S R : TenantStore}
    {facts : List IngestFactRegistration} {updates : List (String × Bool × UInt64)}
    (h : registerFactsTx order recordedAt S facts = .ok (R, updates)) :
    ∃ entries, R.edges = insertGraphEntriesTx S.edges entries ∧
      (entries.map IngestGraphEdge.stated).filter StatedEdge.isWritten =
        (S.facts.batchTurns order recordedAt facts).flatMap (writtenEdges recordedAt) := by
  -- The loop over the entities, from any tables and any entries before.
  have hloop : ∀ (groups : List (String × List IngestFactRegistration))
      (s s' : FactTables × List (FactVersionStatus × IngestFactRegistration)),
      (∀ group ∈ groups, ∀ fact ∈ group.2, fact.entityId = group.1) →
      groups.foldlM (registerGroup recordedAt) s = .ok s' →
        ∃ new, s'.2 = s.2 ++ new ∧
          ((new.flatMap fun x => graphEntries x.1 x.2).map IngestGraphEdge.stated).filter
            StatedEdge.isWritten =
              ((turns (registeredGroup recordedAt) s.1 groups).flatMap fun turn =>
                turn.1.turnsOf recordedAt turn.2.2).flatMap (writtenEdges recordedAt) := by
    intro groups
    induction groups with
    | nil =>
      intro s s' _ hrun
      obtain rfl : s = s' := Except.ok.inj hrun
      exact ⟨[], by simp, by simp [turns]⟩
    | cons group groups ih =>
      intro s s' hgroups hrun
      rw [List.foldlM_cons] at hrun
      obtain ⟨s₁, hfirst, hrun⟩ := exists_of_bind hrun
      obtain ⟨⟨T₁, statuses⟩, htx, hfirst⟩ := exists_of_bind hfirst
      obtain rfl := Except.ok.inj hfirst
      obtain ⟨new, hnew, hrest⟩ := ih _ _ (fun g hg => hgroups g (List.mem_cons_of_mem _ hg)) hrun
      -- The tables of the first group are those that the others start from.
      have hT₁ : s.1.registeredGroup recordedAt group = T₁ := by
        unfold registeredGroup registerBatch
        rw [htx]
      have hgroup := stated_graphEntries_zip
        (registerFactVersionsTx_turns (hgroups group List.mem_cons_self) htx)
      unfold turnsOf at hgroup
      rw [map_snd_turns] at hgroup
      refine ⟨statuses.zip group.2 ++ new, by rw [hnew, List.append_assoc], ?_⟩
      rw [List.flatMap_append, List.map_append, List.filter_append, hgroup, hrest, turns, hT₁,
        List.flatMap_cons, List.flatMap_append]
      rfl
  -- The entries start with none, so those that are new are all.
  obtain ⟨⟨T, outcomes⟩, hgroups, h⟩ := exists_of_bind h
  obtain rfl : _ = R := (Prod.mk.inj (Except.ok.inj h)).1
  obtain ⟨new, hnew, hedges⟩ := hloop _ (S.facts, []) (T, outcomes)
    (fun _ hgroup _ hfact => entityId_of_mem_group hgroup hfact) hgroups
  have hnew : outcomes = new := hnew
  exact ⟨_, rfl, hnew ▸ hedges⟩

/-- What is found under an edge's identifier after a commit: the edge that the registrations wrote
last, else the one that was stored, else the first one that a card or a fact states. -/
theorem commitIngest_edges {cosineSimilarity : List ℚ → List ℚ → ℚ} {order : HashOrder}
    {clock : IngestClock} {S S' : TenantStore} {b : IngestBatches} {outcome : CommitOutcome}
    (h : S.commitIngest cosineSimilarity order clock b = .ok (S', outcome)) (edgeId : String) :
    (S'.edges.find? edgeId).map EdgeRow.stated =
      ((S.lastWritten cosineSimilarity order clock b edgeId).or
        ((S.edges.find? edgeId).map EdgeRow.stated)).or
          ((S.statedEdges cosineSimilarity b).find? fun edge => edge.edgeId = edgeId) := by
  obtain ⟨t, R, updates, hregister, rfl⟩ := commitIngest_inv h
  obtain ⟨entries, hedges, hwritten⟩ := registerFactsTx_edges hregister
  rw [stated_insertCardEdgesTx]
  show ((R.edges.find? edgeId).map EdgeRow.stated).or _ = _
  rw [hedges, stated_insertGraphEntriesTx, hwritten]
  rfl

/-! ## Metrics -/

/-- Metrics that are inserted without error come after those that are there. -/
theorem rows_foldlM_insertMetric {rows : List MetricRow} {t t' : Table MetricRow.primaryKey}
    (h : rows.foldlM insertMetric t = .ok t') : t'.rows = t.rows ++ rows := by
  induction rows generalizing t with
  | nil =>
    obtain rfl : t = t' := Except.ok.inj h
    exact (List.append_nil _).symm
  | cons row rows ih =>
    rw [List.foldlM_cons] at h
    obtain ⟨t₁, hinsert, h⟩ := exists_of_bind h
    rw [ih h]
    unfold insertMetric at hinsert
    cases hfind : t.find? row.primaryKey with
    | some other => simp [hfind] at hinsert
    | none =>
      simp only [hfind, Except.ok.injEq] at hinsert
      have hrows := Table.insertOrIgnore_rows (Table.find?_eq_none.mp hfind)
      rw [hinsert] at hrows
      rw [hrows, List.append_assoc, List.singleton_append]

/-! ## Routers -/

/-- A router has everything that a fragment lists. -/
structure SessionRouterRecord.Includes (record fragment : SessionRouterRecord) : Prop where
  canonicalFacts : fragment.canonicalFacts ⊆ record.canonicalFacts
  events : fragment.events ⊆ record.events
  sourceMemoryIds : fragment.sourceMemoryIds ⊆ record.sourceMemoryIds
  persons : fragment.persons ⊆ record.persons
  speakers : fragment.speakers ⊆ record.speakers
  salientTerms : fragment.salientTerms ⊆ record.salientTerms
  objects : fragment.objects ⊆ record.objects
  places : fragment.places ⊆ record.places
  activities : fragment.activities ⊆ record.activities
  preferenceSignals : fragment.preferenceSignals ⊆ record.preferenceSignals

/-- A merged list has the items of both. -/
theorem mem_dedupeAppend {base extra : List String} {item : String} :
    item ∈ dedupeAppend base extra ↔ item ∈ base ∨ item ∈ extra := by
  unfold dedupeAppend
  induction extra generalizing base with
  | nil => simp
  | cons first extra ih =>
    rw [List.foldl_cons, ih, List.mem_cons]
    split
    · rename_i hfirst
      constructor
      · exact Or.imp_right .inr
      · rintro (h | rfl | h)
        · exact .inl h
        · exact .inl hfirst
        · exact .inr h
    · rw [List.mem_append, List.mem_singleton, or_assoc]

/-- A merge keeps what the router had and adds what the fragment lists. -/
theorem includes_mergeRouterRecords (existing incoming : SessionRouterRecord) :
    (∀ fragment, existing.Includes fragment →
      (mergeRouterRecords existing incoming).Includes fragment) ∧
    (mergeRouterRecords existing incoming).Includes incoming := by
  have hleft : ∀ {base l : List String} (extra : List String), l ⊆ base →
      l ⊆ dedupeAppend base extra :=
    fun extra h item hitem => mem_dedupeAppend.mpr (.inl (h hitem))
  have hright : ∀ base extra : List String, extra ⊆ dedupeAppend base extra :=
    fun base extra item h => mem_dedupeAppend.mpr (.inr h)
  constructor
  · intro fragment h
    exact ⟨hleft _ h.canonicalFacts, hleft _ h.events, hleft _ h.sourceMemoryIds,
      hleft _ h.persons, hleft _ h.speakers, hleft _ h.salientTerms, hleft _ h.objects,
      hleft _ h.places, hleft _ h.activities, hleft _ h.preferenceSignals⟩
  · exact ⟨hright _ _, hright _ _, hright _ _, hright _ _, hright _ _, hright _ _, hright _ _,
      hright _ _, hright _ _, hright _ _⟩

/-- The stored routers are stored under their sessions. -/
def RoutersKeyed (t : Table SessionRouterRow.primaryKey) : Prop :=
  ∀ r ∈ t.rows, r.record.session = r.primaryKey

/-- The routers that a batch merges, each entered under its session once. -/
structure MergedRouters.Keyed (merged : MergedRouters) : Prop where
  nodup : (merged.map Prod.fst).Nodup
  session : ∀ entry ∈ merged, entry.2.session = entry.1

/-- A session is entered once, after those that were there. -/
theorem MergedRouters.map_fst_put (merged : MergedRouters) (key : String × String)
    (record : SessionRouterRecord) : (merged.put key record).map Prod.fst =
      if key ∈ merged.map Prod.fst then merged.map Prod.fst else merged.map Prod.fst ++ [key] := by
  have hany : (merged.any fun entry => decide (entry.1 = key)) = true ↔
      key ∈ merged.map Prod.fst := by
    simp [List.any_eq_true]
  unfold MergedRouters.put
  by_cases hkey : key ∈ merged.map Prod.fst
  · rw [if_pos hkey, if_pos (hany.mpr hkey), List.map_map]
    refine List.map_congr_left fun entry _ => ?_
    show (if entry.1 = key then (key, record) else entry).1 = entry.1
    split
    · exact Eq.symm (by assumption)
    · rfl
  · rw [if_neg hkey, if_neg fun h => hkey (hany.mp h), List.map_append]
    rfl

/-- Entering a router under its session keeps this. -/
theorem MergedRouters.Keyed.put {merged : MergedRouters} (h : merged.Keyed)
    (record : SessionRouterRecord) {key : String × String} (hkey : record.session = key) :
    (merged.put key record).Keyed := by
  constructor
  · rw [MergedRouters.map_fst_put]
    split
    · exact h.nodup
    · rename_i hnew
      exact List.nodup_append.mpr ⟨h.nodup, List.nodup_singleton _, fun a ha b hb hab =>
        hnew (List.mem_singleton.mp hb ▸ hab ▸ ha)⟩
  · intro entry hentry
    rcases MergedRouters.mem_put hentry with rfl | ⟨hentry, -⟩
    · exact hkey
    · exact h.session entry hentry

/-- A router that is entered is there, beside those of the other sessions. -/
theorem MergedRouters.mem_put_of {merged : MergedRouters} {key : String × String}
    {record : SessionRouterRecord} {entry : (String × String) × SessionRouterRecord}
    (h : entry = (key, record) ∨ (entry ∈ merged ∧ entry.1 ≠ key)) :
    entry ∈ merged.put key record := by
  unfold MergedRouters.put
  split
  · rename_i hany
    obtain ⟨old, hold, hkey⟩ := List.any_eq_true.mp hany
    rcases h with rfl | ⟨hentry, hne⟩
    · exact List.mem_map.mpr ⟨old, hold, if_pos (of_decide_eq_true hkey)⟩
    · exact List.mem_map.mpr ⟨entry, hentry, if_neg hne⟩
  · rcases h with rfl | ⟨hentry, -⟩
    · exact List.mem_append_right _ List.mem_cons_self
    · exact List.mem_append_left _ hentry

/-- What a fragment is merged with is the router of its session. -/
theorem MergedRouters.Keyed.lookup {merged : MergedRouters} (h : merged.Keyed)
    {entry : (String × String) × SessionRouterRecord} (hentry : entry ∈ merged) :
    merged.lookup entry.1 = some entry.2 := by
  cases hlookup : merged.lookup entry.1 with
  | none =>
    have hnone := List.lookup_eq_none_iff.mp hlookup entry hentry
    simp at hnone
  | some record =>
    obtain ⟨before, after, hsplit, -⟩ := List.lookup_eq_some_iff.mp hlookup
    have hmem : (entry.1, record) ∈ merged := by
      rw [hsplit]
      simp
    rw [← List.inj_on_of_nodup_map h.nodup hmem hentry rfl]

/-- What a batch has merged for the session of a fragment has what the fragment lists. -/
theorem exists_merged {stored : Table SessionRouterRow.primaryKey} (hstored : RoutersKeyed stored)
    (updates : List SessionRouterRecord) :
    (updates.foldl (mergeFragment stored) []).Keyed ∧
      ∀ fragment ∈ updates, ∃ entry ∈ updates.foldl (mergeFragment stored) [],
        entry.1 = fragment.session ∧ entry.2.Includes fragment := by
  induction updates using List.reverseRecOn with
  | nil => exact ⟨⟨List.nodup_nil, by simp⟩, by simp⟩
  | append_singleton updates fragment ih =>
    obtain ⟨hkeyed, hincludes⟩ := ih
    rw [List.foldl_append, List.foldl_cons, List.foldl_nil, mergeFragment_eq]
    generalize updates.foldl (mergeFragment stored) [] = merged at hkeyed hincludes
    -- A router that was merged before is one of the session, in the batch or in the store.
    have hprevious : ∀ previous, previousRouter stored merged fragment = some previous →
        previous.session = fragment.session := by
      intro previous h
      unfold previousRouter at h
      cases hlookup : merged.lookup fragment.session with
      | some record =>
        rw [hlookup, Option.some_or, Option.some.injEq] at h
        rw [← h]
        obtain ⟨l₁, l₂, hsplit, -⟩ := List.lookup_eq_some_iff.mp hlookup
        exact hkeyed.session (fragment.session, record) (by rw [hsplit]; simp)
      | none =>
        rw [hlookup, Option.none_or, Option.map_eq_some_iff] at h
        obtain ⟨row, hrow, rfl⟩ := h
        obtain ⟨hrow, hkey⟩ := Table.find?_eq_some.mp hrow
        rw [hstored row hrow, hkey]
    -- The router of the session after the fragment.
    have hnew : ((previousRouter stored merged fragment).elim fragment fun previous =>
          mergeRouterRecords previous fragment).session = fragment.session ∧
        ((previousRouter stored merged fragment).elim fragment fun previous =>
          mergeRouterRecords previous fragment).Includes fragment := by
      cases hcase : previousRouter stored merged fragment with
      | none =>
        refine ⟨rfl, ?_⟩
        constructor <;> exact List.Subset.refl _
      | some previous =>
        exact ⟨hprevious previous hcase, (includes_mergeRouterRecords previous fragment).2⟩
    refine ⟨hkeyed.put _ hnew.1, fun other hother => ?_⟩
    rcases List.mem_append.mp hother with hother | hother
    · obtain ⟨entry, hentry, hsession, hincluded⟩ := hincludes other hother
      by_cases hsame : entry.1 = fragment.session
      · -- The router that has the other fragment is the one that is merged with.
        refine ⟨_, MergedRouters.mem_put_of (.inl rfl), hsame.symm.trans hsession, ?_⟩
        have hcase : previousRouter stored merged fragment = some entry.2 := by
          unfold previousRouter
          rw [← hsame, hkeyed.lookup hentry, Option.some_or]
        rw [hcase]
        exact (includes_mergeRouterRecords entry.2 fragment).1 other hincluded
      · exact ⟨entry, MergedRouters.mem_put_of (.inr ⟨hentry, hsame⟩), hsession, hincluded⟩
    · rw [List.mem_singleton.mp hother]
      exact ⟨_, MergedRouters.mem_put_of (.inl rfl), rfl, hnew.2⟩

/-- A router that is written under its session is stored there. -/
theorem exists_upsertRouter (t : Table SessionRouterRow.primaryKey) (record : SessionRouterRecord)
    (createdAtMs updatedAtMs : UInt64) :
    ∃ r ∈ (upsertRouter t record.sessionId record.entityId record createdAtMs updatedAtMs).rows,
      r.primaryKey = record.session ∧ r.record = record := by
  unfold upsertRouter
  cases hfind : t.find? (record.sessionId, record.entityId) with
  | some row =>
    obtain ⟨hrow, hkey⟩ := Table.find?_eq_some.mp hfind
    obtain ⟨hsession, hentity⟩ := Prod.mk.inj hkey
    refine ⟨_, List.mem_map.mpr ⟨row, hrow, if_pos (decide_eq_true ⟨hsession, hentity⟩)⟩, ?_, rfl⟩
    exact hkey
  | none =>
    dsimp only
    rw [Table.insertOrIgnore_rows (Table.find?_eq_none.mp hfind)]
    exact ⟨_, List.mem_append_right _ List.mem_cons_self, rfl, rfl⟩

/-- A stored router stays when that of another session is written. -/
theorem mem_upsertRouter {t : Table SessionRouterRow.primaryKey} {r : SessionRouterRow}
    (hr : r ∈ t.rows) {sessionId entityId : String} (h : r.primaryKey ≠ (sessionId, entityId))
    (record : SessionRouterRecord) (createdAtMs updatedAtMs : UInt64) :
    r ∈ (upsertRouter t sessionId entityId record createdAtMs updatedAtMs).rows := by
  unfold upsertRouter
  cases t.find? (sessionId, entityId) with
  | some row =>
    refine List.mem_map.mpr ⟨r, hr, if_neg fun hsame => h ?_⟩
    obtain ⟨hsession, hentity⟩ := of_decide_eq_true hsame
    exact Prod.ext hsession hentity
  | none =>
    unfold Table.insertOrIgnore
    dsimp only
    split
    · exact hr
    · exact List.mem_append_left _ hr

/-- After a batch the router of each fragment's session has what the fragment lists. -/
theorem exists_mergeRouterRecordsTx {S : TenantStore} (hS : RoutersKeyed S.sessionRouter)
    (now : UInt64) {updates : List SessionRouterRecord} {fragment : SessionRouterRecord}
    (hfragment : fragment ∈ updates) :
    ∃ r ∈ (mergeRouterRecordsTx now S updates).sessionRouter.rows,
      r.primaryKey = fragment.session ∧ r.record.Includes fragment := by
  obtain ⟨hkeyed, hincludes⟩ := exists_merged hS updates
  obtain ⟨entry, hentry, hsession, hincluded⟩ := hincludes fragment hfragment
  show ∃ r ∈ (List.foldl _ S.sessionRouter
    ((updates.foldl (mergeFragment S.sessionRouter) []).map Prod.snd)).rows, _
  generalize updates.foldl (mergeFragment S.sessionRouter) [] = merged at hkeyed hentry
  obtain ⟨before, after, rfl⟩ := List.append_of_mem hentry
  have hentrysession : entry.2.session = fragment.session :=
    (hkeyed.session entry hentry).trans hsession
  -- The routers that are written later are of other sessions.
  have hothers : ∀ later ∈ after, later.2.session ≠ fragment.session := by
    intro later hlater hsame
    have hnodup := hkeyed.nodup
    rw [List.map_append, List.map_cons, List.nodup_append, List.nodup_cons] at hnodup
    refine hnodup.2.1.1 (List.mem_map.mpr ⟨later, hlater, ?_⟩)
    rw [← hkeyed.session later (by simp [hlater]), hsame, hsession]
  -- The write of the router leaves it there, and the later ones do not touch it.
  rw [List.map_append, List.map_cons]
  refine foldl_of_split (P := fun t : Table SessionRouterRow.primaryKey =>
    ∃ r ∈ t.rows, r.primaryKey = fragment.session ∧ r.record.Includes fragment) _ ?_ ?_
  · intro t
    obtain ⟨r, hr, hkey, hrecord⟩ := exists_upsertRouter t entry.2
      (min entry.2.createdAtMs now) now
    exact ⟨r, hr, hkey.trans hentrysession, hrecord ▸ hincluded⟩
  · rintro record hrecord t ⟨r, hr, hkey, hr'⟩
    obtain ⟨later, hlater, rfl⟩ := List.mem_map.mp hrecord
    refine ⟨r, mem_upsertRouter hr ?_ _ _ _, hkey, hr'⟩
    rw [hkey]
    exact Ne.symm (hothers later hlater)

/-! ## The routers of a reachable store -/

/-- The routers and what they are made from are stored under their sessions. -/
structure SessionsKeyed (S : TenantStore) : Prop where
  routers : RoutersKeyed S.sessionRouter
  sources : ∀ r ∈ S.sessionRouterSources.rows, r.record.session = (r.sessionId, r.entityId)

/-- A router that is written under its session keeps this. -/
theorem RoutersKeyed.upsertRouter {t : Table SessionRouterRow.primaryKey} (ht : RoutersKeyed t)
    {record : SessionRouterRecord} {sessionId entityId : String}
    (hrecord : record.session = (sessionId, entityId)) (createdAtMs updatedAtMs : UInt64) :
    RoutersKeyed (upsertRouter t sessionId entityId record createdAtMs updatedAtMs) := by
  intro r hr
  unfold Tellodb.upsertRouter at hr
  cases hfind : t.find? (sessionId, entityId) with
  | some row =>
    simp only [hfind, Table.updateWhere] at hr
    obtain ⟨old, hold, rfl⟩ := List.mem_map.mp hr
    unfold Assignment.on
    split
    · rename_i hsame
      obtain ⟨hsession, hentity⟩ := of_decide_eq_true hsame
      exact hrecord.trans (Prod.ext hsession.symm hentity.symm)
    · exact ht old hold
  | none =>
    simp only [hfind] at hr
    rw [Table.insertOrIgnore_rows (Table.find?_eq_none.mp hfind)] at hr
    rcases List.mem_append.mp hr with hr | hr
    · exact ht r hr
    · rw [List.mem_singleton.mp hr]
      exact hrecord

/-- A batch of fragments keeps this. -/
theorem RoutersKeyed.mergeRouterRecordsTx {S : TenantStore} (hS : RoutersKeyed S.sessionRouter)
    (now : UInt64) (updates : List SessionRouterRecord) :
    RoutersKeyed (mergeRouterRecordsTx now S updates).sessionRouter := by
  show RoutersKeyed (List.foldl _ S.sessionRouter
    ((updates.foldl (mergeFragment S.sessionRouter) []).map Prod.snd))
  generalize (updates.foldl (mergeFragment S.sessionRouter) []).map Prod.snd = records
  generalize S.sessionRouter = t at hS
  induction records generalizing t with
  | nil => exact hS
  | cons record records ih => exact ih _ (hS.upsertRouter rfl _ _)

/-- A batch of fragments keeps the sessions of the routers and of their sources. -/
theorem SessionsKeyed.mergeRouterRecordsTx {S : TenantStore} (hS : SessionsKeyed S) (now : UInt64)
    (updates : List SessionRouterRecord) : SessionsKeyed (mergeRouterRecordsTx now S updates) := by
  constructor
  · exact hS.routers.mergeRouterRecordsTx now updates
  · intro r hr
    -- The sources are written record by record and memory by memory.
    have hfold : ∀ (updates : List SessionRouterRecord) (t : Table RouterSource.primaryKey),
        (∀ r ∈ t.rows, r.record.session = (r.sessionId, r.entityId)) →
        ∀ r ∈ (updates.foldl (fun t record => record.sourceMemoryIds.foldl (fun t memoryId =>
          t.insertOrReplace ⟨record.sessionId, record.entityId, memoryId, record⟩) t) t).rows,
          r.record.session = (r.sessionId, r.entityId) := by
      intro updates
      induction updates with
      | nil => exact fun _ ht => ht
      | cons record updates ih =>
        intro t ht
        refine ih _ ?_
        dsimp only
        generalize record.sourceMemoryIds = memoryIds
        induction memoryIds generalizing t with
        | nil => exact ht
        | cons memoryId memoryIds ih =>
          refine ih _ fun r hr => ?_
          rcases Table.mem_insertOrReplace.mp hr with ⟨hr, -⟩ | rfl
          · exact ht r hr
          · rfl
    exact hfold updates _ hS.sources r hr

/-- A router that a deletion rebuilds is that of its session. -/
theorem session_rebuiltRouter {sources : Table RouterSource.primaryKey}
    (hsources : ∀ r ∈ sources.rows, r.record.session = (r.sessionId, r.entityId))
    {sessionId entityId : String} {record : SessionRouterRecord}
    (h : rebuiltRouter sources sessionId entityId = some record) :
    record.session = (sessionId, entityId) := by
  -- Merging keeps the session of the first fragment.
  have hfold : ∀ (rest : List SessionRouterRecord) (first : SessionRouterRecord),
      (rest.foldl mergeRouterRecords first).session = first.session := by
    intro rest
    induction rest with
    | nil => exact fun _ => rfl
    | cons fragment rest ih => exact fun first => ih _
  unfold rebuiltRouter at h
  split at h
  · exact absurd h (by simp)
  · rename_i first rest hlist
    have hfirst : first ∈ (orderBy RouterSource.memoryId (sources.rows.filter fun r =>
        r.sessionId = sessionId ∧ r.entityId = entityId)).map RouterSource.record := by
      rw [hlist]
      exact List.mem_cons_self
    obtain ⟨r, hr, rfl⟩ := List.mem_map.mp hfirst
    rw [mem_orderBy] at hr
    obtain ⟨hr, hsame⟩ := List.mem_filter.mp hr
    obtain ⟨hsession, hentity⟩ := of_decide_eq_true hsame
    have hmerged : (rest.foldl mergeRouterRecords r.record).session = (sessionId, entityId) := by
      rw [hfold, hsources r hr, hsession, hentity]
    generalize rest.foldl mergeRouterRecords r.record = merged at h hmerged
    rw [← Option.some.inj h]
    exact hmerged

/-- A deletion keeps this. -/
theorem SessionsKeyed.deleteObservation {S : TenantStore} (hS : SessionsKeyed S)
    (order : HashOrder) (now : UInt64) (memoryId reason : String) :
    SessionsKeyed (S.deleteObservation order now memoryId reason).1 := by
  -- A router is rebuilt of the sources of its session, so it carries the session.
  have hrebuilt : ∀ (sessions : List (String × String)) (S : TenantStore), SessionsKeyed S →
      SessionsKeyed (sessions.foldl rebuildRouterAfterDelete S) := by
    intro sessions
    induction sessions with
    | nil => exact fun _ hS => hS
    | cons session sessions ih =>
      intro S hS
      obtain ⟨sessionId, entityId⟩ := session
      refine ih _ ?_
      cases hrouter : rebuiltRouter S.sessionRouterSources sessionId entityId with
      | none =>
        simp only [rebuildRouterAfterDelete, hrouter]
        exact ⟨fun r hr => hS.routers r (Table.mem_deleteWhere.mp hr).1, hS.sources⟩
      | some record =>
        simp only [rebuildRouterAfterDelete, hrouter]
        exact ⟨hS.routers.upsertRouter (session_rebuiltRouter hS.sources hrouter) _ _, hS.sources⟩
  have hchunks : ∀ (chunkIds : List String) (S : TenantStore), SessionsKeyed S →
      SessionsKeyed (chunkIds.foldl deleteChunk S) := by
    intro chunkIds
    induction chunkIds with
    | nil => exact fun _ hS => hS
    | cons chunkId chunkIds ih => exact fun S hS => ih _ ⟨hS.routers, hS.sources⟩
  have hrecords : SessionsKeyed (deleteRecords now S memoryId reason) :=
    ⟨hS.routers, fun r hr => hS.sources r (Table.mem_deleteWhere.mp hr).1⟩
  exact hchunks _ _ (hrebuilt _ _ hrecords)

end Tellodb
