import Tellodb.Commit.Visible
import Tellodb.Relational.Transaction
import Mathlib.Data.List.Dedup

/-!
# A commit is all or nothing

`commitIngestTx` is the commit as the steps of one transaction, which may fail at each of them and
inside it. Without failures it is `commitIngest` (`eval_commitIngestTx`). `commitIngest_atomic` says
what other connections read: the old store until the end, the old store for good if anything
fails, and else what the whole commit writes. `Visible` is what its batch should leave to be read,
every record of it. A commit that succeeds may drop facts and edges all the same: a fact whose key
and memory have a version with another value already, and an edge whose identifier, which leaves the
object out, is that of another record of the batch, of an edge that a registration writes later, or
of one that is stored (`lostRecords`). `KeepsRecords` is the condition under which nothing is
dropped. -/

namespace Tellodb

open Relational FactTables

/-! ## The transaction -/

/-- A table writer that has no error of its own. -/
def writeAll {α : Type} (f : TenantStore → TenantStore × α) : Tx TenantStore String α :=
  .write fun S => .ok (f S)

/-- `commit_ingest`, one step for each table writer. -/
def commitIngestTx (cosineSimilarity : List ℚ → List ℚ → ℚ) (order : HashOrder)
    (clock : IngestClock) (b : IngestBatches) : Tx TenantStore String CommitOutcome := do
  let vectorIds ← writeAll fun S => insertObservationsTx clock.observations S b.observations
  writeAll fun S => (insertCardsTx S b.memoryCardBatch, ())
  writeAll fun S => (mergeRouterRecordsTx clock.routers S b.sessionRouterUpdates, ())
  writeAll fun S => (insertPreferencesTx S b.preferenceBatch, ())
  writeAll fun S => (insertMemoryLinksTx S b.memoryLinksBatch, ())
  Tx.write fun S => (insertMetricsTx S b.metricMemoryIds b.metricBatch).map fun S => (S, ())
  writeAll fun S => (insertConsolidationTasksTx S b.consolidationTasks, ())
  let neighbours ← writeAll fun S => updateNeighbourEmbeddingsTx S b.neighbourEmbeddingUpdates
  let assigned ← writeAll fun S =>
    canonicalizePredicatesTx cosineSimilarity b.predicateCanonTau S b.predicateCanonBatch
  let facts := b.factBatch.map (canonicalFact assigned)
  let factUpdates ← Tx.write fun S => registerFactsTx order clock.facts S facts
  writeAll fun S => (updateCardLatestTx S (b.memoryCardLatestUpdates ++ factUpdates), ())
  writeAll fun S => (insertCardEdgesTx S b.memoryCardBatch facts, ())
  return commitOutcome b vectorIds neighbours

section

variable {cosineSimilarity : List ℚ → List ℚ → ℚ} {order : HashOrder} {clock : IngestClock}
  {S S' : TenantStore} {b : IngestBatches} {outcome : CommitOutcome}

/-- Without failures from outside the steps do what a commit does. -/
theorem eval_commitIngestTx : (commitIngestTx cosineSimilarity order clock b).eval S =
    S.commitIngest cosineSimilarity order clock b := by
  unfold commitIngestTx writeAll TenantStore.commitIngest
  simp only [Tx.eval_bind, Tx.eval_write, Tx.eval_pure]
  show (Except.map _ (insertMetricsTx _ _ _) >>= _) = _
  generalize insertMetricsTx _ _ _ = metrics
  cases metrics with
  | error e => rfl
  | ok S => rfl

/-! ## The records of a batch -/

/-- The records of a batch can be read in the store `S'` after its commit to `S`. -/
structure Visible (cosineSimilarity : List ℚ → List ℚ → ℚ) (clock : IngestClock)
    (S S' : TenantStore) (b : IngestBatches) : Prop where
  /-- Each memory that is the last of the batch under its identifier has its row. -/
  memories : ∀ before item after, b.observations = before ++ item :: after →
    (∀ later ∈ after, later.2.1 ≠ item.2.1) →
      ∃ rowid, memoryRow clock.observations item rowid ∈ S'.memories.rows
  /-- Each card that is the last of the batch under its identifier has its row, with the flag that
  the facts give it. -/
  cards : ∀ before card after, b.memoryCardBatch = before ++ card :: after →
    (∀ later ∈ after, later.cardId ≠ card.cardId) →
      ∃ isLatest updatedAtMs, card.withLatest isLatest updatedAtMs ∈ S'.memoryCards.rows
  /-- Each fact, under its canonical key, can be read. -/
  facts : ∀ fact ∈ S.commitFacts cosineSimilarity b, S'.facts.Shows fact
  /-- Each edge that a card or a fact states is stored under its identifier. -/
  edges : ∀ edge ∈ S.statedEdges cosineSimilarity b,
    ∃ e ∈ S'.edges.rows, e.edgeId = edge.edgeId ∧ e.stated = edge
  /-- The router of each fragment's session has what the fragment lists. -/
  routers : RoutersKeyed S.sessionRouter → ∀ fragment ∈ b.sessionRouterUpdates,
    ∃ r ∈ S'.sessionRouter.rows, r.primaryKey = fragment.session ∧ r.record.Includes fragment
  /-- Each metric has its row. -/
  metrics : metricRows b.metricBatch ⊆ S'.metrics.rows

/-- A commit drops no fact and no edge of its batch. -/
structure KeepsRecords (cosineSimilarity : List ℚ → List ℚ → ℚ) (order : HashOrder)
    (clock : IngestClock) (S : TenantStore) (b : IngestBatches) : Prop where
  /-- Each fact is kept at its turn, or elsewhere. -/
  facts : ∀ turn ∈ S.facts.batchTurns order clock.facts (S.commitFacts cosineSimilarity b),
    turn.1.Keeps turn.2 ∨ S.facts.KeptElsewhere
      (S.facts.batchTurns order clock.facts (S.commitFacts cosineSimilarity b)) turn.2
  /-- The cards and facts that share the identifier of an edge state the same edge. -/
  together : ∀ edge ∈ S.statedEdges cosineSimilarity b,
    ∀ other ∈ S.statedEdges cosineSimilarity b, other.edgeId = edge.edgeId → other = edge
  /-- What the registrations write last under the identifier of an edge is that edge. -/
  written : ∀ edge ∈ S.statedEdges cosineSimilarity b,
    ∀ other ∈ S.lastWritten cosineSimilarity order clock b edge.edgeId, other = edge
  /-- Where they write none under it, what is stored under it is that edge. -/
  stored : ∀ edge ∈ S.statedEdges cosineSimilarity b,
    S.lastWritten cosineSimilarity order clock b edge.edgeId = none →
      ∀ e ∈ S.edges.find? edge.edgeId, e.stated = edge

/-- The facts of a batch can be read after its commit exactly if none is dropped. -/
theorem commitIngest_shows_iff
    (h : S.commitIngest cosineSimilarity order clock b = .ok (S', outcome)) :
    (∀ fact ∈ S.commitFacts cosineSimilarity b, S'.facts.Shows fact) ↔
      ∀ turn ∈ S.facts.batchTurns order clock.facts (S.commitFacts cosineSimilarity b),
        turn.1.Keeps turn.2 ∨ S.facts.KeptElsewhere
          (S.facts.batchTurns order clock.facts (S.commitFacts cosineSimilarity b)) turn.2 := by
  have hfacts : S'.facts = (groupFacts order (S.commitFacts cosineSimilarity b)).foldl
      (registeredGroup clock.facts) S.facts := by
    rw [commitIngest_batches h]
    exact List.foldl_map
  rw [hfacts]
  constructor
  · intro hshows turn hturn
    exact (shows_iff hturn).mp (hshows _ (exists_batchTurn.mp ⟨turn, hturn, rfl⟩))
  · intro hkeeps fact hfact
    obtain ⟨turn, hturn, rfl⟩ := exists_batchTurn.mpr hfact
    exact (shows_iff hturn).mpr (hkeeps turn hturn)

/-- The edge of a record is stored exactly if it is the one that is found under its identifier. -/
theorem exists_stated_iff {t : Table EdgeRow.edgeId} {edge : StatedEdge} :
    (∃ e ∈ t.rows, e.edgeId = edge.edgeId ∧ e.stated = edge) ↔
      (t.find? edge.edgeId).map EdgeRow.stated = some edge := by
  rw [Option.map_eq_some_iff]
  simp only [Table.find?_eq_some, and_assoc]

/-- The edges of a batch are stored after its commit exactly if none is dropped. -/
theorem commitIngest_stated_iff
    (h : S.commitIngest cosineSimilarity order clock b = .ok (S', outcome)) :
    (∀ edge ∈ S.statedEdges cosineSimilarity b,
        ∃ e ∈ S'.edges.rows, e.edgeId = edge.edgeId ∧ e.stated = edge) ↔
      (∀ edge ∈ S.statedEdges cosineSimilarity b,
        ∀ other ∈ S.statedEdges cosineSimilarity b, other.edgeId = edge.edgeId → other = edge) ∧
      (∀ edge ∈ S.statedEdges cosineSimilarity b,
        ∀ other ∈ S.lastWritten cosineSimilarity order clock b edge.edgeId, other = edge) ∧
      ∀ edge ∈ S.statedEdges cosineSimilarity b,
        S.lastWritten cosineSimilarity order clock b edge.edgeId = none →
          ∀ e ∈ S.edges.find? edge.edgeId, e.stated = edge := by
  simp only [exists_stated_iff]
  constructor
  · intro hstored
    refine ⟨fun edge hedge other hother hid => ?_, fun edge hedge other hother => ?_,
      fun edge hedge hnone e he => ?_⟩
    · have hsame := hstored other hother
      rw [hid, hstored edge hedge] at hsame
      exact (Option.some.inj hsame).symm
    -- The edge that is found under the identifier is the stated one, whoever wrote it.
    · have hfound := hstored edge hedge
      rw [commitIngest_edges h, Option.mem_def.mp hother, Option.some_or, Option.some_or] at hfound
      exact Option.some.inj hfound
    · have hfound := hstored edge hedge
      rw [commitIngest_edges h, hnone, Option.none_or, Option.mem_def.mp he, Option.map_some,
        Option.some_or] at hfound
      exact Option.some.inj hfound
  · rintro ⟨htogether, hwritten, hstored⟩ edge hedge
    rw [commitIngest_edges h]
    -- The last write of the batch counts, then what was stored, then the first statement.
    cases hlast : S.lastWritten cosineSimilarity order clock b edge.edgeId with
    | some other => rw [Option.some_or, Option.some_or, hwritten edge hedge other hlast]
    | none =>
      rw [Option.none_or]
      cases hfind : S.edges.find? edge.edgeId with
      | some e => rw [Option.map_some, Option.some_or, hstored edge hedge hlast e hfind]
      | none =>
        -- Nothing is there, so the first of the batch under the identifier is added.
        rw [Option.map_none, Option.none_or]
        obtain ⟨first, hfirst⟩ := Option.isSome_iff_exists.mp (List.find?_isSome.mpr
          ⟨edge, hedge, decide_eq_true rfl⟩ : ((S.statedEdges cosineSimilarity b).find?
            fun other => other.edgeId = edge.edgeId).isSome)
        have hid : first.edgeId = edge.edgeId := by simpa using List.find?_some hfirst
        rw [hfirst, htogether edge hedge first (List.mem_of_find?_eq_some hfirst) hid]

/-- A commit that succeeds makes every record of its batch visible exactly if it drops none. -/
theorem visible_commitIngest_iff
    (h : S.commitIngest cosineSimilarity order clock b = .ok (S', outcome)) :
    Visible cosineSimilarity clock S S' b ↔ KeepsRecords cosineSimilarity order clock S b := by
  refine ⟨fun hvisible => ?_, fun hkeeps => ?_⟩
  · obtain ⟨htogether, hwritten, hstored⟩ := (commitIngest_stated_iff h).mp hvisible.edges
    exact ⟨(commitIngest_shows_iff h).mp hvisible.facts, htogether, hwritten, hstored⟩
  obtain ⟨S₁, hmemories, -, hmemories', -⟩ := commitIngest_memories h
  obtain ⟨S₂, updates, hcards, hcards'⟩ := commitIngest_cards h
  obtain ⟨S₄, hrouters, -, hrouters', -⟩ := commitIngest_routers h
  have hmetrics := rows_foldlM_insertMetric (commitIngest_metrics h)
  constructor
  · intro before item after hsplit hlast
    -- Of an item that no later one replaces the row is there, whatever its neighbours have become.
    obtain ⟨rowid, hrow⟩ := exists_insertObservationsTx clock.observations S before hlast
    rw [← hsplit, ← hmemories] at hrow
    rw [hmemories']
    exact ⟨rowid, mem_updateNeighbourEmbeddingsTx hrow rfl _⟩
  · intro before card after hsplit hlast
    have hcard := mem_insertCardsTx S before hlast
    rw [← hsplit, ← hcards] at hcard
    rw [hcards']
    exact exists_updateCardLatestTx hcard _
  · exact (commitIngest_shows_iff h).mpr hkeeps.facts
  · exact (commitIngest_stated_iff h).mpr ⟨hkeeps.together, hkeeps.written, hkeeps.stored⟩
  · intro hkeyed fragment hfragment
    rw [hrouters']
    exact exists_mergeRouterRecordsTx (by rw [hrouters]; exact hkeyed) _ hfragment
  · rw [hmetrics]
    exact List.subset_append_right _ _

/-- A transaction keeps the routers stored under their sessions. -/
theorem SessionsKeyed.step {S : TenantStore} (hS : SessionsKeyed S) (step : StoreStep) :
    SessionsKeyed (S.step cosineSimilarity step) := by
  cases step with
  | delete order now memoryId reason => exact hS.deleteObservation order now memoryId reason
  | commit order clock b =>
    cases hcommit : S.commitIngest cosineSimilarity order clock b with
    | error e =>
      rw [TenantStore.step_commit_of_error hcommit]
      exact hS
    | ok result =>
      rw [TenantStore.step_commit_of_ok hcommit]
      obtain ⟨S₁, hrouters, hsources, hrouters', hsources'⟩ := commitIngest_routers hcommit
      have hmerged := SessionsKeyed.mergeRouterRecordsTx
        ⟨by rw [hrouters]; exact hS.routers, by rw [hsources]; exact hS.sources⟩
        clock.routers b.sessionRouterUpdates
      exact ⟨by rw [hrouters']; exact hmerged.routers, by rw [hsources']; exact hmerged.sources⟩

/-- The empty store has its routers under their sessions. -/
theorem SessionsKeyed.empty : SessionsKeyed TenantStore.empty :=
  ⟨fun _ hr => absurd hr List.not_mem_nil, fun _ hr => absurd hr List.not_mem_nil⟩

/-- In a reachable store the routers are stored under their sessions. -/
theorem sessionsKeyed_of_run (run : List StoreStep) :
    SessionsKeyed (run.foldl (TenantStore.step cosineSimilarity) TenantStore.empty) := by
  have hempty := SessionsKeyed.empty
  generalize TenantStore.empty = S at hempty
  induction run generalizing S with
  | nil => exact hempty
  | cons step run ih => exact ih _ (hempty.step step)

end

/-- A fact about where alice lives. -/
private def residenceFact (timestamp : UInt64) (memoryId object : String) :
    IngestFactRegistration :=
  ⟨"alice", "residence", timestamp, memoryId, "alice", "lives_in", object⟩

/-- A turn with a memory, a card, a router and a metric, and what two memories state. -/
private def movingTurn : IngestBatches where
  observations := [(100, "m1", ⟨"alice", "I moved to Austin", [], .conversational, "", none, "s1", 0,
    "user", none⟩)]
  memoryCardBatch := [
    { cardId := "m1", entityId := "alice", userId := "alice", sourceMemoryId := "m1",
      sourceSessionId := "s1", sourceTurnIndex := 0, documentTime := 100, conversationTime := 100,
      eventTime := none, subject := "alice", predicate := "lives_in", object := "Austin",
      memoryText := "I moved to Austin", cardType := "fact", confidence := 1, isLatest := true,
      isStatic := false, isInference := false, expiresAt := none, rootCardId := none,
      parentCardId := none, lifecycle := "active", createdAtMs := 100, updatedAtMs := 100 }]
  sessionRouterUpdates := [
    { sessionId := "s1", entityId := "alice", sessionDate := "", documentTimeMs := 100,
      speakers := [], persons := [], sessionFocus := "moving", canonicalFacts := [],
      events := ["moved"], objects := [], places := ["Austin"], activities := [],
      preferenceSignals := [], salientTerms := [], sourceMemoryIds := ["m1"], routerText := "",
      createdAtMs := 100, updatedAtMs := 100 }]
  metricBatch := [⟨"alice", "m1", 100, "distance", 12, "miles", "12 miles"⟩]
  factBatch := [residenceFact 100 "m1" "Austin", residenceFact 200 "m2" "Austin"]

/-- A batch of three facts: Austin by one memory, and Boston and then Denver by another one. -/
private def movingFacts : IngestBatches where
  factBatch := [residenceFact 100 "m1" "Austin", residenceFact 200 "m2" "Boston",
    residenceFact 300 "m2" "Denver"]

end Tellodb
