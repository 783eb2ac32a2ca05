import Tellodb.Facts.Outcome

/-!
# A commit, table by table

`commitIngest` is one pass over many tables. `commitIngest_inv` takes a successful commit apart
once, and the theorems after it say what it leaves of the facts, the graph and the cards, in terms
of the run of registrations it makes (`Reported`). -/

namespace Tellodb

open Relational FactTables

/-- The facts of an ingest under their canonical keys. -/
def TenantStore.commitFacts (cosineSimilarity : List ℚ → List ℚ → ℚ) (S : TenantStore)
    (b : IngestBatches) : List IngestFactRegistration :=
  b.factBatch.map (canonicalFact (canonicalizePredicatesTx cosineSimilarity b.predicateCanonTau S
    b.predicateCanonBatch).2)

/-- The tables after a batch. -/
def FactTables.registerBatch (T : FactTables) (b : FactBatch) : FactTables :=
  match T.registerFactVersionsTx b.entityId b.registrations b.recordedAt with
  | .ok result => result.1
  | .error _ => T

/-- What holds after the registrations of a batch holds after the batch, if repairs keep it. -/
theorem registerBatch_invariant {I : FactTables → Prop} {T : FactTables} {b : FactBatch}
    (hloop : I (T.registeredAll b.entityId b.recordedAt b.registrations))
    (hsettled : ∀ T factKey entityId, I T → I (T.settled factKey entityId)) :
    I (T.registerBatch b) := by
  obtain ⟨statuses, deferred, hbatch, -⟩ :=
    T.registerFactVersionsTx_ok b.entityId b.registrations b.recordedAt
  unfold FactTables.registerBatch
  rw [hbatch]
  unfold settledAll
  generalize T.registeredAll b.entityId b.recordedAt b.registrations = U at hloop
  clear hbatch
  induction deferred generalizing U with
  | nil => exact hloop
  | cons d rest ih => exact ih _ (hsettled U d.2.1 d.2.2 hloop)

/-- The facts of a commit, one batch for each entity. -/
def TenantStore.commitBatches (cosineSimilarity : List ℚ → List ℚ → ℚ) (S : TenantStore)
    (order : HashOrder) (clock : IngestClock) (b : IngestBatches) : List FactBatch :=
  (groupFacts order (S.commitFacts cosineSimilarity b)).map fun group =>
    ⟨group.1, group.2.map IngestFactRegistration.registration, clock.facts⟩

/-- A successful insert of metrics changes the metrics only. -/
theorem insertMetricsTx_inv {S R : TenantStore} {memoryIds : List String}
    {metrics : List IngestMetric} (h : insertMetricsTx S memoryIds metrics = .ok R) :
    ∃ t, R = { S with metrics := t } := by
  obtain ⟨t, -, h⟩ := exists_of_bind h
  exact ⟨t, (Except.ok.inj h).symm⟩

/-- The registration of facts changes the facts and the graph only. -/
theorem registerFactsTx_inv {order : HashOrder} {recordedAt : UInt64} {S R : TenantStore}
    {facts : List IngestFactRegistration} {updates : List (String × Bool × UInt64)}
    (h : registerFactsTx order recordedAt S facts = .ok (R, updates)) :
    ∃ T edges, R = { S with facts := T, edges := edges } := by
  obtain ⟨⟨T, outcomes⟩, -, h⟩ := exists_of_bind h
  exact ⟨T, _, (Prod.mk.inj (Except.ok.inj h)).1.symm⟩

/-- The groups of a commit are registered batch by batch. -/
theorem registerGroups_batches {recordedAt : UInt64}
    {groups : List (String × List IngestFactRegistration)}
    {s s' : FactTables × List (FactVersionStatus × IngestFactRegistration)}
    (h : groups.foldlM (registerGroup recordedAt) s = .ok s') :
    s'.1 = (groups.map fun group => (⟨group.1, group.2.map IngestFactRegistration.registration,
      recordedAt⟩ : FactBatch)).foldl FactTables.registerBatch s.1 := by
  induction groups generalizing s with
  | nil => exact congrArg Prod.fst (Except.ok.inj h).symm
  | cons group rest ih =>
    rw [List.foldlM_cons] at h
    obtain ⟨next, hgroup, hrest⟩ := exists_of_bind h
    obtain ⟨⟨T, statuses⟩, hbatch, hnext⟩ := exists_of_bind hgroup
    obtain rfl := Except.ok.inj hnext
    rw [ih hrest, List.map_cons, List.foldl_cons]
    unfold FactTables.registerBatch
    rw [hbatch]

section

variable {cosineSimilarity : List ℚ → List ℚ → ℚ} {order : HashOrder} {clock : IngestClock}
  {S S' : TenantStore} {b : IngestBatches} {outcome : CommitOutcome}

/-- The store of a commit before the facts are registered, with the metrics `t`. -/
def TenantStore.beforeFacts (cosineSimilarity : List ℚ → List ℚ → ℚ) (clock : IngestClock)
    (S : TenantStore) (b : IngestBatches) (t : Table MetricRow.primaryKey) : TenantStore :=
  let S := (insertObservationsTx clock.observations S b.observations).1
  let S := insertCardsTx S b.memoryCardBatch
  let S := mergeRouterRecordsTx clock.routers S b.sessionRouterUpdates
  let S := insertPreferencesTx S b.preferenceBatch
  let S := insertMemoryLinksTx S b.memoryLinksBatch
  let S := insertConsolidationTasksTx { S with metrics := t } b.consolidationTasks
  let S := (updateNeighbourEmbeddingsTx S b.neighbourEmbeddingUpdates).1
  (canonicalizePredicatesTx cosineSimilarity b.predicateCanonTau S b.predicateCanonBatch).1

/-- A successful commit wrote its metrics and registered its facts. -/
theorem commitIngest_inv
    (h : S.commitIngest cosineSimilarity order clock b = .ok (S', outcome)) :
    ∃ t R updates, registerFactsTx order clock.facts (S.beforeFacts cosineSimilarity clock b t)
        (S.commitFacts cosineSimilarity b) = .ok (R, updates) ∧
      S' = insertCardEdgesTx (updateCardLatestTx R (b.memoryCardLatestUpdates ++ updates))
        b.memoryCardBatch (S.commitFacts cosineSimilarity b) := by
  unfold TenantStore.commitIngest at h
  change (insertMetricsTx _ _ _ >>= _) = _ at h
  obtain ⟨R₁, hmetrics, h⟩ := exists_of_bind h
  obtain ⟨t, rfl⟩ := insertMetricsTx_inv hmetrics
  obtain ⟨⟨R, updates⟩, hfacts, h⟩ := exists_of_bind h
  refine ⟨t, R, updates, hfacts, ?_⟩
  exact (Prod.mk.inj (Except.ok.inj h)).1.symm

/-- The fact tables after a commit, batch by batch. -/
theorem commitIngest_batches
    (h : S.commitIngest cosineSimilarity order clock b = .ok (S', outcome)) :
    S'.facts =
      (S.commitBatches cosineSimilarity order clock b).foldl FactTables.registerBatch S.facts := by
  obtain ⟨t, R, updates, hregister, rfl⟩ := commitIngest_inv h
  obtain ⟨⟨T, outcomes⟩, hgroups, hR⟩ := exists_of_bind hregister
  obtain ⟨rfl, -⟩ := Prod.mk.inj (Except.ok.inj hR)
  exact registerGroups_batches hgroups

/-- What a successful commit leaves of the other tables does not depend on the facts. -/
theorem commitIngest_frame
    (h : S.commitIngest cosineSimilarity order clock b = .ok (S', outcome)) :
    ∃ t T edges cards, S' = { S.beforeFacts cosineSimilarity clock b t with
      facts := T
      edges := edges
      memoryCards := cards } := by
  obtain ⟨t, R, updates, hregister, rfl⟩ := commitIngest_inv h
  obtain ⟨T, edges, rfl⟩ := registerFactsTx_inv hregister
  exact ⟨t, T, _, _, rfl⟩

/-- The memories after a successful commit. -/
theorem commitIngest_memories
    (h : S.commitIngest cosineSimilarity order clock b = .ok (S', outcome)) :
    ∃ S₁ : TenantStore,
      S₁.memories = (insertObservationsTx clock.observations S b.observations).1.memories ∧
      S₁.vectorLookup = (insertObservationsTx clock.observations S b.observations).1.vectorLookup ∧
      S'.memories = (updateNeighbourEmbeddingsTx S₁ b.neighbourEmbeddingUpdates).1.memories ∧
      S'.vectorLookup =
        (updateNeighbourEmbeddingsTx S₁ b.neighbourEmbeddingUpdates).1.vectorLookup := by
  obtain ⟨t, T, edges, cards, rfl⟩ := commitIngest_frame h
  exact ⟨_, rfl, rfl, rfl, rfl⟩

/-- The routers after a successful commit. -/
theorem commitIngest_routers
    (h : S.commitIngest cosineSimilarity order clock b = .ok (S', outcome)) :
    ∃ S₁ : TenantStore, S₁.sessionRouter = S.sessionRouter ∧
      S₁.sessionRouterSources = S.sessionRouterSources ∧
      S'.sessionRouter =
        (mergeRouterRecordsTx clock.routers S₁ b.sessionRouterUpdates).sessionRouter ∧
      S'.sessionRouterSources =
        (mergeRouterRecordsTx clock.routers S₁ b.sessionRouterUpdates).sessionRouterSources := by
  obtain ⟨t, T, edges, cards, rfl⟩ := commitIngest_frame h
  exact ⟨insertCardsTx (insertObservationsTx clock.observations S b.observations).1
    b.memoryCardBatch, rfl, rfl, rfl, rfl⟩

/-- The cards after a successful commit. -/
theorem commitIngest_cards
    (h : S.commitIngest cosineSimilarity order clock b = .ok (S', outcome)) :
    ∃ (S₁ : TenantStore) (updates : List (String × Bool × UInt64)),
      S₁.memoryCards = (insertCardsTx S b.memoryCardBatch).memoryCards ∧
      S'.memoryCards = (updateCardLatestTx S₁ updates).memoryCards := by
  obtain ⟨t, R, updates, hregister, rfl⟩ := commitIngest_inv h
  obtain ⟨T, edges, rfl⟩ := registerFactsTx_inv hregister
  exact ⟨S.beforeFacts cosineSimilarity clock b t, _, rfl, rfl⟩

/-- The metrics of a successful commit were inserted without error, after those of its memories were
deleted. -/
theorem commitIngest_metrics
    (h : S.commitIngest cosineSimilarity order clock b = .ok (S', outcome)) :
    (metricRows b.metricBatch).foldlM insertMetric
      (S.metrics.deleteWhere fun row => row.memoryId ∈ b.metricMemoryIds) = .ok S'.metrics := by
  unfold TenantStore.commitIngest at h
  change (insertMetricsTx _ _ _ >>= _) = _ at h
  obtain ⟨R₁, hmetrics, h⟩ := exists_of_bind h
  obtain ⟨t, hinsert, hR₁⟩ := exists_of_bind hmetrics
  obtain ⟨⟨R, updates⟩, hfacts, h⟩ := exists_of_bind h
  obtain ⟨T, edges, rfl⟩ := registerFactsTx_inv hfacts
  have hlast := congrArg TenantStore.metrics (Prod.mk.inj (Except.ok.inj h)).1
  change R₁.metrics = S'.metrics at hlast
  have hfirst := congrArg TenantStore.metrics (Except.ok.inj hR₁)
  change t = R₁.metrics at hfirst
  exact (hfirst.trans hlast) ▸ hinsert

/-- The facts of a commit are registered one after another, if the tables admit them, and what
becomes of each decides what the commit writes to the graph and to the cards. -/
theorem commitIngest_reported (hS : Chained S.facts)
    (h : S.commitIngest cosineSimilarity order clock b = .ok (S', outcome))
    (hadmits : S.facts.AdmitsAll clock.facts
      (orderedFacts order (S.commitFacts cosineSimilarity b))) :
    ∃ outcomes, outcomes.map Prod.snd = orderedFacts order (S.commitFacts cosineSimilarity b) ∧
      Reported clock.facts S.facts outcomes S'.facts ∧
      S'.edges = (insertCardEdgesTx { S with
        edges := insertGraphEntriesTx S.edges (outcomes.flatMap fun x => graphEntries x.1 x.2) }
          b.memoryCardBatch (S.commitFacts cosineSimilarity b)).edges ∧
      S'.memoryCards = (updateCardLatestTx (insertCardsTx S b.memoryCardBatch)
        (b.memoryCardLatestUpdates ++
          outcomes.flatMap fun x => latestUpdates x.1 x.2)).memoryCards := by
  obtain ⟨t, R, updates, hregister, rfl⟩ := commitIngest_inv h
  have hbefore : Chained (S.beforeFacts cosineSimilarity clock b t).facts := hS
  obtain ⟨outcomes, hregister', hfacts, hreported⟩ := registerFactsTx_reported hbefore order hadmits
  obtain ⟨rfl, rfl⟩ := Prod.mk.inj (Except.ok.inj (hregister.symm.trans hregister'))
  exact ⟨outcomes, hfacts, hreported, rfl, rfl⟩

/-- The fact tables after a commit whose facts they admit. -/
theorem commitIngest_facts (hS : Chained S.facts)
    (h : S.commitIngest cosineSimilarity order clock b = .ok (S', outcome))
    (hadmits : S.facts.AdmitsAll clock.facts
      (orderedFacts order (S.commitFacts cosineSimilarity b))) :
    S'.facts = S.facts.registeredFacts clock.facts
      (orderedFacts order (S.commitFacts cosineSimilarity b)) := by
  obtain ⟨t, R, updates, hregister, rfl⟩ := commitIngest_inv h
  have hbefore : Chained (S.beforeFacts cosineSimilarity clock b t).facts := hS
  obtain ⟨outcomes, hregister', -, -⟩ := registerFactsTx_reported hbefore order hadmits
  obtain ⟨rfl, rfl⟩ := Prod.mk.inj (Except.ok.inj (hregister.symm.trans hregister'))
  rfl

/-- The chains stay linked in a commit whose facts the tables admit. -/
theorem Chained.commitIngest (hS : Chained S.facts)
    (h : S.commitIngest cosineSimilarity order clock b = .ok (S', outcome))
    (hadmits : S.facts.AdmitsAll clock.facts
      (orderedFacts order (S.commitFacts cosineSimilarity b))) : Chained S'.facts := by
  rw [commitIngest_facts hS h hadmits]
  exact hS.registeredFacts hadmits

end

end Tellodb
