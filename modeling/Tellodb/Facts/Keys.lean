import Tellodb.Commit.Atomic
import Tellodb.Facts.Value

/-!
# Reads under the key a fact was sent with

A commit may store a fact under the canonical form of its key (`canonicalFact`), and every read of a
fact goes by the key that it is given. `found_iff` says for every run of ingests which of the facts
they sent are found under their own keys: those whose value some ingest stored under that key.
Along the way `Stated` says what the versions state at any time: what was stored, no more and no
less. -/

namespace Tellodb

open Relational FactTables FactVersion

/-! ## The reads -/

/-- `TenantStore::fact_history` -/
def TenantStore.factHistory (S : TenantStore) (entityId factKey : String) :
    List FactHistoryEntry :=
  S.facts.factHistory S.parentOf entityId factKey

/-- `current_fact_handler`: the version it answers with, if there is one. -/
def TenantStore.currentFactHandler (S : TenantStore) (entityId : Option String) (factKey : String)
    (asOfMs : Option UInt64) : Except String (Option FactHistoryEntry) :=
  match entityId.filter fun e => !(trim e.toList).isEmpty with
  | none => .error "entity_id is required"
  | some entityId =>
    let history := S.factHistory entityId factKey
    .ok <| match asOfMs with
      | some asOf => history.reverse.find? fun v =>
          v.validFromMs ≤ asOf && v.validToMs.all fun validTo => asOf < validTo
      | none => history.find? FactHistoryEntry.isCurrent

/-- A fact is found under its key: by the current value, by the history and by the handler. -/
structure FoundUnderKey (S : TenantStore) (fact : IngestFactRegistration) : Prop where
  value : (S.facts.getCurrentFactValue fact.entityId fact.factKey).isSome
  history : ∃ v ∈ S.factHistory fact.entityId fact.factKey,
    normalizeFactObject v.object = normalizeFactObject fact.object
  handler : ∃ v, S.currentFactHandler (some fact.entityId) fact.factKey none = .ok (some v)

/-- The history has an entry for each version. -/
theorem mem_factHistory {S : TenantStore} {entityId factKey : String} {entry : FactHistoryEntry} :
    entry ∈ S.factHistory entityId factKey ↔ ∃ v ∈ S.facts.timeline factKey entityId,
      S.facts.historyEntry S.parentOf entityId factKey v = entry := by
  unfold TenantStore.factHistory FactTables.factHistory
  simp only [List.mem_map, mem_orderBy]
  refine exists_congr fun v => and_congr_left fun _ => ?_
  unfold timeline
  rw [mem_orderBy]

/-- A fact is found if its chain states its value, and its entity is not blank. -/
theorem foundUnderKey_iff {S : TenantStore} (hS : Chained S.facts) (fact : IngestFactRegistration) :
    FoundUnderKey S fact ↔ (trim fact.entityId.toList).isEmpty = false ∧
      ∃ v ∈ S.facts.timeline fact.factKey fact.entityId,
        normalizeFactObject v.object = normalizeFactObject fact.object := by
  constructor
  · rintro ⟨-, ⟨entry, hentry, hobject⟩, v, hv⟩
    obtain ⟨w, hw, rfl⟩ := mem_factHistory.mp hentry
    refine ⟨?_, w, hw, hobject⟩
    rw [Bool.eq_false_iff]
    intro hblank
    unfold TenantStore.currentFactHandler at hv
    simp [Option.filter, hblank] at hv
  · rintro ⟨hentity, v, hv, hobject⟩
    -- The last version of the chain is the current one.
    obtain ⟨last, hlast⟩ : ∃ last,
        (S.facts.timeline fact.factKey fact.entityId).getLast? = some last :=
      ⟨_, List.getLast?_eq_some_getLast (List.ne_nil_of_mem hv)⟩
    have hcurrent := hS.filter_current fact.factKey fact.entityId
    rw [hlast] at hcurrent
    have hstatus : last ∈ (S.facts.timeline fact.factKey fact.entityId).filter
        fun v => v.status = .current := by
      rw [hcurrent]
      exact List.mem_singleton_self last
    refine ⟨?_, ⟨_, mem_factHistory.mpr ⟨v, hv, rfl⟩, hobject⟩, ?_⟩
    · rw [hS.currentValue, hlast]
      rfl
    · have hsome : ((S.factHistory fact.entityId fact.factKey).find?
          FactHistoryEntry.isCurrent).isSome := by
        rw [List.find?_isSome]
        refine ⟨_, mem_factHistory.mpr ⟨last, (List.mem_filter.mp hstatus).1, rfl⟩, ?_⟩
        exact (List.mem_filter.mp hstatus).2
      obtain ⟨entry, hentry⟩ := Option.isSome_iff_exists.mp hsome
      refine ⟨entry, ?_⟩
      unfold TenantStore.currentFactHandler
      simp [Option.filter, hentity, hentry]

/-! ## What the versions state -/

/-- A fact restates its covering version, or the version stored under its key and memory, if there
is one, states the same. -/
def Unedited (T : FactTables) (fact : IngestFactRegistration) : Prop :=
  T.restates fact.entityId fact.registration = true ∨
    ∀ v ∈ T.versions.rows, v.primaryKey = (fact.factKey, fact.memoryId) →
      v.entityId = fact.entityId ∧ v.timestampMs = fact.timestamp.toInt64 ∧
        normalizeFactObject v.object = normalizeFactObject fact.object

instance (T : FactTables) (fact : IngestFactRegistration) : Decidable (Unedited T fact) :=
  inferInstanceAs (Decidable (_ ∨ _))

/-- The versions state the stored facts, up to the normal form of values. -/
def Stated (stored : List IngestFactRegistration) (T : FactTables) : Prop :=
  ∀ factKey entityId value,
    (∃ v ∈ T.statements, v.factKey = factKey ∧ v.entityId = entityId ∧
      normalizeFactObject v.object = value) ↔
    ∃ g ∈ stored, g.factKey = factKey ∧ g.entityId = entityId ∧
      normalizeFactObject g.object = value

/-- An unedited fact is admitted. -/
theorem Unedited.admits {T : FactTables} {fact : IngestFactRegistration} (h : Unedited T fact) :
    T.Admits fact :=
  h.imp_right fun hstored v hv hkey => ⟨(hstored v hv hkey).1, (hstored v hv hkey).2.1⟩

/-- After an unedited fact is registered some version states it. -/
theorem exists_registeredIngest {T : FactTables} {fact : IngestFactRegistration}
    (h : Unedited T fact) (recordedAt : UInt64) :
    ∃ v ∈ (T.registeredIngest recordedAt fact).statements, v.factKey = fact.factKey ∧
      v.entityId = fact.entityId ∧
      normalizeFactObject v.object = normalizeFactObject fact.object := by
  have hkept : T.statements ⊆ (T.registeredIngest recordedAt fact).statements :=
    T.statements_subset_registeredFact fact.entityId recordedAt fact.registration
  cases hrestates : T.restates fact.entityId fact.registration with
  | true =>
    -- The covering version has the value.
    unfold restates at hrestates
    rcases T.covering_cases fact.registration.factKey fact.entityId fact.registration.timestamp with
      ⟨-, hnone⟩ | ⟨v, hv, hcovering⟩
    · simp [hnone] at hrestates
    · obtain ⟨hv, hkey, hentity⟩ := mem_timeline.mp hv
      simp only [hcovering, Bool.and_eq_true] at hrestates
      have hsame := hrestates.2
      unfold sameFactObject at hsame
      simp only [Bool.and_eq_true, beq_iff_eq] at hsame
      exact ⟨v.statement, hkept (List.mem_map_of_mem hv), hkey, hentity, hsame.2⟩
  | false =>
    have hstored := h.resolve_left (by simp [hrestates])
    by_cases hold : ∃ v ∈ T.versions.rows, v.primaryKey = (fact.factKey, fact.memoryId)
    · obtain ⟨v, hv, hkey⟩ := hold
      obtain ⟨hentity, -, hobject⟩ := hstored v hv hkey
      exact ⟨v.statement, hkept (List.mem_map_of_mem hv), congrArg Prod.fst hkey, hentity, hobject⟩
    · have hnew := statements_registeredFact_of_new hrestates recordedAt
        fun v hv hkey => hold ⟨v, hv, hkey⟩
      unfold FactTables.registeredIngest
      rw [hnew]
      exact ⟨_, List.mem_append_right _ List.mem_cons_self, rfl, rfl, rfl⟩

/-- An unedited fact adds what it states, and nothing else. -/
theorem Stated.registeredIngest {stored : List IngestFactRegistration} {T : FactTables}
    (hT : Stated stored T) {fact : IngestFactRegistration} (h : Unedited T fact)
    (recordedAt : UInt64) : Stated (stored ++ [fact]) (T.registeredIngest recordedAt fact) := by
  have hkept : T.statements ⊆ (T.registeredIngest recordedAt fact).statements :=
    T.statements_subset_registeredFact fact.entityId recordedAt fact.registration
  intro factKey entityId value
  constructor
  · rintro ⟨v, hv, hkey, hentity, hvalue⟩
    have hcases : v ∈ T.statements ∨ v = ((newVersion fact.entityId recordedAt
        fact.registration).withRowid T.versions.nextRowid).statement := by
      rcases T.statements_registeredFact fact.entityId recordedAt fact.registration with hT' | hT'
      · exact .inl (hT' ▸ hv)
      · exact (List.mem_append.mp (hT' ▸ hv)).imp_right List.mem_singleton.mp
    rcases hcases with hv | rfl
    · obtain ⟨g, hg, hstates⟩ := (hT factKey entityId value).mp ⟨v, hv, hkey, hentity, hvalue⟩
      exact ⟨g, List.mem_append_left _ hg, hstates⟩
    · exact ⟨fact, List.mem_append_right _ List.mem_cons_self, hkey, hentity, hvalue⟩
  · rintro ⟨g, hg, hkey, hentity, hvalue⟩
    rcases List.mem_append.mp hg with hg | hg
    · obtain ⟨v, hv, hstates⟩ := (hT factKey entityId value).mpr ⟨g, hg, hkey, hentity, hvalue⟩
      exact ⟨v, hkept hv, hstates⟩
    · rw [List.mem_singleton.mp hg] at hkey hentity hvalue
      obtain ⟨v, hv, hvkey, hventity, hvvalue⟩ := exists_registeredIngest h recordedAt
      exact ⟨v, hv, hvkey.trans hkey, hventity.trans hentity, hvvalue.trans hvalue⟩

/-- What is stated depends on the stored facts, not on their order or number. -/
theorem Stated.congr {stored stored' : List IngestFactRegistration} {T : FactTables}
    (hT : Stated stored T) (hsame : ∀ g, g ∈ stored ↔ g ∈ stored') : Stated stored' T := by
  intro factKey entityId value
  rw [hT factKey entityId value]
  exact exists_congr fun g => and_congr_left fun _ => hsame g

/-- A run of unedited facts adds what they state. -/
theorem Stated.registeredFacts {stored : List IngestFactRegistration} {T : FactTables}
    (hT : Stated stored T) {recordedAt : UInt64} {facts : List IngestFactRegistration}
    (h : EachStep (FactTables.registeredIngest recordedAt) Unedited T facts) :
    Stated (stored ++ facts) (T.registeredFacts recordedAt facts) := by
  induction facts generalizing stored T with
  | nil =>
    rw [List.append_nil]
    exact hT
  | cons fact facts ih =>
    rw [EachStep.cons_iff] at h
    have hrest := ih (hT.registeredIngest h.1 recordedAt) h.2
    rw [List.append_assoc, List.singleton_append] at hrest
    exact hrest

/-! ## Runs of ingests -/

/-- The store, with the facts that have been ingested so far: each as it was sent, and as it was
stored. -/
structure IngestedFacts where
  store : TenantStore
  ingested : List (IngestFactRegistration × IngestFactRegistration)

/-- One ingest, with the order and the clock of its commit. -/
def IngestedFacts.step (cosineSimilarity : List ℚ → List ℚ → ℚ) (s : IngestedFacts)
    (a : HashOrder × IngestClock × IngestBatches) : IngestedFacts :=
  match s.store.commitIngest cosineSimilarity a.1 a.2.1 a.2.2 with
  | .ok (S', _) =>
    ⟨S', s.ingested ++ a.2.2.factBatch.zip (s.store.commitFacts cosineSimilarity a.2.2)⟩
  | .error _ => s

/-- Each fact of an ingest is unedited when it is registered. -/
def IngestedFacts.Unedited (cosineSimilarity : List ℚ → List ℚ → ℚ) (s : IngestedFacts)
    (a : HashOrder × IngestClock × IngestBatches) : Prop :=
  EachStep (FactTables.registeredIngest a.2.1.facts) Tellodb.Unedited s.store.facts
    (orderedFacts a.1 (s.store.commitFacts cosineSimilarity a.2.2))

instance (cosineSimilarity : List ℚ → List ℚ → ℚ) (s : IngestedFacts)
    (a : HashOrder × IngestClock × IngestBatches) : Decidable (s.Unedited cosineSimilarity a) :=
  inferInstanceAs (Decidable (EachStep _ _ _ _))

/-- The invariant of such runs: linked chains that state what was stored. -/
structure IngestedFacts.Faithful (s : IngestedFacts) : Prop where
  chained : Chained s.store.facts
  stated : Stated (s.ingested.map Prod.snd) s.store.facts

/-- An ingest of unedited facts keeps the invariant. -/
theorem IngestedFacts.Faithful.step {cosineSimilarity : List ℚ → List ℚ → ℚ} {s : IngestedFacts}
    {a : HashOrder × IngestClock × IngestBatches} (hs : s.Faithful)
    (h : s.Unedited cosineSimilarity a) : (s.step cosineSimilarity a).Faithful := by
  obtain ⟨order, clock, b⟩ := a
  unfold IngestedFacts.step
  cases hcommit : s.store.commitIngest cosineSimilarity order clock b with
  | error _ => exact hs
  | ok result =>
    obtain ⟨S', outcome⟩ := result
    have hadmits : s.store.facts.AdmitsAll clock.facts
        (orderedFacts order (s.store.commitFacts cosineSimilarity b)) :=
      h.mono fun _ _ hfact => hfact.admits
    refine ⟨hs.chained.commitIngest hcommit hadmits, ?_⟩
    have hfacts : S'.facts = s.store.facts.registeredFacts clock.facts
        (orderedFacts order (s.store.commitFacts cosineSimilarity b)) :=
      commitIngest_facts hs.chained hcommit hadmits
    show Stated (List.map Prod.snd (_ ++ _)) S'.facts
    rw [hfacts, List.map_append, List.map_snd_zip]
    · refine (hs.stated.registeredFacts h).congr fun g => ?_
      rw [List.mem_append, List.mem_append, mem_orderedFacts]
    · unfold TenantStore.commitFacts
      rw [List.length_map]

/-- In every run of ingests of unedited facts, a fact is found under the key it was sent with if
and only if its entity is not blank and some ingest stored its value under that key. -/
theorem found_iff (cosineSimilarity : List ℚ → List ℚ → ℚ)
    {actions : List (HashOrder × IngestClock × IngestBatches)}
    (h : EachStep (IngestedFacts.step cosineSimilarity) (IngestedFacts.Unedited cosineSimilarity)
      ⟨TenantStore.empty, []⟩ actions) :
    let s := actions.foldl (IngestedFacts.step cosineSimilarity) ⟨TenantStore.empty, []⟩
    ∀ x ∈ s.ingested, FoundUnderKey s.store x.1 ↔
      (trim x.1.entityId.toList).isEmpty = false ∧
        ∃ y ∈ s.ingested, y.2.factKey = x.1.factKey ∧ y.2.entityId = x.1.entityId ∧
          normalizeFactObject y.2.object = normalizeFactObject x.1.object := by
  have hempty : IngestedFacts.Faithful ⟨TenantStore.empty, []⟩ := by
    constructor
    · exact chained_empty
    · intro factKey entityId value
      constructor
      · rintro ⟨v, hv, -⟩
        exact absurd hv List.not_mem_nil
      · rintro ⟨g, hg, -⟩
        exact absurd hg List.not_mem_nil
  have hfaithful := h.invariant (I := IngestedFacts.Faithful) (fun _ _ hs hstep => hs.step hstep)
    hempty
  intro s x _
  rw [foundUnderKey_iff hfaithful.chained]
  refine and_congr_right fun _ => ?_
  -- A version of the timeline, its statement, and the stored fact that it states.
  have hstated := hfaithful.stated x.1.factKey x.1.entityId (normalizeFactObject x.1.object)
  constructor
  · rintro ⟨v, hv, hobject⟩
    obtain ⟨hv, hkey, hentity⟩ := mem_timeline.mp hv
    obtain ⟨g, hg, hstates⟩ :=
      hstated.mp ⟨v.statement, List.mem_map_of_mem hv, hkey, hentity, hobject⟩
    obtain ⟨y, hy, rfl⟩ := List.mem_map.mp hg
    exact ⟨y, hy, hstates⟩
  · rintro ⟨y, hy, hstates⟩
    obtain ⟨w, hw, hkey, hentity, hobject⟩ := hstated.mpr ⟨y.2, List.mem_map_of_mem hy, hstates⟩
    obtain ⟨v, hv, rfl⟩ := List.mem_map.mp hw
    exact ⟨v, mem_timeline.mpr ⟨hv, hkey, hentity⟩, hobject⟩

/-- A batch that states one fact under a key, with the embedding of the key. -/
private def keyedBatch (factKey : String) (timestamp : UInt64) (memoryId object : String) :
    HashOrder × IngestClock × IngestBatches :=
  (.insertion, ⟨timestamp, timestamp, timestamp⟩,
    { factBatch := [⟨"alice", factKey, timestamp, memoryId, "alice", "works_as", object⟩]
      predicateCanonBatch := [("alice", [(factKey, [1])])]
      predicateCanonTau := 86 / 100 })

/-- Two keys with one embedding: the second is stored under the first. -/
private def occupationRun : List (HashOrder × IngestClock × IngestBatches) :=
  [keyedBatch "job_title" 100 "m1" "engineer", keyedBatch "occupation" 200 "m2" "doctor"]

/-- The theorem at two keys with one embedding. -/
theorem found_iff_occupation :
    let s := occupationRun.foldl (IngestedFacts.step fun _ _ => 1) ⟨TenantStore.empty, []⟩
    ∀ x ∈ s.ingested, FoundUnderKey s.store x.1 ↔
      (trim x.1.entityId.toList).isEmpty = false ∧
        ∃ y ∈ s.ingested, y.2.factKey = x.1.factKey ∧ y.2.entityId = x.1.entityId ∧
          normalizeFactObject y.2.object = normalizeFactObject x.1.object :=
  found_iff _ (by decide +kernel)

/-- The fact that was sent under the second key is not found under it. -/
theorem lost_occupation :
    let s := occupationRun.foldl (IngestedFacts.step fun _ _ => 1) ⟨TenantStore.empty, []⟩
    ¬ ∀ x ∈ s.ingested, FoundUnderKey s.store x.1 := by
  intro s hfound
  have hnone : ∃ x ∈ s.ingested,
      (s.store.facts.getCurrentFactValue x.1.entityId x.1.factKey).isSome = false := by
    decide +kernel
  obtain ⟨x, hx, hvalue⟩ := hnone
  exact absurd (hfound x hx).value (by simp [hvalue])

end Tellodb
