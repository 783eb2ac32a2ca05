import Tellodb.Facts.Commit

/-!
# What a batch of facts leaves to be read

The facts of a commit are registered one after another, and each finds the tables that those before
it have left (`batchTurns`). A registration adds one row of evidence, for the version it restates or
for that of its own memory, and a version of its own only if it restates none and no version has its
key and memory. `shows_iff` says from the turns which facts can be read in the end: a fact is lost
when its key and memory have a version of another entity or with another value already. -/

namespace Tellodb

open Relational

namespace FactTables

open FactVersion

/-! ## Turns -/

/-- The tables after the facts of one entity. -/
def registeredGroup (recordedAt : UInt64) (T : FactTables)
    (group : String × List IngestFactRegistration) : FactTables :=
  T.registerBatch ⟨group.1, group.2.map IngestFactRegistration.registration, recordedAt⟩

/-- The facts of a batch in the order of their registration, each with the tables that it finds. -/
def batchTurns (T : FactTables) (order : HashOrder) (recordedAt : UInt64)
    (facts : List IngestFactRegistration) : List (FactTables × IngestFactRegistration) :=
  (turns (registeredGroup recordedAt) T (groupFacts order facts)).flatMap fun turn =>
    turn.1.turnsOf recordedAt turn.2.2

/-- Each fact of a batch has its turn. -/
theorem exists_batchTurn {T : FactTables} {order : HashOrder} {recordedAt : UInt64}
    {facts : List IngestFactRegistration} {fact : IngestFactRegistration} :
    (∃ turn ∈ T.batchTurns order recordedAt facts, turn.2 = fact) ↔ fact ∈ facts := by
  have hfacts : (T.batchTurns order recordedAt facts).map Prod.snd = orderedFacts order facts := by
    unfold batchTurns orderedFacts turnsOf
    rw [List.map_flatMap]
    simp only [map_snd_turns]
    rw [← List.flatMap_map, map_snd_turns]
  rw [← @mem_orderedFacts order, ← hfacts, List.mem_map]

/-- What each registration adds to what can be read of the tables, where repairs change nothing. -/
structure Accrues (recordedAt : UInt64) (reads : FactTables → Prop)
    (adds : FactTables → IngestFactRegistration → Prop) : Prop where
  /-- A registration. -/
  registered : ∀ T fact, reads (registeredIngest recordedAt T fact) ↔ reads T ∨ adds T fact
  /-- The repair of a chain. -/
  settled : ∀ T factKey entityId, reads (settled T factKey entityId) ↔ reads T

section Accrues

variable {order : HashOrder} {recordedAt : UInt64} {reads : FactTables → Prop}
  {adds : FactTables → IngestFactRegistration → Prop} {T : FactTables}
  {facts : List IngestFactRegistration}

/-- What can be read after the facts of one entity. -/
theorem Accrues.registeredGroup (h : Accrues recordedAt reads adds)
    {group : String × List IngestFactRegistration}
    (hentity : ∀ fact ∈ group.2, fact.entityId = group.1) (T : FactTables) :
    reads (T.registeredGroup recordedAt group) ↔
      reads T ∨ ∃ turn ∈ T.turnsOf recordedAt group.2, adds turn.1 turn.2 := by
  have hloop := reads_foldl_iff (s := T) fun fact (_ : fact ∈ group.2) T => h.registered T fact
  have hkept : reads (T.registeredGroup recordedAt group) ↔
      reads (T.registeredFacts recordedAt group.2) := by
    unfold FactTables.registeredGroup
    rw [← registeredAll_ingest hentity]
    constructor
    · refine fun hreads => not_not.mp fun hnot => ?_
      exact registerBatch_invariant (I := fun T => ¬ reads T)
        (b := ⟨group.1, group.2.map IngestFactRegistration.registration, recordedAt⟩) hnot
        (fun T factKey entityId hT => fun hs => hT ((h.settled T factKey entityId).mp hs)) hreads
    · exact fun hreads => registerBatch_invariant
        (b := ⟨group.1, group.2.map IngestFactRegistration.registration, recordedAt⟩) hreads
        fun T factKey entityId hT => (h.settled T factKey entityId).mpr hT
  exact hkept.trans hloop

/-- What can be read after a batch. -/
theorem Accrues.batch (h : Accrues recordedAt reads adds) (order : HashOrder) (T : FactTables)
    (facts : List IngestFactRegistration) :
    reads ((groupFacts order facts).foldl (FactTables.registeredGroup recordedAt) T) ↔
      reads T ∨ ∃ turn ∈ T.batchTurns order recordedAt facts, adds turn.1 turn.2 := by
  rw [reads_foldl_iff fun group hgroup T =>
    h.registeredGroup (fun _ hfact => entityId_of_mem_group hgroup hfact) T]
  unfold batchTurns
  simp only [List.mem_flatMap]
  constructor
  · rintro (hT | ⟨group, hgroup, turn, hturn, hadds⟩)
    · exact .inl hT
    · exact .inr ⟨turn, ⟨group, hgroup, hturn⟩, hadds⟩
  · rintro (hT | ⟨turn, ⟨group, hgroup, hturn⟩, hadds⟩)
    · exact .inl hT
    · exact .inr ⟨group, hgroup, turn, hturn, hadds⟩

/-- What can be read at a turn can be read at the end. -/
theorem Accrues.of_turn (h : Accrues recordedAt reads adds)
    {turn : FactTables × IngestFactRegistration}
    (hturn : turn ∈ T.batchTurns order recordedAt facts) (hreads : reads turn.1) :
    reads ((groupFacts order facts).foldl (FactTables.registeredGroup recordedAt) T) := by
  obtain ⟨group, hgroup, hturn⟩ := List.mem_flatMap.mp hturn
  have hentity : ∀ fact ∈ group.2.2, fact.entityId = group.2.1 := fun fact hfact =>
    entityId_of_mem_group (map_snd_turns (groupFacts order facts) ▸ List.mem_map_of_mem hgroup)
      hfact
  refine reads_of_turn (fun other hother T hT => ?_) hgroup ?_
  · exact (h.registeredGroup (fun _ hfact => entityId_of_mem_group hother hfact) T).mpr (.inl hT)
  · refine (h.registeredGroup hentity group.1).mpr ?_
    refine (reads_foldl_iff fun fact (_ : fact ∈ group.2.2) T => h.registered T fact).mp ?_
    exact reads_of_turn (fun fact _ T hT => (h.registered T fact).mpr (.inl hT)) hturn
      ((h.registered turn.1 turn.2).mpr (.inl hreads))

end Accrues

/-! ## Evidence and values -/

/-- A value is another one, or says the same. -/
def SameValue (object other : String) : Prop :=
  object = other ∨ sameFactObject object other = true

instance (object other : String) : Decidable (SameValue object other) :=
  inferInstanceAs (Decidable (_ ∨ _))

/-- A memory is evidence of another one's version of a fact. -/
def HasEvidence (T : FactTables) (factKey entityId versionMemoryId memoryId : String) : Prop :=
  ∃ e ∈ T.evidence.rows, e.primaryKey = (factKey, entityId, versionMemoryId, memoryId)

/-- A memory has a version of a fact with a value. -/
def HasValue (T : FactTables) (factKey entityId memoryId object : String) : Prop :=
  ∃ v ∈ T.versions.rows, v.primaryKey = (factKey, memoryId) ∧ v.entityId = entityId ∧
    SameValue v.object object

/-- A fact can be read: its memory is evidence of a version with its value. -/
def Shows (T : FactTables) (fact : IngestFactRegistration) : Prop :=
  ∃ w, T.HasEvidence fact.factKey fact.entityId w fact.memoryId ∧
    T.HasValue fact.factKey fact.entityId w fact.object

/-- A fact becomes a version of its own: it restates none, and its key and memory have none. -/
def Places (T : FactTables) (fact : IngestFactRegistration) : Prop :=
  T.restates fact.entityId fact.registration = false ∧
    ∀ v ∈ T.versions.rows, v.primaryKey ≠ (fact.factKey, fact.memoryId)

/-- The memory of whose version a registration makes its own memory evidence: that of the version
it restates, or its own. -/
def landing (T : FactTables) (fact : IngestFactRegistration) : String :=
  if T.restates fact.entityId fact.registration then
    ((T.covering fact.factKey fact.entityId fact.timestamp).map FactPosition.memoryId).getD
      fact.memoryId
  else fact.memoryId

section

variable {T : FactTables} {factKey entityId versionMemoryId memoryId object : String}

/-- Evidence after one more row. -/
theorem hasEvidence_insertEvidence (a b c d : String) (timestamp : UInt64) :
    (T.insertEvidence a b c d timestamp).HasEvidence factKey entityId versionMemoryId memoryId ↔
      T.HasEvidence factKey entityId versionMemoryId memoryId ∨
        (a, b, c, d) = (factKey, entityId, versionMemoryId, memoryId) := by
  constructor
  · rintro ⟨e, he, hkey⟩
    unfold insertEvidence Table.insertOrIgnore at he
    dsimp only at he
    split at he
    · exact .inl ⟨e, he, hkey⟩
    · rcases List.mem_append.mp he with he | he
      · exact .inl ⟨e, he, hkey⟩
      · rw [List.mem_singleton.mp he] at hkey
        exact .inr hkey
  · rintro (⟨e, he, hkey⟩ | hkey)
    · exact ⟨e, T.evidence_subset_insertEvidence a b c d timestamp he, hkey⟩
    · obtain ⟨e, he, hprimary⟩ := T.exists_insertEvidence a b c d timestamp
      exact ⟨e, he, hprimary.trans hkey⟩

/-- A registration makes its memory evidence of the version it lands on. -/
theorem hasEvidence_registeredIngest (recordedAt : UInt64) (fact : IngestFactRegistration) :
    (registeredIngest recordedAt T fact).HasEvidence factKey entityId versionMemoryId memoryId ↔
      T.HasEvidence factKey entityId versionMemoryId memoryId ∨
        (fact.factKey, fact.entityId, T.landing fact, fact.memoryId) =
          (factKey, entityId, versionMemoryId, memoryId) := by
  unfold registeredIngest landing
  -- A restatement is attached to the version that it restates, and any other fact to its own.
  cases h : T.restates fact.entityId fact.registration with
  | true =>
    obtain ⟨version, hcovering, -⟩ := registerFact_restates (s := ⟨T, [], []⟩) h recordedAt
    have hcovering : T.covering fact.factKey fact.entityId fact.timestamp = some version :=
      hcovering
    have htables : T.registeredFact fact.entityId recordedAt fact.registration =
        T.insertEvidence fact.factKey fact.entityId version.memoryId fact.memoryId
          fact.timestamp := by
      unfold registeredFact
      rw [if_pos h]
      simp only [IngestFactRegistration.registration, hcovering]
    rw [htables, hasEvidence_insertEvidence, if_pos rfl, hcovering]
    rfl
  | false =>
    obtain ⟨n, -, htables⟩ := registeredFact_of_not_restates h recordedAt
    rw [htables, if_neg (by simp)]
    unfold HasEvidence placeVersion
    rw [linkVersion_evidence]
    exact hasEvidence_insertEvidence (T := T.insertVersion fact.entityId recordedAt
      fact.registration) fact.factKey fact.entityId fact.memoryId fact.memoryId fact.timestamp

/-- The repair of a chain leaves the evidence alone. -/
theorem evidence_settled (T : FactTables) (factKey entityId : String) :
    (T.settled factKey entityId).evidence = T.evidence := by
  unfold settled promoteNewestToCurrent
  cases T.currentFactVersion factKey entityId with
  | some _ => rfl
  | none => cases lastBy chainKey (T.chain factKey entityId) <;> rfl

/-- A registration states its fact if the fact becomes a version. -/
theorem mem_statements_registeredIngest {recordedAt : UInt64} {fact : IngestFactRegistration}
    {w : FactVersion} : w ∈ (registeredIngest recordedAt T fact).statements ↔
      w ∈ T.statements ∨ (T.Places fact ∧ w = ((newVersion fact.entityId recordedAt
        fact.registration).withRowid T.versions.nextRowid).statement) := by
  unfold registeredIngest
  by_cases hplaces : T.Places fact
  · rw [statements_registeredFact_of_new hplaces.1 recordedAt hplaces.2]
    simp [hplaces]
  · rw [statements_registeredFact_of_old recordedAt]
    · simp [hplaces]
    · by_contra hnew
      rw [not_or, not_exists] at hnew
      exact hplaces ⟨by simpa using hnew.1, fun v hv hkey => hnew.2 v ⟨hv, hkey⟩⟩

/-- The values are read off the statements. -/
theorem hasValue_iff : T.HasValue factKey entityId memoryId object ↔
    ∃ v ∈ T.statements, v.primaryKey = (factKey, memoryId) ∧ v.entityId = entityId ∧
      SameValue v.object object := by
  unfold statements
  simp only [List.mem_map, exists_exists_and_eq_and]
  rfl

/-- A registration adds its value if it becomes a version. -/
theorem hasValue_registeredIngest (recordedAt : UInt64) (fact : IngestFactRegistration) :
    (registeredIngest recordedAt T fact).HasValue factKey entityId memoryId object ↔
      T.HasValue factKey entityId memoryId object ∨
        (T.Places fact ∧ (fact.factKey, fact.memoryId) = (factKey, memoryId) ∧
          fact.entityId = entityId ∧ SameValue fact.object object) := by
  rw [hasValue_iff, hasValue_iff]
  simp only [mem_statements_registeredIngest, or_and_right, exists_or, and_assoc, exists_and_left,
    exists_eq_left]
  rfl

end

/-- Statements accrue. -/
theorem accrues_statement (recordedAt : UInt64) (w : FactVersion) :
    Accrues recordedAt (fun T => w ∈ T.statements) fun T fact => T.Places fact ∧
      w = ((newVersion fact.entityId recordedAt fact.registration).withRowid
        T.versions.nextRowid).statement where
  registered _ _ := mem_statements_registeredIngest
  settled T factKey entityId := by rw [statements_settled]

/-- Values accrue. -/
theorem accrues_hasValue (recordedAt : UInt64) (factKey entityId memoryId object : String) :
    Accrues recordedAt (fun T => T.HasValue factKey entityId memoryId object)
      fun T fact => T.Places fact ∧ (fact.factKey, fact.memoryId) = (factKey, memoryId) ∧
        fact.entityId = entityId ∧ SameValue fact.object object where
  registered _ fact := hasValue_registeredIngest recordedAt fact
  settled T factKey entityId := by rw [hasValue_iff, hasValue_iff, statements_settled]

/-- Evidence accrues. -/
theorem accrues_hasEvidence (recordedAt : UInt64)
    (factKey entityId versionMemoryId memoryId : String) :
    Accrues recordedAt (fun T => T.HasEvidence factKey entityId versionMemoryId memoryId)
      fun T fact => (fact.factKey, fact.entityId, T.landing fact, fact.memoryId) =
        (factKey, entityId, versionMemoryId, memoryId) where
  registered _ fact := hasEvidence_registeredIngest recordedAt fact
  settled T factKey entityId := by
    unfold HasEvidence
    rw [evidence_settled]

/-! ## Facts that are kept -/

/-- A fact is kept at its turn: it restates a version, or the version under its key and memory, if
there is one, is of its entity and has its value. -/
def Keeps (T : FactTables) (fact : IngestFactRegistration) : Prop :=
  T.restates fact.entityId fact.registration = true ∨
    ∀ v ∈ T.versions.rows, v.primaryKey = (fact.factKey, fact.memoryId) →
      v.entityId = fact.entityId ∧ SameValue v.object fact.object

instance (T : FactTables) (fact : IngestFactRegistration) : Decidable (T.Keeps fact) :=
  inferInstanceAs (Decidable (_ ∨ ∀ v ∈ T.versions.rows, _ → _ ∧ _))

/-- The memory of a fact is evidence of another memory's version with the fact's value. Both the
evidence and the version are stored in `T`, or come with one of the turns. -/
def KeptElsewhere (T : FactTables) (batch : List (FactTables × IngestFactRegistration))
    (fact : IngestFactRegistration) : Prop :=
  ∃ w ≠ fact.memoryId,
    (T.HasEvidence fact.factKey fact.entityId w fact.memoryId ∨
      ∃ turn ∈ batch, (turn.2.factKey, turn.2.entityId, turn.1.landing turn.2, turn.2.memoryId) =
        (fact.factKey, fact.entityId, w, fact.memoryId)) ∧
    (T.HasValue fact.factKey fact.entityId w fact.object ∨
      ∃ turn ∈ batch, turn.1.Places turn.2 ∧
        (turn.2.factKey, turn.2.memoryId) = (fact.factKey, w) ∧
        turn.2.entityId = fact.entityId ∧ SameValue turn.2.object fact.object)

/-- A fact that restates has the value of the version it lands on. -/
theorem hasValue_of_restates {T : FactTables} {fact : IngestFactRegistration}
    (h : T.restates fact.entityId fact.registration = true) :
    T.HasValue fact.factKey fact.entityId (T.landing fact) fact.object := by
  obtain ⟨version, hcovering, -⟩ := registerFact_restates (s := ⟨T, [], []⟩) h 0
  have hcovering : T.covering fact.factKey fact.entityId fact.timestamp = some version := hcovering
  have hlanding : T.landing fact = version.memoryId := by
    unfold landing
    rw [if_pos h, hcovering]
    rfl
  have hsame : sameFactObject version.object fact.object = true := by
    unfold restates at h
    simp only [IngestFactRegistration.registration, hcovering, Bool.and_eq_true] at h
    exact h.2
  rcases T.covering_cases fact.factKey fact.entityId fact.timestamp with
    ⟨-, hnone⟩ | ⟨v, hv, hfound⟩
  · exact absurd (hcovering.symm.trans hnone) (by simp)
  · obtain rfl : v.position = version := Option.some.inj (hfound.symm.trans hcovering)
    obtain ⟨hv, hkey, hentity⟩ := mem_timeline.mp hv
    refine ⟨v, hv, ?_, hentity, .inr hsame⟩
    rw [hlanding, ← hkey]
    rfl

/-- After a batch a fact of it can be read exactly if it is kept at its turn or elsewhere. -/
theorem shows_iff {T : FactTables} {order : HashOrder} {recordedAt : UInt64}
    {facts : List IngestFactRegistration} {turn : FactTables × IngestFactRegistration}
    (hturn : turn ∈ T.batchTurns order recordedAt facts) :
    Shows ((groupFacts order facts).foldl (registeredGroup recordedAt) T) turn.2 ↔
      turn.1.Keeps turn.2 ∨ T.KeptElsewhere (T.batchTurns order recordedAt facts) turn.2 := by
  obtain ⟨U, fact⟩ := turn
  have hevidence := fun w => (accrues_hasEvidence recordedAt fact.factKey fact.entityId w
    fact.memoryId).batch order T facts
  have hvalue := fun w => (accrues_hasValue recordedAt fact.factKey fact.entityId w
    fact.object).batch order T facts
  have hlater := fun w => (accrues_hasValue recordedAt fact.factKey fact.entityId w
    fact.object).of_turn hturn
  have hstated := fun w => (accrues_statement recordedAt w).of_turn hturn
  generalize (groupFacts order facts).foldl (registeredGroup recordedAt) T = T' at *
  -- The evidence that the fact brings at its turn.
  have hlanded : T'.HasEvidence fact.factKey fact.entityId (U.landing fact) fact.memoryId :=
    (hevidence _).mpr (.inr ⟨_, hturn, rfl⟩)
  constructor
  · rintro ⟨w, hw, hwvalue⟩
    by_cases hself : w = fact.memoryId
    · refine .inl ?_
      cases hrestates : U.restates fact.entityId fact.registration with
      | true => exact .inl hrestates
      | false =>
        refine .inr fun v hv hkey => ?_
        -- The version of the turn is still there, and a key and memory have one version.
        obtain ⟨u, hu, hukey, huentity, huvalue⟩ := hwvalue
        obtain ⟨v', hv', hstatement⟩ := List.mem_map.mp (hstated _ (List.mem_map_of_mem hv))
        have hvu : v' = u := T'.versions.keyed.eq_of_mem hv' hu (by
          rw [primaryKey_of_statement hstatement, hkey, hukey, hself])
        rw [← hvu, entityId_of_statement hstatement] at huentity
        rw [← hvu, object_of_statement hstatement] at huvalue
        exact ⟨huentity, huvalue⟩
    · exact .inr ⟨w, hself, (hevidence w).mp hw, (hvalue w).mp hwvalue⟩
  · rintro (hkeeps | ⟨w, -, hw, hwvalue⟩)
    · refine ⟨_, hlanded, ?_⟩
      cases hrestates : U.restates fact.entityId fact.registration with
      | true => exact hlater _ (hasValue_of_restates hrestates)
      | false =>
        have hown : U.landing fact = fact.memoryId := if_neg (by simp [hrestates])
        rw [hown]
        by_cases htaken : ∃ v ∈ U.versions.rows, v.primaryKey = (fact.factKey, fact.memoryId)
        · obtain ⟨v, hv, hkey⟩ := htaken
          exact hlater _ ⟨v, hv, hkey, hkeeps.resolve_left (by simp [hrestates]) v hv hkey⟩
        · have hfree : ∀ v ∈ U.versions.rows, v.primaryKey ≠ (fact.factKey, fact.memoryId) :=
            fun v hv hkey => htaken ⟨v, hv, hkey⟩
          exact (hvalue _).mpr (.inr ⟨_, hturn, ⟨hrestates, hfree⟩, rfl, rfl, .inl rfl⟩)
    · exact ⟨w, (hevidence w).mpr hw, (hvalue w).mpr hwvalue⟩

end FactTables

end Tellodb
