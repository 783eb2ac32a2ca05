import Tellodb.Facts.History
import Tellodb.Storage.Ingest
import Tellodb.Relational.Run
import Mathlib.Data.List.Dedup

/-!
# What a batch reports

The status of each registration decides what an ingest writes to the graph and to the cards.
`Reports` says which status a registration gets in terms of the tables it finds, up to the pointer
of a stale entry, which the batch resolves only after its loop. `Reported` is a run of
registrations with their statuses, from the tables before to the tables after, and
`registerFactsTx_reported` gives the facts of an ingest as such a run. -/

namespace Tellodb

open Relational

/-- A status without the pointer of a stale entry. -/
def FactVersionStatus.unresolved : FactVersionStatus → FactVersionStatus
  | .stale _ => .stale (0, "")
  | status => status

namespace FactTables

open FactVersion

/-- The place of the version that a registration finds or makes. -/
def standing (T : FactTables) (recordedAt : UInt64) (f : FactRegistration) : ChainKey :=
  match T.versions.find? (f.factKey, f.memoryId) with
  | some n => n.chainKey
  | none => placeKey f.timestamp recordedAt T.versions.nextRowid

/-- Whether the fact has a version after that place. -/
def hasLater (T : FactTables) (entityId : String) (recordedAt : UInt64) (f : FactRegistration) :
    Bool :=
  (T.timeline f.factKey entityId).any fun v => T.standing recordedAt f < v.chainKey

/-- The current version of a fact that a registration replaces, if it is not its own. -/
def replaced (T : FactTables) (entityId : String) (f : FactRegistration) :
    Option (String × UInt64) :=
  (T.currentFactVersion f.factKey entityId).filter fun p => p.1 ≠ f.memoryId

/-- The status that a registration gets. -/
inductive Reports (T : FactTables) (entityId : String) (recordedAt : UInt64)
    (f : FactRegistration) : FactVersionStatus → Prop
  /-- A restatement confirms its covering version. -/
  | confirmed (version : FactPosition) (hrestates : T.restates entityId f = true)
      (hcovering : T.covering f.factKey entityId f.timestamp = some version) :
      Reports T entityId recordedAt f (.confirmed (version.timestamp, version.memoryId))
  /-- A version with none after it replaces the current one. -/
  | current (hrestates : T.restates entityId f = false)
      (hlater : T.hasLater entityId recordedAt f = false) :
      Reports T entityId recordedAt f
        (.current ((T.replaced entityId f).map fun p => (p.2, p.1)))
  /-- A version with one after it is stale. -/
  | stale (current : UInt64 × String) (hrestates : T.restates entityId f = false)
      (hlater : T.hasLater entityId recordedAt f = true) :
      Reports T entityId recordedAt f (.stale current)

/-- A version that agrees with its registration stands where the registration says. -/
theorem standing_eq {T : FactTables} {entityId : String} (recordedAt : UInt64)
    {f : FactRegistration} {n : FactVersion}
    (hn : (T.inserted entityId recordedAt f).versions.find? (f.factKey, f.memoryId) = some n) :
    T.standing recordedAt f = n.chainKey := by
  obtain ⟨hmem, hkey⟩ := Table.find?_eq_some.mp hn
  unfold standing
  rcases T.inserted_cases entityId recordedAt f with ⟨-, -, -, hsame⟩ | ⟨hnew, hrows⟩
  · rw [hsame] at hn
    simp only [hn]
  · have hnone : T.versions.find? (f.factKey, f.memoryId) = none := Table.find?_eq_none.mpr hnew
    simp only [hnone]
    rw [hrows] at hmem
    rcases List.mem_append.mp hmem with hmem | hmem
    · exact absurd hkey (hnew n hmem)
    · rw [List.mem_singleton.mp hmem]
      rfl

/-- A placed version has a successor exactly if the fact has a version after its place. -/
theorem successor_isNone {T : FactTables} {entityId : String} (recordedAt : UInt64)
    {f : FactRegistration} {n : FactVersion}
    (hn : (T.inserted entityId recordedAt f).versions.find? (f.factKey, f.memoryId) = some n)
    (htime : n.timestampMs = f.timestamp.toInt64) :
    ((T.inserted entityId recordedAt f).neighbours entityId f n).2.isNone =
      !T.hasLater entityId recordedAt f := by
  have hlater : (((T.inserted entityId recordedAt f).timeline f.factKey entityId).filter fun v =>
      n.chainKey < v.chainKey) =
        (T.timeline f.factKey entityId).filter fun v => n.chainKey < v.chainKey := by
    rcases T.inserted_cases entityId recordedAt f with ⟨-, -, -, hsame⟩ | ⟨hnew, hrows⟩
    · rw [timeline_congr hsame]
    · have hkeyed := (T.inserted entityId recordedAt f).keyed_chainKey f.factKey entityId
      have hchain : (T.inserted entityId recordedAt f).chain f.factKey entityId =
          T.chain f.factKey entityId ++
            [(newVersion entityId recordedAt f).withRowid T.versions.nextRowid] := by
        unfold chain
        rw [hrows, List.filter_append]
        simp [newVersion]
      -- The new row is the version itself, which is not after itself.
      have hlast : n = (newVersion entityId recordedAt f).withRowid T.versions.nextRowid := by
        obtain ⟨hmem, hkey⟩ := Table.find?_eq_some.mp hn
        rw [hrows] at hmem
        rcases List.mem_append.mp hmem with hmem | hmem
        · exact absurd hkey (hnew n hmem)
        · exact List.mem_singleton.mp hmem
      unfold timeline
      rw [← hkeyed.orderBy_filter, hchain, List.filter_append, ← hlast]
      rw [List.filter_cons_of_neg (by simp), List.filter_nil, List.append_nil,
        (T.keyed_chainKey f.factKey entityId).orderBy_filter]
  rw [neighbours_eq entityId htime, hlater]
  unfold hasLater
  rw [standing_eq recordedAt hn, Bool.eq_iff_iff]
  simp

/-- The status that the loop gives a registration: the pointer of a stale entry is left open. -/
def turnStatus (T : FactTables) (entityId : String) (recordedAt : UInt64) (f : FactRegistration) :
    FactVersionStatus :=
  if T.restates entityId f then
    match T.covering f.factKey entityId f.timestamp with
    | some version => .confirmed (version.timestamp, version.memoryId)
    | none => .stale (0, "")
  else
    match (T.inserted entityId recordedAt f).versions.find? (f.factKey, f.memoryId) with
    | some n => T.placedStatus entityId recordedAt f n
    | none => .stale (0, "")

/-- One round of the loop gives its status, with the pointer of a stale entry deferred. -/
theorem registerFact_turn (entityId : String) (recordedAt : UInt64) (s : Progress)
    (f : FactRegistration) :
    ∃ deferred, registerFact entityId recordedAt s f =
        .ok ⟨s.tables.registeredFact entityId recordedAt f,
          s.statuses ++ [s.tables.turnStatus entityId recordedAt f], s.deferred ++ deferred⟩ ∧
      ∀ d ∈ deferred, d.1 = s.statuses.length ∧
        s.tables.turnStatus entityId recordedAt f = .stale (0, "") := by
  unfold turnStatus
  -- A fact that restates defers nothing.
  cases hr : s.tables.restates entityId f with
  | true =>
    obtain ⟨version, hcovering, hstep⟩ := registerFact_restates hr recordedAt
    refine ⟨[], hstep.trans ?_, by simp⟩
    unfold registeredFact
    simp only [hr, if_true, hcovering, List.append_nil]
  | false =>
    obtain ⟨n, hn, hstep⟩ := registerFact_places hr recordedAt
    obtain ⟨n', hn', htables⟩ := registeredFact_of_not_restates hr recordedAt
    obtain rfl : n = n' := Option.some.inj (hn.symm.trans hn')
    simp only [hn, Bool.false_eq_true, if_false]
    refine ⟨_, by rw [htables]; exact hstep, fun d hd => ?_⟩
    -- The status is deferred if there is a later version.
    unfold placedStatus
    split at hd
    · exact absurd hd List.not_mem_nil
    · rename_i hlater
      rw [if_neg hlater]
      exact ⟨by rw [List.mem_singleton.mp hd], rfl⟩

/-- What is reported of a registration that the tables admit. -/
theorem reports_turnStatus {T : FactTables} {entityId : String} (recordedAt : UInt64)
    {f : FactRegistration} (h : T.restates entityId f = true ∨ T.Agrees entityId f) :
    T.Reports entityId recordedAt f (T.turnStatus entityId recordedAt f) := by
  unfold turnStatus
  cases hr : T.restates entityId f with
  | true =>
    obtain ⟨version, hcovering, -⟩ := registerFact_restates (s := ⟨T, [], []⟩) hr recordedAt
    have hcovering : T.covering f.factKey entityId f.timestamp = some version := hcovering
    simp only [if_true, hcovering]
    exact .confirmed version hr hcovering
  | false =>
    obtain ⟨n, hn, -⟩ := registeredFact_of_not_restates hr recordedAt
    have hagrees : T.Agrees entityId f := h.resolve_left (by simp [hr])
    simp only [hn, Bool.false_eq_true, if_false]
    unfold placedStatus
    rw [successor_isNone recordedAt hn (hagrees.stored hn).2]
    cases hlater : T.hasLater entityId recordedAt f with
    | true => exact .stale _ hr hlater
    | false => exact .current hr hlater

/-! ## Pointers -/

/-- The pointer of a stale entry has no part in what is reported. -/
theorem Reports.congr {T : FactTables} {entityId : String} {recordedAt : UInt64}
    {f : FactRegistration} {status status' : FactVersionStatus}
    (h : T.Reports entityId recordedAt f status) (hsame : status'.unresolved = status.unresolved) :
    T.Reports entityId recordedAt f status' := by
  cases h with
  | confirmed version hrestates hcovering =>
    cases status' <;> simp [FactVersionStatus.unresolved] at hsame
    rw [hsame]
    exact .confirmed version hrestates hcovering
  | current hrestates hlater =>
    cases status' <;> simp [FactVersionStatus.unresolved] at hsame
    rw [hsame]
    exact .current hrestates hlater
  | stale current hrestates hlater =>
    cases status' <;> simp [FactVersionStatus.unresolved] at hsame
    exact .stale _ hrestates hlater

/-- The repair loop sets pointers of stale entries only. -/
theorem resolveDeferred_unresolved {T T' : FactTables} {statuses statuses' : List FactVersionStatus}
    {deferred : List (ℕ × String × String)}
    (h : T.resolveDeferred statuses deferred = .ok (T', statuses'))
    (hdeferred : ∀ d ∈ deferred, (statuses.map FactVersionStatus.unresolved)[d.1]? =
      some (.stale (0, ""))) :
    statuses'.map FactVersionStatus.unresolved = statuses.map FactVersionStatus.unresolved := by
  induction deferred generalizing T statuses with
  | nil =>
    unfold resolveDeferred at h
    rw [(Prod.mk.inj (Except.ok.inj h)).2]
  | cons d rest ih =>
    unfold resolveDeferred at h
    cases hsettle : T.settleCurrent d.2.1 d.2.2 with
    | error e =>
      rw [hsettle] at h
      exact absurd h (by simp [bind, Except.bind])
    | ok r =>
      rw [hsettle] at h
      -- Settling sets a status that was deferred before, so what is unresolved is the same.
      have hset : (statuses.set d.1 (.stale (r.2.2, r.2.1))).map FactVersionStatus.unresolved =
          statuses.map FactVersionStatus.unresolved := by
        rw [List.map_set]
        refine List.ext_getElem? fun i => ?_
        rw [List.getElem?_set]
        split
        · rename_i hi
          rw [← hi, hdeferred d List.mem_cons_self]
          have hlt : d.1 < statuses.length := by
            by_contra hge
            have hnone := hdeferred d List.mem_cons_self
            rw [List.getElem?_eq_none (by simpa using hge)] at hnone
            exact absurd hnone (by simp)
          simp [hlt, FactVersionStatus.unresolved]
        · rfl
      rw [← hset]
      refine ih h fun d' hd' => ?_
      rw [hset]
      exact hdeferred d' (List.mem_cons_of_mem _ hd')

/-! ## Runs of registrations -/

/-- The tables after one fact. -/
def registeredIngest (recordedAt : UInt64) (T : FactTables) (fact : IngestFactRegistration) :
    FactTables :=
  T.registeredFact fact.entityId recordedAt fact.registration

/-- A run of registrations with the statuses they get. -/
inductive Reported (recordedAt : UInt64) :
    FactTables → List (FactVersionStatus × IngestFactRegistration) → FactTables → Prop
  | nil (T : FactTables) : Reported recordedAt T [] T
  | cons {T T' : FactTables} {status : FactVersionStatus} {fact : IngestFactRegistration}
      {rest : List (FactVersionStatus × IngestFactRegistration)}
      (hstatus : T.Reports fact.entityId recordedAt fact.registration status)
      (hrest : Reported recordedAt (registeredIngest recordedAt T fact) rest T') :
      Reported recordedAt T ((status, fact) :: rest) T'

/-- Runs compose. -/
theorem Reported.append {recordedAt : UInt64} {T T' T'' : FactTables}
    {outcomes outcomes' : List (FactVersionStatus × IngestFactRegistration)}
    (h : Reported recordedAt T outcomes T') (h' : Reported recordedAt T' outcomes' T'') :
    Reported recordedAt T (outcomes ++ outcomes') T'' := by
  induction h with
  | nil T => exact h'
  | cons hstatus _ ih => exact .cons hstatus (ih h')

/-- A run reports as well with other pointers in its stale entries. -/
theorem Reported.congr {recordedAt : UInt64} {T T' : FactTables}
    {facts : List IngestFactRegistration} {statuses statuses' : List FactVersionStatus}
    (h : Reported recordedAt T (statuses.zip facts) T')
    (hsame : statuses'.map FactVersionStatus.unresolved =
      statuses.map FactVersionStatus.unresolved) :
    Reported recordedAt T (statuses'.zip facts) T' := by
  induction facts generalizing T statuses statuses' with
  | nil =>
    rw [List.zip_nil_right] at h ⊢
    exact h
  | cons fact facts ih =>
    cases statuses with
    | nil =>
      rw [List.map_eq_nil_iff.mp hsame]
      exact h
    | cons status statuses =>
      cases statuses' with
      | nil => exact absurd hsame (by simp)
      | cons status' statuses' =>
        rw [List.map_cons, List.map_cons, List.cons.injEq] at hsame
        rw [List.zip_cons_cons] at h ⊢
        cases h with
        | cons hstatus hrest => exact .cons (hstatus.congr hsame.1) (ih hrest hsame.2)

/-- The tables after facts have been registered one after another. -/
def registeredFacts (T : FactTables) (recordedAt : UInt64) (facts : List IngestFactRegistration) :
    FactTables :=
  facts.foldl (registeredIngest recordedAt) T

/-- A fact restates, or agrees with the version stored under its key and memory. -/
def Admits (T : FactTables) (fact : IngestFactRegistration) : Prop :=
  T.restates fact.entityId fact.registration = true ∨ T.Agrees fact.entityId fact.registration

/-- Every fact is admitted by the tables it finds. -/
def AdmitsAll (T : FactTables) (recordedAt : UInt64) (facts : List IngestFactRegistration) : Prop :=
  EachStep (registeredIngest recordedAt) Admits T facts

end FactTables

open FactTables

/-- Facts that are admitted keep the chains linked. -/
theorem Chained.registeredFacts {T : FactTables} (hT : Chained T)
    {recordedAt : UInt64} {facts : List IngestFactRegistration}
    (h : T.AdmitsAll recordedAt facts) : Chained (T.registeredFacts recordedAt facts) :=
  h.invariant (fun _ _ hT hfact => hT.registeredFact hfact) hT

/-- The turns of facts. -/
def FactTables.turnsOf (T : FactTables) (recordedAt : UInt64)
    (facts : List IngestFactRegistration) : List (FactTables × IngestFactRegistration) :=
  turns (registeredIngest recordedAt) T facts

/-- The status that a fact gets at its turn. -/
def FactTables.ingestStatus (T : FactTables) (recordedAt : UInt64)
    (fact : IngestFactRegistration) : FactVersionStatus :=
  T.turnStatus fact.entityId recordedAt fact.registration

/-- The loop of a batch about an entity gives each of its facts the status of its turn. -/
theorem registerLoop_turns {entityId : String} (recordedAt : UInt64)
    {facts : List IngestFactRegistration} (hentity : ∀ fact ∈ facts, fact.entityId = entityId)
    {s : Progress} (hs : ∀ d ∈ s.deferred,
      (s.statuses.map FactVersionStatus.unresolved)[d.1]? = some (.stale (0, ""))) :
    ∃ deferred, (facts.map IngestFactRegistration.registration).foldlM
        (registerFact entityId recordedAt) s =
          .ok ⟨s.tables.registeredFacts recordedAt facts, s.statuses ++
            (s.tables.turnsOf recordedAt facts).map fun turn =>
              turn.1.ingestStatus recordedAt turn.2, deferred⟩ ∧
      ∀ d ∈ deferred, ((s.statuses ++ (s.tables.turnsOf recordedAt facts).map fun turn =>
          turn.1.ingestStatus recordedAt turn.2).map FactVersionStatus.unresolved)[d.1]? =
        some (.stale (0, "")) := by
  induction facts generalizing s with
  | nil =>
    refine ⟨s.deferred, by simp [registeredFacts, turnsOf, turns, pure, Except.pure], ?_⟩
    simpa [turnsOf, turns] using hs
  | cons fact facts ih =>
    have hfact := hentity fact List.mem_cons_self
    obtain ⟨deferred, hstep, hdeferred⟩ :=
      registerFact_turn entityId recordedAt s fact.registration
    obtain ⟨deferred', hloop, hdeferred'⟩ := ih
      (s := ⟨s.tables.registeredFact entityId recordedAt fact.registration,
        s.statuses ++ [s.tables.turnStatus entityId recordedAt fact.registration],
        s.deferred ++ deferred⟩)
      (fun g hg => hentity g (List.mem_cons_of_mem _ hg))
      (by
        intro d hd
        rw [List.map_append]
        rcases List.mem_append.mp hd with hd | hd
        · -- An entry that was deferred before is still at its place.
          have hold := hs d hd
          rw [List.getElem?_append_left]
          · exact hold
          · exact (List.getElem?_eq_some_iff.mp hold).1
        · obtain ⟨hindex, hstale⟩ := hdeferred d hd
          rw [hindex, hstale, List.getElem?_append_right (by simp)]
          simp [FactVersionStatus.unresolved])
    -- The turns of the list are the first one and those from its tables.
    have hturns : s.tables.turnsOf recordedAt (fact :: facts) = (s.tables, fact) ::
        (s.tables.registeredFact entityId recordedAt fact.registration).turnsOf recordedAt
          facts := by
      rw [← hfact]
      rfl
    have hstatus : s.tables.ingestStatus recordedAt fact =
        s.tables.turnStatus entityId recordedAt fact.registration := by rw [← hfact]; rfl
    have htables : s.tables.registeredFacts recordedAt (fact :: facts) =
        (s.tables.registeredFact entityId recordedAt fact.registration).registeredFacts recordedAt
          facts := by
      rw [← hfact]
      rfl
    refine ⟨deferred', ?_, ?_⟩
    · rw [List.map_cons, List.foldlM_cons, hstep]
      refine hloop.trans ?_
      rw [htables, hturns, List.map_cons, hstatus, List.append_assoc]
      rfl
    · rw [hturns, List.map_cons, hstatus, List.append_cons]
      exact hdeferred'

/-- Facts that are admitted at their turns make a run with the statuses of their turns. -/
theorem reported_turns {recordedAt : UInt64} {T : FactTables}
    {facts : List IngestFactRegistration} (h : T.AdmitsAll recordedAt facts) :
    Reported recordedAt T (((T.turnsOf recordedAt facts).map fun turn =>
      turn.1.ingestStatus recordedAt turn.2).zip facts) (T.registeredFacts recordedAt facts) := by
  induction facts generalizing T with
  | nil => exact .nil T
  | cons fact facts ih =>
    obtain ⟨hfirst, hrest⟩ := EachStep.cons_iff.mp h
    exact .cons (reports_turnStatus recordedAt hfirst) (ih hrest)

/-- The statuses of a batch about an entity are those of its turns, up to the pointers of stale
entries. -/
theorem registerFactVersionsTx_turns {T T' : FactTables} {entityId : String} {recordedAt : UInt64}
    {facts : List IngestFactRegistration} {statuses : List FactVersionStatus}
    (hentity : ∀ fact ∈ facts, fact.entityId = entityId)
    (h : T.registerFactVersionsTx entityId (facts.map IngestFactRegistration.registration)
      recordedAt = .ok (T', statuses)) :
    statuses.map FactVersionStatus.unresolved =
      ((T.turnsOf recordedAt facts).map fun turn =>
        turn.1.ingestStatus recordedAt turn.2).map FactVersionStatus.unresolved := by
  obtain ⟨deferred, hloop, hdeferred⟩ :=
    registerLoop_turns recordedAt hentity (s := ⟨T, [], []⟩) (by simp)
  unfold registerFactVersionsTx at h
  rw [hloop] at h
  rw [List.nil_append] at hdeferred
  exact resolveDeferred_unresolved h hdeferred

/-- The loop of a batch about an entity registers its facts. -/
theorem registeredAll_ingest {T : FactTables} {entityId : String} {recordedAt : UInt64}
    {facts : List IngestFactRegistration} (hentity : ∀ fact ∈ facts, fact.entityId = entityId) :
    T.registeredAll entityId recordedAt (facts.map IngestFactRegistration.registration) =
      T.registeredFacts recordedAt facts := by
  unfold registeredAll registeredFacts
  rw [List.foldl_map]
  refine List.foldl_ext _ _ _ fun T fact hfact => ?_
  rw [registeredIngest, hentity fact hfact]

/-- A batch of admitted facts about an entity is a run of its registrations. -/
theorem registerFactVersionsTx_reported {T : FactTables} (hT : Chained T) {entityId : String}
    {recordedAt : UInt64} {facts : List IngestFactRegistration}
    (hentity : ∀ fact ∈ facts, fact.entityId = entityId) (h : T.AdmitsAll recordedAt facts) :
    ∃ statuses, T.registerFactVersionsTx entityId
        (facts.map IngestFactRegistration.registration) recordedAt =
          .ok (T.registeredFacts recordedAt facts, statuses) ∧
      statuses.length = facts.length ∧
      Reported recordedAt T (statuses.zip facts) (T.registeredFacts recordedAt facts) := by
  have htables := @registeredAll_ingest T _ recordedAt _ hentity
  have hchained := hT.registeredFacts h
  rw [← htables] at hchained
  obtain ⟨statuses, htx, hlength⟩ := hchained.registerFactVersionsTx
  rw [htables] at htx
  exact ⟨statuses, htx, by rw [hlength, List.length_map],
    (reported_turns h).congr (registerFactVersionsTx_turns hentity htx)⟩

/-- The groups of a batch, one after another, are a run of their registrations. -/
theorem registerGroups_reported {T : FactTables} (hT : Chained T) {recordedAt : UInt64}
    {groups : List (String × List IngestFactRegistration)}
    (hgroups : ∀ group ∈ groups, ∀ fact ∈ group.2, fact.entityId = group.1)
    (h : T.AdmitsAll recordedAt (groups.flatMap Prod.snd))
    (outcomes : List (FactVersionStatus × IngestFactRegistration)) :
    ∃ new, groups.foldlM (registerGroup recordedAt) (T, outcomes) =
        .ok (T.registeredFacts recordedAt (groups.flatMap Prod.snd), outcomes ++ new) ∧
      new.map Prod.snd = groups.flatMap Prod.snd ∧
      Reported recordedAt T new (T.registeredFacts recordedAt (groups.flatMap Prod.snd)) := by
  induction groups generalizing T outcomes with
  | nil => exact ⟨[], by simp [registeredFacts, pure, Except.pure], rfl, .nil _⟩
  | cons group groups ih =>
    rw [List.flatMap_cons] at h ⊢
    obtain ⟨hfirst, hrest⟩ := h.append
    obtain ⟨statuses, htx, hlength, hreported⟩ := registerFactVersionsTx_reported hT
      (hgroups group List.mem_cons_self) hfirst
    obtain ⟨new, hloop, hfacts, hreported'⟩ := ih (hT.registeredFacts hfirst)
      (fun g hg => hgroups g (List.mem_cons_of_mem _ hg)) hrest
      (outcomes ++ statuses.zip group.2)
    have htables : T.registeredFacts recordedAt (group.2 ++ groups.flatMap Prod.snd) =
        (T.registeredFacts recordedAt group.2).registeredFacts recordedAt
          (groups.flatMap Prod.snd) := List.foldl_append
    refine ⟨statuses.zip group.2 ++ new, ?_, ?_, ?_⟩
    -- The group is registered, and its statuses go along with its facts.
    · have hgroup : registerGroup recordedAt (T, outcomes) group =
          .ok (T.registeredFacts recordedAt group.2, outcomes ++ statuses.zip group.2) := by
        unfold registerGroup
        rw [htx]
        rfl
      rw [List.foldlM_cons, hgroup, htables, ← List.append_assoc]
      exact hloop
    · rw [List.map_append, List.map_snd_zip (by omega), hfacts]
    · rw [htables]
      exact hreported.append hreported'

/-! ## The facts of an ingest -/

/-- The facts of a batch in the order in which they are registered. -/
def orderedFacts (order : HashOrder) (facts : List IngestFactRegistration) :
    List IngestFactRegistration :=
  (groupFacts order facts).flatMap Prod.snd

/-- The facts of a batch are registered in some order. -/
theorem mem_orderedFacts {order : HashOrder} {facts : List IngestFactRegistration}
    {fact : IngestFactRegistration} : fact ∈ orderedFacts order facts ↔ fact ∈ facts := by
  unfold orderedFacts groupFacts
  rw [List.mem_flatMap]
  constructor
  · rintro ⟨group, hgroup, hfact⟩
    obtain ⟨entityId, -, rfl⟩ := List.mem_map.mp hgroup
    exact (List.mem_filter.mp hfact).1
  · intro hfact
    refine ⟨_, List.mem_map.mpr ⟨fact.entityId, ?_, rfl⟩,
      List.mem_filter.mpr ⟨hfact, decide_eq_true rfl⟩⟩
    rw [(order.iterate_perm _).mem_iff, List.mem_dedup]
    exact List.mem_map_of_mem hfact

/-- The facts of a group are about its entity. -/
theorem entityId_of_mem_group {order : HashOrder} {facts : List IngestFactRegistration}
    {group : String × List IngestFactRegistration} (hgroup : group ∈ groupFacts order facts)
    {fact : IngestFactRegistration} (hfact : fact ∈ group.2) : fact.entityId = group.1 := by
  obtain ⟨entityId, -, rfl⟩ := List.mem_map.mp hgroup
  exact of_decide_eq_true (List.mem_filter.mp hfact).2

/-- The admitted facts of an ingest are registered one after another, and what becomes of each
decides what is written to the graph and to the cards. -/
theorem registerFactsTx_reported {S : TenantStore} (hS : Chained S.facts) (order : HashOrder)
    {recordedAt : UInt64} {facts : List IngestFactRegistration}
    (h : S.facts.AdmitsAll recordedAt (orderedFacts order facts)) :
    ∃ outcomes, registerFactsTx order recordedAt S facts = .ok ({ S with
          facts := S.facts.registeredFacts recordedAt (orderedFacts order facts)
          edges := insertGraphEntriesTx S.edges (outcomes.flatMap fun x => graphEntries x.1 x.2) },
        outcomes.flatMap fun x => latestUpdates x.1 x.2) ∧
      outcomes.map Prod.snd = orderedFacts order facts ∧
      Reported recordedAt S.facts outcomes
        (S.facts.registeredFacts recordedAt (orderedFacts order facts)) := by
  obtain ⟨outcomes, hloop, hfacts, hreported⟩ :=
    registerGroups_reported hS (fun _ hgroup _ hfact => entityId_of_mem_group hgroup hfact) h []
  refine ⟨outcomes, ?_, hfacts, hreported⟩
  unfold registerFactsTx
  rw [hloop]
  rfl

end Tellodb
