import Tellodb.Index.Docs
import Tellodb.Relational.Cut
import Tellodb.Storage.Tasks

/-!
# The core profile of an entity

A core profile is to list the newest memories of its entity, each with the excerpt of its latest
content. The update of a profile leaves a memory that it lists alone, so that a consolidation can
run twice; then what it lists of a memory is the content that came first to be consolidated. The
profile is right in whatever order the consolidations run, and however often, if the memories that
come again with another fact are too old to be listed (`profileFacts_of_run`). -/

namespace Tellodb

open Relational

/-! ## What a profile is to list -/

/-- The excerpt of a memory. -/
def IngestConsolidationTask.excerpt (task : IngestConsolidationTask) : String :=
  truncateRouterValue (normalizeFactText task.textualContent) 280

/-- The fact that a memory makes. A content without words makes none. -/
def IngestConsolidationTask.fact (task : IngestConsolidationTask) : Option ProfileFact :=
  if task.excerpt.isEmpty then none
  else some ⟨some task.memoryId, some task.timestamp, task.excerpt⟩

/-- A fact names its memory. -/
theorem memoryId_of_fact {task : IngestConsolidationTask} {f : ProfileFact}
    (h : task.fact = some f) :
    f.memoryId = some task.memoryId ∧ f.rank = task.timestamp.toNat + 1 := by
  unfold IngestConsolidationTask.fact at h
  split at h
  · exact absurd h (by simp)
  · rw [← Option.some.inj h]
    exact ⟨rfl, rfl⟩

/-- The newest facts of a list. -/
def newestFacts (facts : List ProfileFact) : List ProfileFact :=
  (newestFirst facts).take maxProfileFacts

/-- The facts of the core profile of an entity. -/
def TenantStore.profileFacts (S : TenantStore) (entityId : String) : List ProfileFact :=
  ((S.coreProfiles.find? entityId).map fun row => row.profile.facts).getD []

/-- The last consolidation of each memory. -/
def latestTasks (arrived : List IngestConsolidationTask) : List IngestConsolidationTask :=
  arrived.pwFilter fun a b => a.memoryId ≠ b.memoryId

/-- The facts of the latest contents of an entity's memories. -/
def latestFacts (arrived : List IngestConsolidationTask) (entityId : String) :
    List ProfileFact :=
  ((latestTasks arrived).filter fun task => task.entityId = entityId).filterMap
    IngestConsolidationTask.fact

/-- The event times of distinct memories are distinct. -/
def EventTimesApart (arrived : List IngestConsolidationTask) : Prop :=
  ∀ a ∈ arrived, ∀ b ∈ arrived, a.memoryId ≠ b.memoryId → a.timestamp ≠ b.timestamp

instance (arrived : List IngestConsolidationTask) : Decidable (EventTimesApart arrived) :=
  inferInstanceAs (Decidable (∀ a ∈ arrived, ∀ b ∈ arrived, _ → _))

/-! ## The condition -/

/-- A memory always comes with one fact, of one entity. -/
def Unchanged (arrived : List IngestConsolidationTask) (memoryId : String) : Prop :=
  ∀ a ∈ arrived, ∀ b ∈ arrived, a.memoryId = memoryId → b.memoryId = memoryId →
    a.entityId = b.entityId ∧ a.fact = b.fact

instance (arrived : List IngestConsolidationTask) (memoryId : String) :
    Decidable (Unchanged arrived memoryId) :=
  inferInstanceAs (Decidable (∀ a ∈ arrived, ∀ b ∈ arrived, _ → _ → _))

/-- A fact of a memory that always comes with one fact. -/
def ProfileFact.Settled (arrived : List IngestConsolidationTask) (f : ProfileFact) : Prop :=
  ∀ memoryId ∈ f.memoryId, Unchanged arrived memoryId

instance (arrived : List IngestConsolidationTask) (f : ProfileFact) :
    Decidable (f.Settled arrived) :=
  inferInstanceAs (Decidable (∀ memoryId ∈ f.memoryId, _))

/-- A memory that comes with several facts is, with each of them, older than as many settled facts
of the entity as a profile lists. -/
def KeepsProfiles (arrived : List IngestConsolidationTask) : Prop :=
  ∀ task ∈ arrived, ¬ Unchanged arrived task.memoryId → ∀ f ∈ task.fact,
    maxProfileFacts ≤ (((latestFacts arrived task.entityId).filter fun g =>
      g.Settled arrived).filter fun g => f.rank < g.rank).length

instance (arrived : List IngestConsolidationTask) : Decidable (KeepsProfiles arrived) :=
  inferInstanceAs (Decidable (∀ task ∈ arrived, _ → ∀ f ∈ task.fact, _))

/-! ## One consolidation -/

/-- The facts of an entity that some consolidations have entered, each under its memory once. -/
structure Enters (arrived : List IngestConsolidationTask) (entityId : String)
    (facts : List ProfileFact) : Prop where
  made : ∀ f ∈ facts, ∃ task ∈ arrived, task.entityId = entityId ∧ task.fact = some f
  keyed : Keyed ProfileFact.memoryId facts

section

variable {arrived : List IngestConsolidationTask} {entityId : String} {facts : List ProfileFact}

/-- Such facts have distinct places in time. -/
theorem Enters.keyed_rank (h : Enters arrived entityId facts) (htimes : EventTimesApart arrived) :
    Keyed (fun f => OrderDual.toDual f.rank) facts := by
  refine List.Nodup.map_on (fun f hf g hg hrank => ?_) h.keyed.nodup
  obtain ⟨a, ha, -, hfact⟩ := h.made f hf
  obtain ⟨b, hb, -, hfact'⟩ := h.made g hg
  obtain ⟨hid, htime⟩ := memoryId_of_fact hfact
  obtain ⟨hid', htime'⟩ := memoryId_of_fact hfact'
  by_cases hsame : a.memoryId = b.memoryId
  · exact h.keyed.eq_of_mem hf hg (by rw [hid, hid', hsame])
  · have hranks : f.rank = g.rank := hrank
    rw [htime, htime', Nat.succ_inj, UInt64.toNat_inj] at hranks
    exact absurd hranks (htimes a ha b hb hsame)

/-- A part of such facts. -/
theorem Enters.filter (h : Enters arrived entityId facts) (p : ProfileFact → Bool) :
    Enters arrived entityId (facts.filter p) :=
  ⟨fun f hf => h.made f (List.mem_filter.mp hf).1, h.keyed.filter p⟩

/-- The facts of the latest contents are such. -/
theorem enters_latestFacts (arrived : List IngestConsolidationTask) (entityId : String) :
    Enters arrived entityId (latestFacts arrived entityId) := by
  constructor
  · intro f hf
    obtain ⟨task, htask, hfact⟩ := List.mem_filterMap.mp hf
    obtain ⟨htask, hentity⟩ := List.mem_filter.mp htask
    exact ⟨task, List.pwFilter_subset _ htask, of_decide_eq_true hentity, hfact⟩
  · unfold Keyed latestFacts
    refine List.pairwise_map.mpr ?_
    refine List.Pairwise.filterMap IngestConsolidationTask.fact ?_
      ((List.pairwise_pwFilter arrived).filter _)
    intro a b hab f hf g hg
    rw [(memoryId_of_fact hf).1, (memoryId_of_fact hg).1]
    exact fun hsame => hab (Option.some.inj hsame)

end

/-- What a profile lists after a memory is taken up. -/
theorem facts_add (p : CoreProfile) (task : IngestConsolidationTask) (excerpt : String) :
    (p.add task excerpt).map CoreProfile.facts =
      if ∃ g ∈ p.facts, g.memoryId = some task.memoryId then none
      else some (newestFacts (p.facts ++
        [⟨some task.memoryId, some task.timestamp, excerpt⟩])) := by
  unfold CoreProfile.add
  by_cases hlisted : ∃ g ∈ p.facts, g.memoryId = some task.memoryId
  · rw [if_pos hlisted, if_pos (by simpa using hlisted)]
    rfl
  · rw [if_neg hlisted, if_neg (by simpa using hlisted)]
    rfl

/-- What the profiles list after one of them is written. -/
theorem profileFacts_insertOrReplace (S : TenantStore) (row : CoreProfileRow)
    (entityId : String) :
    TenantStore.profileFacts { S with coreProfiles := S.coreProfiles.insertOrReplace row }
        entityId =
      if row.entityId = entityId then row.profile.facts else S.profileFacts entityId := by
  unfold TenantStore.profileFacts
  rw [Table.find?_insertOrReplace]
  split <;> rfl

/-- What a profile lists after a consolidation: a memory that it lists stays as it is, another one
is taken up. -/
theorem profileFacts_updateCoreProfileHeuristic (now : UInt64) (S : TenantStore)
    (task : IngestConsolidationTask) (entityId : String) :
    (S.updateCoreProfileHeuristic now task).profileFacts entityId =
      task.fact.elim (S.profileFacts entityId) fun f =>
        if entityId ≠ task.entityId ∨ ∃ g ∈ S.profileFacts entityId, g.memoryId = f.memoryId then
          S.profileFacts entityId
        else newestFacts (S.profileFacts entityId ++ [f]) := by
  unfold TenantStore.updateCoreProfileHeuristic IngestConsolidationTask.fact
    IngestConsolidationTask.excerpt
  dsimp only
  generalize truncateRouterValue (normalizeFactText task.textualContent) 280 = excerpt
  -- A memory without text has no fact.
  by_cases hempty : excerpt.isEmpty = true
  · rw [if_pos hempty, if_pos hempty, Option.elim_none]
  rw [if_neg hempty, if_neg hempty, Option.elim_some]
  have hfacts : (((S.coreProfiles.find? task.entityId).map CoreProfileRow.profile).getD
      task.profile).facts = S.profileFacts task.entityId := by
    unfold TenantStore.profileFacts
    cases S.coreProfiles.find? task.entityId <;> rfl
  generalize ((S.coreProfiles.find? task.entityId).map CoreProfileRow.profile).getD task.profile =
    p at hfacts
  have hadd := facts_add p task excerpt
  rw [hfacts] at hadd
  -- A memory that is listed is not added again.
  cases hprofile : p.add task excerpt with
  | none =>
    rw [hprofile, Option.map_none] at hadd
    have hlisted : ∃ g ∈ S.profileFacts task.entityId, g.memoryId = some task.memoryId := by
      by_contra hnot
      rw [if_neg hnot] at hadd
      exact absurd hadd (by simp)
    refine (if_pos ?_).symm
    by_cases hentity : entityId = task.entityId
    · exact .inr (hentity ▸ hlisted)
    · exact .inl hentity
  | some profile =>
    rw [hprofile, Option.map_some] at hadd
    have hnot : ¬ ∃ g ∈ S.profileFacts task.entityId, g.memoryId = some task.memoryId := by
      intro hlisted
      rw [if_pos hlisted] at hadd
      exact absurd hadd (by simp)
    rw [if_neg hnot] at hadd
    refine (profileFacts_insertOrReplace S ⟨task.entityId, profile, now⟩ entityId).trans ?_
    dsimp only
    -- Only the profile of the entity is written.
    by_cases hentity : entityId = task.entityId
    · subst hentity
      rw [if_pos rfl, if_neg (not_or.mpr ⟨fun hne => hne rfl, hnot⟩)]
      exact Option.some.inj hadd
    · rw [if_neg (Ne.symm hentity), if_pos (.inl hentity)]

/-- The profiles list the newest of the facts that consolidations have entered. -/
structure Entering (arrived : List IngestConsolidationTask) (entered : String → List ProfileFact)
    (S : TenantStore) : Prop where
  profiles : ∀ entityId, S.profileFacts entityId = newestFacts (entered entityId)
  enters : ∀ entityId, Enters arrived entityId (entered entityId)

/-- If a memory always comes with one fact, this is entered. -/
def Entered (arrived : List IngestConsolidationTask) (entered : String → List ProfileFact)
    (memoryId : String) : Prop :=
  Unchanged arrived memoryId → ∀ task ∈ arrived, task.memoryId = memoryId → ∀ f ∈ task.fact,
    f ∈ entered task.entityId

section

variable {arrived : List IngestConsolidationTask} {entered : String → List ProfileFact}
  {S : TenantStore} {task : IngestConsolidationTask}

/-- The newest facts are some of the list. -/
theorem mem_newestFacts {facts : List ProfileFact} {f : ProfileFact} (h : f ∈ newestFacts facts) :
    f ∈ facts :=
  (mem_orderBy _ _ _).mp (List.mem_of_mem_take h)

/-- A memory whose fact is entered under its entity. -/
theorem entered_of_mem {f : ProfileFact} (htask : task ∈ arrived) (hfact : task.fact = some f)
    (hf : f ∈ entered task.entityId) : Entered arrived entered task.memoryId := by
  intro hsame other hother hid g hg
  obtain ⟨hentity, hfacts⟩ := hsame other hother task htask hid rfl
  have hgf : g = f := Option.some.inj ((Option.mem_def.mp hg).symm.trans (hfacts.trans hfact))
  rw [hgf, hentity]
  exact hf

/-- What is entered after a memory is taken up: its fact takes the place of what there was of it. -/
def takenUp (entered : String → List ProfileFact) (entityId : String) (f : ProfileFact) :
    String → List ProfileFact :=
  Function.update entered entityId
    ((entered entityId).filter (fun g => g.memoryId ≠ f.memoryId) ++ [f])

/-- A fact is entered when its memory is taken up. -/
theorem mem_takenUp (entered : String → List ProfileFact) (entityId : String) (f : ProfileFact) :
    f ∈ takenUp entered entityId f entityId := by
  rw [takenUp, Function.update_self]
  exact List.mem_append_right _ List.mem_cons_self

/-- A fact of another memory stays entered. -/
theorem mem_takenUp_of_ne {f g : ProfileFact} {entityId entityId' : String}
    (hg : g ∈ entered entityId') (hne : g.memoryId ≠ f.memoryId) :
    g ∈ takenUp entered entityId f entityId' := by
  unfold takenUp
  by_cases hentity : entityId' = entityId
  · subst hentity
    rw [Function.update_self]
    exact List.mem_append_left _ (List.mem_filter.mpr ⟨hg, decide_eq_true hne⟩)
  · rw [Function.update_of_ne hentity]
    exact hg

/-- A memory that was entered stays so when one is taken up. -/
theorem Entered.takenUp {memoryId : String} (h : Entered arrived entered memoryId)
    (htask : task ∈ arrived) {f : ProfileFact} (hfact : task.fact = some f) :
    Entered arrived (takenUp entered task.entityId f) memoryId := by
  intro hsame other hother hid g hg
  by_cases hids : g.memoryId = f.memoryId
  · -- It is the memory that is taken up, and comes with the same fact.
    have hother' : other.memoryId = task.memoryId := Option.some.inj
      ((memoryId_of_fact hg).1.symm.trans (hids.trans (memoryId_of_fact hfact).1))
    obtain ⟨hentity, hfacts⟩ := hsame other hother task htask hid (hother' ▸ hid)
    have hgf : g = f := Option.some.inj (Eq.trans (Eq.symm hg) (hfacts.trans hfact))
    rw [hgf, hentity]
    exact mem_takenUp entered task.entityId f
  · exact mem_takenUp_of_ne (h hsame other hother hid g hg) hids

/-- A memory that is not listed is taken up. -/
theorem Entering.takeUp (htimes : EventTimesApart arrived) (h : Entering arrived entered S)
    (htask : task ∈ arrived) {f : ProfileFact} (hfact : task.fact = some f)
    (hnew : ¬ ∃ g ∈ S.profileFacts task.entityId, g.memoryId = f.memoryId) (now : UInt64) :
    Entering arrived (takenUp entered task.entityId f) (S.updateCoreProfileHeuristic now task) := by
  have henters := h.enters task.entityId
  have hkept := henters.filter fun g => g.memoryId ≠ f.memoryId
  have hall : Enters arrived task.entityId
      ((entered task.entityId).filter (fun g => g.memoryId ≠ f.memoryId) ++ [f]) := by
    refine ⟨fun g hg => ?_, hkept.keyed.append fun g hg =>
      of_decide_eq_true (List.mem_filter.mp hg).2⟩
    rcases List.mem_append.mp hg with hold | hlast
    · exact hkept.made g hold
    · exact ⟨task, htask, rfl, List.mem_singleton.mp hlast ▸ hfact⟩
  -- What is left out was not among the newest.
  have hlisted : newestFacts ((entered task.entityId).filter fun g => g.memoryId ≠ f.memoryId) =
      newestFacts (entered task.entityId) :=
    (henters.keyed_rank htimes).take_orderBy_filter fun g hg =>
      decide_eq_true fun hid => hnew ⟨g, h.profiles task.entityId ▸ hg, hid⟩
  unfold Tellodb.takenUp
  constructor
  · intro entityId
    rw [profileFacts_updateCoreProfileHeuristic, hfact, Option.elim_some]
    by_cases hentity : entityId = task.entityId
    · subst hentity
      rw [if_neg (not_or.mpr ⟨fun hne => hne rfl, hnew⟩), Function.update_self, h.profiles,
        ← hlisted]
      exact (hall.keyed_rank htimes).take_orderBy_append maxProfileFacts
    · rw [if_pos (.inl hentity), Function.update_of_ne hentity]
      exact h.profiles entityId
  · intro entityId
    by_cases hentity : entityId = task.entityId
    · subst hentity
      rw [Function.update_self]
      exact hall
    · rw [Function.update_of_ne hentity]
      exact h.enters entityId

/-- A consolidation enters the fact of its memory. -/
theorem Entering.update (htimes : EventTimesApart arrived) (h : Entering arrived entered S)
    (htask : task ∈ arrived) (now : UInt64) :
    ∃ entered', Entering arrived entered' (S.updateCoreProfileHeuristic now task) ∧
      (∀ memoryId, Entered arrived entered memoryId → Entered arrived entered' memoryId) ∧
      Entered arrived entered' task.memoryId := by
  -- What enters is decided by the first consolidation of the memory that has a fact.
  cases hfact : task.fact with
  | none =>
    refine ⟨entered, ⟨fun entityId => ?_, h.enters⟩, fun _ hmem => hmem, ?_⟩
    · rw [profileFacts_updateCoreProfileHeuristic, hfact]
      exact h.profiles entityId
    · intro hsame other hother hid g hg
      obtain ⟨-, hfacts⟩ := hsame other hother task htask hid rfl
      exact absurd (Eq.trans (Eq.symm hg) (hfacts.trans hfact)) (by simp)
  | some f =>
    by_cases hlisted : ∃ g ∈ S.profileFacts task.entityId, g.memoryId = f.memoryId
    · refine ⟨entered, ⟨fun entityId => ?_, h.enters⟩, fun _ hmem => hmem, ?_⟩
      · rw [profileFacts_updateCoreProfileHeuristic, hfact, Option.elim_some, ← h.profiles]
        refine if_pos ?_
        by_cases hentity : entityId = task.entityId
        · exact .inr (hentity ▸ hlisted)
        · exact .inl hentity
      · -- What is listed of the memory was entered before.
        obtain ⟨g, hg, hid⟩ := hlisted
        rw [h.profiles] at hg
        obtain ⟨first, hfirst, hentity, hmade⟩ :=
          (h.enters task.entityId).made g (mem_newestFacts hg)
        have hsame : first.memoryId = task.memoryId := Option.some.inj
          ((memoryId_of_fact hmade).1.symm.trans (hid.trans (memoryId_of_fact hfact).1))
        rw [← hsame]
        exact entered_of_mem hfirst hmade (hentity ▸ mem_newestFacts hg)
    -- The fact is taken up.
    · exact ⟨takenUp entered task.entityId f, h.takeUp htimes htask hfact hlisted now,
        fun _ hmem => hmem.takenUp htask hfact,
        entered_of_mem htask hfact (mem_takenUp entered task.entityId f)⟩

end

/-! ## The consolidations under way -/

/-- The consolidations that a task is to run, itself or after it has repaired its documents. -/
def Task.consolidation : Task → List IngestConsolidationTask
  | .committed ingest => ingest.consolidation
  | .failed ingest => ingest.consolidation
  | .read _ repairs => (repairs.map Ingest.consolidation).getD []
  | .gathered _ _ repairs => (repairs.map Ingest.consolidation).getD []
  | .indexed _ repairs => (repairs.map Ingest.consolidation).getD []
  | .written ingest => ingest.consolidation
  | .consolidating tasks => tasks
  | .consolidated _ tasks => tasks

/-- The memory that a task has consolidated and is to take off the queue. -/
def Task.finishes : Task → Option String
  | .consolidated memoryId _ => some memoryId
  | _ => none

/-- The consolidation that a row of the queue stands for. -/
def ConsolidationRow.task (r : ConsolidationRow) : IngestConsolidationTask :=
  ⟨r.entityId, r.memoryId, r.timestampMs.toUInt64, r.textualContent⟩

/-- A task leaves the profiles and the queue alone, or it runs a consolidation, or it takes one off
the queue. -/
theorem Task.advance_cases (order : HashOrder) (vectorsFail : Bool) (now : UInt64)
    (S : TenantStore) (task : Task) :
    ((task.advance order vectorsFail now S).1.coreProfiles = S.coreProfiles ∧
      (task.advance order vectorsFail now S).1.consolidationQueue = S.consolidationQueue ∧
      ∀ left ∈ (task.advance order vectorsFail now S).2,
        left.consolidation = task.consolidation ∧ left.finishes = none) ∨
    (∃ first rest, task = .consolidating (first :: rest) ∧
      task.advance order vectorsFail now S =
        (S.updateCoreProfileHeuristic now first, some (.consolidated first.memoryId rest))) ∨
    ∃ memoryId rest, task = .consolidated memoryId rest ∧
      task.advance order vectorsFail now S =
        (S.completeConsolidationTask memoryId, some (.consolidating rest)) := by
  -- Most stages touch neither the profiles nor the queue.
  have hstay : ∀ {left : Option Task}, (∀ next ∈ left,
      next.consolidation = task.consolidation ∧ next.finishes = none) →
      S.coreProfiles = S.coreProfiles ∧ S.consolidationQueue = S.consolidationQueue ∧
        ∀ next ∈ left, next.consolidation = task.consolidation ∧ next.finishes = none :=
    fun h => ⟨rfl, rfl, h⟩
  cases task with
  | committed ingest =>
    left
    cases hindex : S.ftsIndexBatch ingest.outcome.ftsBatch with
    | error e =>
      rw [Task.advance_committed_of_error hindex]
      exact hstay fun next hnext => Option.some.inj hnext ▸ ⟨rfl, rfl⟩
    | ok S' =>
      rw [Task.advance_committed_of_ok hindex]
      obtain ⟨docs, rfl⟩ := ftsIndexBatch_inv hindex
      refine ⟨rfl, rfl, fun next hnext => ?_⟩
      rw [← Option.some.inj hnext]
      cases vectorsFail <;> exact ⟨rfl, rfl⟩
  | failed ingest => exact .inl (hstay fun next hnext => Option.some.inj hnext ▸ ⟨rfl, rfl⟩)
  | read rows repairs => exact .inl (hstay fun next hnext => Option.some.inj hnext ▸ ⟨rfl, rfl⟩)
  | gathered rows docs repairs =>
    left
    cases hindex : S.ftsIndexBatch docs with
    | error e =>
      rw [Task.advance_gathered_of_error hindex]
      exact hstay fun next hnext => absurd hnext (by simp)
    | ok S' =>
      rw [Task.advance_gathered_of_ok hindex]
      obtain ⟨t, rfl⟩ := ftsIndexBatch_inv hindex
      refine ⟨rfl, rfl, fun next hnext => ?_⟩
      cases vectorsFail with
      | true => exact absurd hnext (by simp)
      | false => exact Option.some.inj hnext ▸ ⟨rfl, rfl⟩
  | indexed rows repairs =>
    refine .inl ⟨rfl, rfl, fun next hnext => ?_⟩
    obtain ⟨ingest, rfl, rfl⟩ := Option.map_eq_some_iff.mp hnext
    exact ⟨rfl, rfl⟩
  | written ingest =>
    exact .inl ⟨rfl, rfl, fun next hnext => Option.some.inj hnext ▸ ⟨rfl, rfl⟩⟩
  -- The two stages of the consolidation do.
  | consolidating tasks =>
    cases tasks with
    | nil => exact .inl (hstay fun next hnext => absurd hnext (by simp [Task.advance]))
    | cons first rest => exact .inr (.inl ⟨first, rest, rfl, rfl⟩)
  | consolidated memoryId rest => exact .inr (.inr ⟨memoryId, rest, rfl, rfl⟩)

/-- A task that fails goes on with some of its consolidations. -/
theorem Task.consolidation_fail {task left : Task} (h : task.fail = some left) :
    left.consolidation ⊆ task.consolidation ∧ left.finishes = none := by
  unfold Task.fail at h
  split at h
  · rw [← Option.some.inj h]
    exact ⟨fun _ ht => ht, rfl⟩
  · rw [← Option.some.inj h]
    exact ⟨fun _ ht => List.mem_cons_of_mem _ ht, rfl⟩
  · rw [← Option.some.inj h]
    exact ⟨fun _ ht => ht, rfl⟩
  · exact absurd h (by simp)

/-- The profiles list the newest of what the consolidations have entered. Each of those that have
arrived waits in the queue or is entered. -/
structure World.Profiled (all arrived : List IngestConsolidationTask)
    (entered : String → List ProfileFact) (w : World) : Prop where
  entering : Entering all entered w.store
  queued : ∀ r ∈ w.store.consolidationQueue.rows, r.task ∈ all
  carried : ∀ task ∈ w.tasks, task.consolidation ⊆ all
  awaited : ∀ task ∈ arrived, (w.store.consolidationQueue.find? task.memoryId).isSome ∨
    Entered all entered task.memoryId
  finishing : ∀ task ∈ w.tasks, ∀ memoryId ∈ task.finishes, Entered all entered memoryId

section

variable {all arrived : List IngestConsolidationTask} {entered : String → List ProfileFact}
  {w : World}

/-- A store with the same profiles. -/
theorem Entering.congr {S S' : TenantStore} (h : Entering all entered S)
    (hprofiles : S'.coreProfiles = S.coreProfiles) : Entering all entered S' := by
  refine ⟨fun entityId => ?_, h.enters⟩
  rw [← h.profiles, TenantStore.profileFacts, TenantStore.profileFacts, hprofiles]

/-- What is left of a store and a task after the next transaction of the task. -/
theorem World.Profiled.replace (h : w.Profiled all arrived entered)
    {entered' : String → List ProfileFact} {S' : TenantStore} {left : Option Task}
    (hentering : Entering all entered' S')
    (hkept : ∀ memoryId, Entered all entered memoryId → Entered all entered' memoryId)
    (hqueue : ∀ r ∈ S'.consolidationQueue.rows, r ∈ w.store.consolidationQueue.rows)
    (hwaits : ∀ memoryId, (w.store.consolidationQueue.find? memoryId).isSome →
      (S'.consolidationQueue.find? memoryId).isSome ∨ Entered all entered' memoryId)
    (hleft : ∀ next ∈ left, next.consolidation ⊆ all ∧
      ∀ memoryId ∈ next.finishes, Entered all entered' memoryId) (index : ℕ) :
    World.Profiled all arrived entered' ⟨S', replaceTask w.tasks index left⟩ := by
  refine ⟨hentering, fun r hr => h.queued r (hqueue r hr), fun task htask => ?_,
    fun task htask => ?_, fun task htask memoryId hmem => ?_⟩
  · rcases mem_replaceTask htask with hnext | hold
    · exact (hleft task hnext).1
    · exact h.carried task hold
  · rcases h.awaited task htask with hrow | hentered
    · exact hwaits task.memoryId hrow
    · exact .inr (hkept task.memoryId hentered)
  · rcases mem_replaceTask htask with hnext | hold
    · exact (hleft task hnext).2 memoryId hmem
    · exact hkept memoryId (h.finishing task hold memoryId hmem)

/-- The next transaction of a task keeps this. -/
theorem World.Profiled.advance (htimes : EventTimesApart all) (h : w.Profiled all arrived entered)
    {task : Task} (htask : task ∈ w.tasks) (index : ℕ) (order : HashOrder) (vectorsFail : Bool)
    (now : UInt64) : ∃ entered', World.Profiled all arrived entered'
      ⟨(task.advance order vectorsFail now w.store).1,
        replaceTask w.tasks index (task.advance order vectorsFail now w.store).2⟩ := by
  have hcarried := h.carried task htask
  -- The cases are those of the stages.
  rcases Task.advance_cases order vectorsFail now w.store task with
    ⟨hprofiles, hqueue, hleft⟩ | ⟨first, rest, rfl, hadvance⟩ | ⟨memoryId, rest, rfl, hadvance⟩
  · refine ⟨entered, h.replace (h.entering.congr hprofiles) (fun _ hm => hm) ?_ ?_
      (fun next hnext => ?_) index⟩
    · rw [hqueue]
      exact fun _ hr => hr
    · rw [hqueue]
      exact fun _ hrow => .inl hrow
    · obtain ⟨hsame, hnone⟩ := hleft next hnext
      rw [hsame, hnone]
      exact ⟨hcarried, fun _ hm => absurd hm (by simp)⟩
  -- The first of the tasks enters its fact, and the others are left.
  · have hall : first :: rest ⊆ all := hcarried
    obtain ⟨entered', hentering, hkept, hfirst⟩ :=
      h.entering.update htimes (hall List.mem_cons_self) now
    have hqueue : (w.store.updateCoreProfileHeuristic now first).consolidationQueue =
        w.store.consolidationQueue := by
      obtain ⟨t, ht⟩ := updateCoreProfileHeuristic_inv now w.store first
      rw [ht]
    rw [hadvance]
    dsimp only
    generalize w.store.updateCoreProfileHeuristic now first = S' at hentering hqueue
    refine ⟨entered', h.replace hentering hkept ?_ ?_ (fun next hnext => ?_) index⟩
    · rw [hqueue]
      exact fun _ hr => hr
    · rw [hqueue]
      exact fun _ hrow => .inl hrow
    · rw [← Option.some.inj hnext]
      exact ⟨fun t ht => hall (List.mem_cons_of_mem _ ht), fun m hm => Option.some.inj hm ▸ hfirst⟩
  · -- The memory was consolidated before it is taken off the queue.
    have hentered : Entered all entered memoryId := h.finishing _ htask memoryId rfl
    have hentering : Entering all entered (w.store.completeConsolidationTask memoryId) :=
      h.entering.congr rfl
    have hqueue : (w.store.completeConsolidationTask memoryId).consolidationQueue =
        w.store.consolidationQueue.deleteWhere fun r => r.memoryId = memoryId := rfl
    rw [hadvance]
    dsimp only
    generalize w.store.completeConsolidationTask memoryId = S' at hentering hqueue
    refine ⟨entered, h.replace hentering (fun _ hm => hm) (fun r hr => ?_) (fun other hrow => ?_)
      (fun next hnext => ?_) index⟩
    · rw [hqueue] at hr
      -- The queue loses the row of the memory, which has entered.
      exact (Table.mem_deleteWhere.mp hr).1
    · rw [hqueue, Table.find?_deleteWhere_key]
      by_cases hid : memoryId = other
      · exact .inr (hid ▸ hentered)
      · rw [if_neg hid]
        exact .inl hrow
    · rw [← Option.some.inj hnext]
      exact ⟨hcarried, fun m hm => absurd hm (by simp [Task.finishes])⟩

/-- A task that begins. -/
theorem World.Profiled.begin (h : w.Profiled all arrived entered) {task : Task}
    (htask : task.consolidation ⊆ all) (hfinishes : task.finishes = none) :
    World.Profiled all arrived entered ⟨w.store, w.tasks ++ [task]⟩ := by
  refine ⟨h.entering, h.queued, fun other hother => ?_, h.awaited,
    fun other hother memoryId hmem => ?_⟩
  · rcases List.mem_append.mp hother with hold | hnew
    · exact h.carried other hold
    · rw [List.mem_singleton.mp hnew]
      exact htask
  · rcases List.mem_append.mp hother with hold | hnew
    · exact h.finishing other hold memoryId hmem
    · rw [List.mem_singleton.mp hnew, hfinishes] at hmem
      exact absurd hmem (by simp)

/-- The row of a consolidation in the queue. -/
def IngestConsolidationTask.row (task : IngestConsolidationTask) : ConsolidationRow :=
  ⟨task.memoryId, task.entityId, task.timestamp.toInt64, task.textualContent⟩

/-- A row of the queue stands for the consolidation that it was made of. -/
theorem IngestConsolidationTask.task_row (task : IngestConsolidationTask) :
    task.row.task = task := by
  unfold IngestConsolidationTask.row ConsolidationRow.task
  rw [UInt64.toUInt64_toInt64]

/-- A memory of a batch is in the queue after it, and so is one that was there. -/
theorem isSome_find?_insertConsolidationTasksTx (S : TenantStore)
    (tasks : List IngestConsolidationTask) (memoryId : String) :
    ((insertConsolidationTasksTx S tasks).consolidationQueue.find? memoryId).isSome = true ↔
      (∃ task ∈ tasks, task.memoryId = memoryId) ∨
        (S.consolidationQueue.find? memoryId).isSome = true := by
  have hrows : (insertConsolidationTasksTx S tasks).consolidationQueue =
      (tasks.map IngestConsolidationTask.row).foldl (fun t row => t.insertOrReplace row)
        S.consolidationQueue := by
    rw [List.foldl_map]
    rfl
  have hsent : (tasks.map IngestConsolidationTask.row).filter (fun row => row.memoryId = memoryId) ≠
      [] ↔ ∃ task ∈ tasks, task.memoryId = memoryId := by
    constructor
    · intro hne
      obtain ⟨row, hrow⟩ := List.exists_mem_of_ne_nil _ hne
      obtain ⟨hrow, hid⟩ := List.mem_filter.mp hrow
      obtain ⟨task, htask, rfl⟩ := List.mem_map.mp hrow
      exact ⟨task, htask, of_decide_eq_true hid⟩
    · rintro ⟨task, htask, hid⟩
      exact List.ne_nil_of_mem
        (List.mem_filter.mpr ⟨List.mem_map_of_mem htask, decide_eq_true hid⟩)
  rw [hrows, Table.find?_foldl_insertOrReplace_last, Option.isSome_or, Bool.or_eq_true,
    List.getLast?_isSome, hsent]

/-- A commit brings its consolidations. -/
theorem World.Profiled.commit (h : w.Profiled all arrived entered) {S' : TenantStore}
    {outcome : CommitOutcome} {tasks : List IngestConsolidationTask} (hall : tasks ⊆ all)
    (hprofiles : S'.coreProfiles = w.store.coreProfiles)
    (hqueue : S'.consolidationQueue =
      (insertConsolidationTasksTx w.store tasks).consolidationQueue) :
    World.Profiled all (arrived ++ tasks) entered
      ⟨S', w.tasks ++ [.committed ⟨outcome, tasks⟩]⟩ := by
  refine ⟨h.entering.congr hprofiles, fun r hr => ?_, fun task htask => ?_, fun task htask => ?_,
    fun task htask memoryId hmem => ?_⟩
  -- What is queued is a task of the batch or was queued before.
  · rw [hqueue] at hr
    rcases Table.mem_of_mem_foldl_insertOrReplace (f := IngestConsolidationTask.row) hr with
      hold | ⟨task, htask, rfl⟩
    · exact h.queued r hold
    · rw [IngestConsolidationTask.task_row]
      exact hall htask
  · rcases List.mem_append.mp htask with hold | hnew
    · exact h.carried task hold
    · rw [List.mem_singleton.mp hnew]
      exact hall
  · dsimp only
    rw [hqueue, isSome_find?_insertConsolidationTasksTx]
    rcases List.mem_append.mp htask with hold | hnew
    · exact (h.awaited task hold).imp_left .inr
    · exact .inl (.inl ⟨task, hnew, rfl⟩)
  · rcases List.mem_append.mp htask with hold | hnew
    · exact h.finishing task hold memoryId hmem
    · rw [List.mem_singleton.mp hnew] at hmem
      exact absurd hmem (by simp [Task.finishes])

end

/-! ## Runs -/

section

variable (cosineSimilarity : List ℚ → List ℚ → ℚ)

/-- The consolidations that a step brings. -/
def World.tasksOf (w : World) : WorldStep → List IngestConsolidationTask
  | .commit order clock b =>
    (w.store.commitIngest cosineSimilarity order clock b).toOption.elim [] fun _ =>
      b.consolidationTasks
  | _ => []

/-- The consolidations that a run brings, in the order in which they arrive. -/
def tasksArriving : World → List WorldStep → List IngestConsolidationTask
  | _, [] => []
  | w, step :: run =>
    w.tasksOf cosineSimilarity step ++ tasksArriving (w.step cosineSimilarity step) run

variable {cosineSimilarity} {all arrived : List IngestConsolidationTask}
  {entered : String → List ProfileFact} {w : World}

/-- A step keeps this. -/
theorem World.Profiled.step (htimes : EventTimesApart all) (h : w.Profiled all arrived entered)
    (step : WorldStep) (hall : w.tasksOf cosineSimilarity step ⊆ all) :
    ∃ entered', (w.step cosineSimilarity step).Profiled all
      (arrived ++ w.tasksOf cosineSimilarity step) entered' := by
  -- Only a commit brings consolidations.
  have hother : ∀ {w' : World} {other : WorldStep}, w.tasksOf cosineSimilarity other = [] →
      (∃ entered', w'.Profiled all arrived entered') →
      ∃ entered', w'.Profiled all (arrived ++ w.tasksOf cosineSimilarity other) entered' :=
    fun hnone h => by rwa [hnone, List.append_nil]
  -- The cases are the steps of the store, and a commit brings the tasks of its batch.
  cases step with
  | commit order clock b =>
    cases hcommit : w.store.commitIngest cosineSimilarity order clock b with
    | error e =>
      rw [World.step_commit_of_error hcommit]
      refine hother ?_ ⟨entered, h⟩
      simp only [World.tasksOf, hcommit, Except.toOption, Option.elim_none]
    | ok result =>
      obtain ⟨S', outcome⟩ := result
      have htasks : w.tasksOf cosineSimilarity (.commit order clock b) = b.consolidationTasks := by
        simp only [World.tasksOf, hcommit, Except.toOption, Option.elim_some]
      rw [htasks] at hall ⊢
      rw [World.step_commit_of_ok hcommit]
      exact ⟨entered, h.commit hall (commitIngest_coreProfiles hcommit)
        (commitIngest_consolidationQueue hcommit)⟩
  | reindex limit =>
    exact hother rfl ⟨entered, h.begin (fun _ ht => absurd ht List.not_mem_nil) rfl⟩
  | consolidate limit =>
    refine hother rfl ⟨entered, h.begin (fun task htask => ?_) rfl⟩
    obtain ⟨r, hr, rfl⟩ := List.mem_map.mp htask
    exact h.queued r ((mem_orderBy _ _ _).mp (List.mem_of_mem_take hr))
  | advance index order vectorsFail now =>
    refine hother rfl ?_
    cases htask : w.tasks[index]? with
    | none =>
      rw [World.step_advance_of_none htask]
      exact ⟨entered, h⟩
    | some task =>
      rw [World.step_advance htask]
      exact h.advance htimes (List.mem_of_getElem? htask) index order vectorsFail now
  | fail index =>
    refine hother rfl ?_
    cases htask : w.tasks[index]? with
    | none =>
      rw [World.step_fail_of_none htask]
      exact ⟨entered, h⟩
    | some task =>
      rw [World.step_fail htask]
      refine ⟨entered, h.replace h.entering (fun _ hm => hm) (fun _ hr => hr)
        (fun _ hrow => .inl hrow) (fun next hnext => ?_) index⟩
      obtain ⟨hless, hnone⟩ := Task.consolidation_fail hnext
      rw [hnone]
      exact ⟨fun t ht => h.carried task (List.mem_of_getElem? htask) (hless ht),
        fun _ hm => absurd hm (by simp)⟩

/-- A run keeps this. -/
theorem World.Profiled.run (htimes : EventTimesApart all) (run : List WorldStep)
    (h : w.Profiled all arrived entered) (hall : tasksArriving cosineSimilarity w run ⊆ all) :
    ∃ entered', (run.foldl (World.step cosineSimilarity) w).Profiled all
      (arrived ++ tasksArriving cosineSimilarity w run) entered' := by
  induction run generalizing w arrived entered with
  | nil =>
    rw [tasksArriving, List.append_nil]
    exact ⟨entered, h⟩
  | cons step run ih =>
    rw [tasksArriving] at hall ⊢
    obtain ⟨entered', h'⟩ := h.step htimes step fun _ ht => hall (List.mem_append_left _ ht)
    rw [← List.append_assoc]
    exact ih h' fun _ ht => hall (List.mem_append_right _ ht)

/-- What is entered of settled memories is what is to be listed of them, once nothing waits. -/
theorem settled_perm (hentering : ∀ entityId, Enters all entityId (entered entityId))
    (hall : ∀ task ∈ all, Entered all entered task.memoryId) (entityId : String) :
    ((entered entityId).filter fun f => f.Settled all).Perm
      ((latestFacts all entityId).filter fun f => f.Settled all) := by
  have hlatest := enters_latestFacts all entityId
  have hentered := hentering entityId
  refine (List.perm_ext_iff_of_nodup (hentered.keyed.nodup.filter _)
    (hlatest.keyed.nodup.filter _)).mpr fun f => ?_
  rw [List.mem_filter, List.mem_filter, decide_eq_true_iff]
  refine and_congr_left fun hsettled => ⟨fun hf => ?_, fun hf => ?_⟩
  · obtain ⟨task, htask, rfl, hfact⟩ := hentered.made f hf
    have hsame := hsettled task.memoryId (memoryId_of_fact hfact).1
    -- The last consolidation of the memory makes the same fact.
    obtain ⟨last, hlast, hid⟩ : ∃ last ∈ latestTasks all, last.memoryId = task.memoryId := by
      by_contra hnone
      push Not at hnone
      have hkept := (List.forall_mem_pwFilter (R := fun a b : IngestConsolidationTask =>
        a.memoryId ≠ b.memoryId) (fun {a b c} hac => by
          by_cases hab : a.memoryId = b.memoryId
          · exact .inr fun hbc => hac (hab.trans hbc)
          · exact .inl hab) task all).mp fun last hlast => (hnone last hlast).symm
      exact hkept task htask rfl
    have hmem : last ∈ all := List.pwFilter_subset _ hlast
    obtain ⟨hentity, hfacts⟩ := hsame last hmem task htask hid rfl
    exact List.mem_filterMap.mpr
      ⟨last, List.mem_filter.mpr ⟨hlast, decide_eq_true hentity⟩, hfacts.trans hfact⟩
  · obtain ⟨task, htask, rfl, hfact⟩ := hlatest.made f hf
    have hsame := hsettled task.memoryId (memoryId_of_fact hfact).1
    exact hall task htask hsame task htask rfl f hfact

/-- Facts that are not settled are not listed, so they can be left out. -/
theorem newestFacts_settled (htimes : EventTimesApart all) (hkeeps : KeepsProfiles all)
    {entityId : String} {facts : List ProfileFact} (h : Enters all entityId facts)
    (hperm : (facts.filter fun f => f.Settled all).Perm
      ((latestFacts all entityId).filter fun f => f.Settled all)) :
    newestFacts (facts.filter fun f => f.Settled all) = newestFacts facts := by
  refine (h.keyed_rank htimes).take_orderBy_filter_of_le fun f hf hunsettled => ?_
  obtain ⟨task, htask, rfl, hfact⟩ := h.made f hf
  have hchanged : ¬ Unchanged all task.memoryId := by
    intro hsame
    refine of_decide_eq_false hunsettled fun memoryId hid => ?_
    rw [(memoryId_of_fact hfact).1] at hid
    exact Option.some.inj hid ▸ hsame
  have hmany := hkeeps task htask hchanged f hfact
  rw [← (hperm.filter _).length_eq] at hmany
  simpa only [OrderDual.toDual_lt_toDual] using hmany

/-- After every run, in whatever order its tasks were taken, once no consolidation waits the profile
of each entity lists the newest facts of the latest contents of its memories, if the memories that
came with several facts are too old to be listed. -/
theorem profileFacts_of_run {run : List WorldStep}
    (htimes : EventTimesApart (tasksArriving cosineSimilarity ⟨TenantStore.empty, []⟩ run))
    (hkeeps : KeepsProfiles (tasksArriving cosineSimilarity ⟨TenantStore.empty, []⟩ run))
    (hqueue : (run.foldl (World.step cosineSimilarity)
      ⟨TenantStore.empty, []⟩).store.consolidationQueue.rows = []) (entityId : String) :
    (run.foldl (World.step cosineSimilarity) ⟨TenantStore.empty, []⟩).store.profileFacts entityId =
      newestFacts (latestFacts (tasksArriving cosineSimilarity ⟨TenantStore.empty, []⟩ run)
        entityId) := by
  have hstart : World.Profiled (tasksArriving cosineSimilarity ⟨TenantStore.empty, []⟩ run) []
      (fun _ => []) ⟨TenantStore.empty, []⟩ :=
    ⟨⟨fun _ => rfl, fun _ => ⟨fun _ hf => absurd hf List.not_mem_nil, List.nodup_nil⟩⟩,
      fun _ hr => absurd hr List.not_mem_nil, fun _ ht => absurd ht List.not_mem_nil,
      fun _ ht => absurd ht List.not_mem_nil, fun _ ht => absurd ht List.not_mem_nil⟩
  obtain ⟨entered, h⟩ := hstart.run htimes run (List.Subset.refl _)
  rw [List.nil_append] at h
  generalize tasksArriving cosineSimilarity ⟨TenantStore.empty, []⟩ run = all at htimes hkeeps h ⊢
  -- Nothing waits any more, so every memory has entered.
  have hall : ∀ task ∈ all, Entered all entered task.memoryId := by
    refine fun task htask => (h.awaited task htask).resolve_left fun hrow => ?_
    obtain ⟨r, hr⟩ := Option.isSome_iff_exists.mp hrow
    have hmem := (Table.find?_eq_some.mp hr).1
    rw [hqueue] at hmem
    exact absurd hmem List.not_mem_nil
  -- What has entered is the latest fact of each memory, in some order.
  have hperm := settled_perm h.entering.enters hall entityId
  have hlatest := enters_latestFacts all entityId
  have hentered := h.entering.enters entityId
  rw [h.entering.profiles, ← newestFacts_settled htimes hkeeps hentered hperm,
    ← newestFacts_settled htimes hkeeps hlatest (List.Perm.refl _)]
  exact congrArg (List.take maxProfileFacts)
    (((hlatest.filter _).keyed_rank htimes).orderBy_congr hperm.symm)

end

/-- The commit of a memory of Alice, at the time of its event. -/
private def profileCommit (memoryId : String) (timestamp : UInt64) (content : String) : WorldStep :=
  .commit .insertion ⟨timestamp, timestamp, timestamp⟩
    { observations := [(timestamp, memoryId,
        { entityId := "alice"
          textualContent := content
          embedding := []
          kind := .fact
          contentHash := content
          expiresAtMs := none
          sessionId := "s1"
          turnIndex := 0
          role := ""
          parentMemoryId := none })]
      consolidationTasks := [⟨"alice", memoryId, timestamp, content⟩] }

/-- The transactions of an ingest after its commit, with its consolidation. -/
private def allDone : List WorldStep :=
  List.replicate 6 (.advance 0 .insertion false 500)

/-- The theorem where the later of two memories is consolidated first, and the other one twice: by
the ingest that sent it again as it was, and from the queue. -/
theorem profileFacts_of_run_reordered :
    ([profileCommit "m1" 100 "lives in Oslo", profileCommit "m2" 200 "works in Rome",
        .advance 1 .insertion false 500, .advance 1 .insertion false 500,
        .advance 1 .insertion false 500, .advance 1 .insertion false 500,
        profileCommit "m1" 100 "lives  in Oslo", .consolidate 10,
        .advance 3 .insertion false 500, .advance 3 .insertion false 500].foldl
          (World.step fun _ _ => 0) ⟨TenantStore.empty, []⟩).store.profileFacts "alice" =
      [⟨some "m2", some 200, "works in Rome"⟩, ⟨some "m1", some 100, "lives in Oslo"⟩] :=
  (profileFacts_of_run (by decide +kernel) (by decide +kernel) (by decide +kernel) "alice").trans
    (by decide +kernel)

/-- A memory is consolidated and then sent with another content. Both consolidations run one after
the other, nothing waits, and the profile has the first content. -/
theorem profileFacts_outdated :
    EventTimesApart (tasksArriving (fun _ _ => 0) ⟨TenantStore.empty, []⟩
      (profileCommit "m1" 100 "lives in Oslo" :: allDone ++
        profileCommit "m1" 100 "lives in Rome" :: allDone)) ∧
    ((profileCommit "m1" 100 "lives in Oslo" :: allDone ++
        profileCommit "m1" 100 "lives in Rome" :: allDone).foldl (World.step fun _ _ => 0)
          ⟨TenantStore.empty, []⟩).store.consolidationQueue.rows = [] ∧
    ((profileCommit "m1" 100 "lives in Oslo" :: allDone ++
        profileCommit "m1" 100 "lives in Rome" :: allDone).foldl (World.step fun _ _ => 0)
          ⟨TenantStore.empty, []⟩).store.profileFacts "alice" ≠
      newestFacts (latestFacts (tasksArriving (fun _ _ => 0) ⟨TenantStore.empty, []⟩
        (profileCommit "m1" 100 "lives in Oslo" :: allDone ++
          profileCommit "m1" 100 "lives in Rome" :: allDone)) "alice") := by
  decide +kernel

end Tellodb
