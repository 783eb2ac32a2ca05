import Tellodb.Collections.Chunks
import Tellodb.Facts.Commit
import Tellodb.Facts.Delete
import Tellodb.Facts.History
import Tellodb.Query.Response
import Tellodb.Storage.Steps

/-!
# Memories that state replaced values only

`invalidated_set` reports the memories that have a stale version, and `current_core_profile` leaves
their facts out. A memory that restates a value has evidence for the version of another memory
instead of a version of its own: when a third memory replaces that value, the set does not report
the one that restated it, and the profile goes on showing its fact (`restated_residence`).

`RestatesCurrent` says that every memory with evidence has a version of its own, or evidence for one
that is current. Then every memory is reported that states replaced values only
(`RestatesCurrent.reportsReplaced`), and a run keeps it that spares such memories: none restates a
replaced value or loses the only current one (`reportsReplaced_of_run`). -/

namespace Tellodb

open Relational Collections FactTables FactVersion

namespace FactTables

/-- `invalidated_among` -/
def invalidatedAmong (T : FactTables) (memoryIds : List String) (condition : FactVersion → Bool) :
    List String :=
  ((memoryIds.toChunks inChunk).flatMap fun chunk =>
    (T.versions.rows.filter fun v => condition v && chunk.contains v.memoryId).map
      FactVersion.memoryId).dedup

/-- `invalidated_set` -/
def invalidatedSet (T : FactTables) (memoryIds : List String) : List String :=
  T.invalidatedAmong memoryIds fun v => v.status = .stale

/-- A memory states a version: it is its own, or there is evidence for it from the memory. -/
def isStatedBy (T : FactTables) (memoryId : String) (v : FactVersion) : Bool :=
  v.memoryId = memoryId || T.evidence.rows.any fun e => e.memoryId = memoryId &&
    e.factKey = v.factKey && e.entityId = v.entityId && e.versionMemoryId = v.memoryId

/-- A memory has a version of its own. -/
def hasVersion (T : FactTables) (memoryId : String) : Bool :=
  T.versions.rows.any fun v => v.memoryId = memoryId

/-- A memory states something, and nothing that is current. -/
structure StatesReplaced (T : FactTables) (memoryId : String) : Prop where
  states : ∃ v ∈ T.versions.rows, T.isStatedBy memoryId v = true
  stale : ∀ v ∈ T.versions.rows, T.isStatedBy memoryId v = true → v.status = .stale

/-- A memory states something that is current, and nothing that is not. -/
structure StatesCurrent (T : FactTables) (memoryId : String) : Prop where
  states : ∃ v ∈ T.versions.rows, T.isStatedBy memoryId v = true
  current : ∀ v ∈ T.versions.rows, T.isStatedBy memoryId v = true → v.status = .current

/-- The memories that state replaced values only are reported as invalid and those that state
current ones only are not, and no core profile shows a fact of the former. -/
structure ReportsReplaced (T : FactTables) : Prop where
  replaced : ∀ memoryIds, ∀ memoryId ∈ memoryIds, T.StatesReplaced memoryId →
    memoryId ∈ T.invalidatedSet memoryIds
  current : ∀ memoryIds memoryId, T.StatesCurrent memoryId → memoryId ∉ T.invalidatedSet memoryIds
  profile : ∀ (S : TenantStore) (entityId : String) (profile : CoreProfile), S.facts = T →
    currentCoreProfile S entityId none = some profile → ∀ fact ∈ profile.facts,
      ∀ memoryId ∈ fact.memoryId, ¬ T.StatesReplaced memoryId

/-- Every memory with evidence has a version of its own or states one that is current. -/
def RestatesCurrent (T : FactTables) : Prop :=
  ∀ e ∈ T.evidence.rows, T.hasVersion e.memoryId = true ∨
    ∃ v ∈ T.versions.rows, T.isStatedBy e.memoryId v = true ∧ v.status = .current

/-! ## The set and the profile -/

/-- The set has the memories that it is asked for and that have a version that meets the
condition. -/
theorem mem_invalidatedAmong {T : FactTables} {memoryIds : List String}
    {condition : FactVersion → Bool} {memoryId : String} :
    memoryId ∈ T.invalidatedAmong memoryIds condition ↔ memoryId ∈ memoryIds ∧
      ∃ v ∈ T.versions.rows, v.memoryId = memoryId ∧ condition v = true := by
  unfold invalidatedAmong
  rw [List.mem_dedup, List.mem_flatMap]
  constructor
  · rintro ⟨chunk, hchunk, hmem⟩
    obtain ⟨v, hv, rfl⟩ := List.mem_map.mp hmem
    obtain ⟨hv, hcondition⟩ := List.mem_filter.mp hv
    rw [Bool.and_eq_true, List.contains_iff_mem] at hcondition
    refine ⟨?_, v, hv, rfl, hcondition.1⟩
    rw [← flatten_toChunks inChunk memoryIds]
    exact List.mem_flatten.mpr ⟨chunk, hchunk, hcondition.2⟩
  · rintro ⟨hmem, v, hv, rfl, hcondition⟩
    rw [← flatten_toChunks inChunk memoryIds] at hmem
    obtain ⟨chunk, hchunk, hmem⟩ := List.mem_flatten.mp hmem
    refine ⟨chunk, hchunk, List.mem_map_of_mem (List.mem_filter.mpr ⟨hv, ?_⟩)⟩
    rw [Bool.and_eq_true, List.contains_iff_mem]
    exact ⟨hcondition, hmem⟩

/-- A fact is left out of a profile if its memory is in the set that the profile asks for. -/
theorem hidden_of_mem {S : TenantStore} {facts : List ProfileFact} {fact : ProfileFact}
    {memoryId : String} (hmemory : memoryId ∈ fact.memoryId)
    (h : memoryId ∈ S.facts.invalidatedSet (facts.filterMap ProfileFact.memoryId)) :
    fact.hidden S none = true := by
  obtain ⟨-, v, hv, hsame, hstale⟩ := mem_invalidatedAmong.mp h
  unfold ProfileFact.hidden
  rw [Bool.or_eq_true, Option.any_eq_true]
  refine .inl ⟨memoryId, hmemory, List.any_eq_true.mpr ⟨v, hv, ?_⟩⟩
  rw [Bool.and_eq_true]
  exact ⟨decide_eq_true hsame, hstale⟩

/-- A memory is its own. -/
theorem isStatedBy_self (T : FactTables) (v : FactVersion) :
    T.isStatedBy v.memoryId v = true := by
  unfold isStatedBy
  rw [decide_eq_true rfl, Bool.true_or]

/-- A memory that states something has a version of its own or evidence. -/
theorem hasVersion_or_of_isStatedBy {T : FactTables} {memoryId : String} {v : FactVersion}
    (hv : v ∈ T.versions.rows) (h : T.isStatedBy memoryId v = true) :
    T.hasVersion memoryId = true ∨ ∃ e ∈ T.evidence.rows, e.memoryId = memoryId := by
  unfold isStatedBy at h
  rw [Bool.or_eq_true, List.any_eq_true] at h
  rcases h with hown | ⟨e, he, hevidence⟩
  · exact .inl (List.any_eq_true.mpr ⟨v, hv, hown⟩)
  · simp only [Bool.and_eq_true, decide_eq_true_eq] at hevidence
    exact .inr ⟨e, he, hevidence.1.1.1⟩

/-- Where every memory restates what is current, those are reported that do not. -/
theorem RestatesCurrent.reportsReplaced {T : FactTables} (hT : T.RestatesCurrent) :
    T.ReportsReplaced := by
  -- A memory that states a replaced value is among those that are invalidated.
  have hreplaced : ∀ memoryIds, ∀ memoryId ∈ memoryIds, T.StatesReplaced memoryId →
      memoryId ∈ T.invalidatedSet memoryIds := by
    rintro memoryIds memoryId hmemory ⟨⟨v, hv, hstated⟩, hstale⟩
    -- Either it has a version of its own, or the version it restates is current.
    have hown : T.hasVersion memoryId = true := by
      rcases hasVersion_or_of_isStatedBy hv hstated with hown | ⟨e, he, rfl⟩
      · exact hown
      · refine (hT e he).resolve_right ?_
        rintro ⟨w, hw, hstates, hcurrent⟩
        exact absurd (hcurrent.symm.trans (hstale w hw hstates)) (by decide)
    obtain ⟨w, hw, hsame⟩ := List.any_eq_true.mp hown
    obtain rfl := of_decide_eq_true hsame
    exact mem_invalidatedAmong.mpr
      ⟨hmemory, w, hw, rfl, decide_eq_true (hstale w hw (T.isStatedBy_self w))⟩
  refine ⟨hreplaced, ?_, ?_⟩
  · intro memoryIds memoryId hcurrent hmem
    obtain ⟨-, v, hv, rfl, hstale⟩ := mem_invalidatedAmong.mp hmem
    have hstatus := hcurrent.current v hv (T.isStatedBy_self v)
    exact absurd ((of_decide_eq_true hstale).symm.trans hstatus) (by decide)
  -- The profile asks for the memories of its own facts.
  · rintro S entityId profile rfl hprofile fact hfact memoryId hmemory hstates
    obtain ⟨row, -, rfl⟩ := Option.map_eq_some_iff.mp hprofile
    obtain ⟨hfact, hshown⟩ := List.mem_filter.mp ((mem_orderBy _ _ _).mp hfact)
    have hasked : memoryId ∈ row.profile.facts.filterMap ProfileFact.memoryId :=
      List.mem_filterMap.mpr ⟨fact, hfact, hmemory⟩
    rw [hidden_of_mem hmemory (hreplaced _ memoryId hasked hstates)] at hshown
    exact Bool.false_ne_true hshown

/-! ## Registrations -/

/-- The neighbours that a registration finds around its version. -/
def placedNeighbours (T : FactTables) (entityId : String) (recordedAt : UInt64)
    (f : FactRegistration) : Option FactPosition × Option FactPosition :=
  let T := T.inserted entityId recordedAt f
  ((T.versions.find? (f.factKey, f.memoryId)).map fun n => T.neighbours entityId f n).getD
    (none, none)

/-- A version is current after a registration has placed its own: that one if nothing comes after
it, and of the others those that it does not close. -/
def staysCurrent (T : FactTables) (entityId : String) (recordedAt : UInt64) (f : FactRegistration)
    (v : FactVersion) : Bool :=
  if (T.placedNeighbours entityId recordedAt f).1.any fun p => isVersion f.factKey p.memoryId v then
    false
  else if isVersion f.factKey f.memoryId v then
    (T.placedNeighbours entityId recordedAt f).2.isNone
  else decide (v.status = .current)

/-- A registration spares the memories without a version of their own: one that it makes restate a
value restates a current one, and one from which it takes a current value keeps another. -/
structure Spares (T : FactTables) (entityId : String) (recordedAt : UInt64)
    (f : FactRegistration) : Prop where
  restated : T.restates entityId f = true → T.hasVersion f.memoryId = true ∨
    ∃ v ∈ T.versions.rows, v.status = .current ∧ (T.isStatedBy f.memoryId v = true ∨
      (v.factKey = f.factKey ∧ v.entityId = entityId ∧
        ∃ version ∈ T.covering f.factKey entityId f.timestamp, version.memoryId = v.memoryId))
  replaced : T.restates entityId f = false → ∀ e ∈ T.evidence.rows,
    e.memoryId = f.memoryId ∨ T.hasVersion e.memoryId = true ∨
      ∃ v ∈ T.versions.rows, T.isStatedBy e.memoryId v = true ∧
        T.staysCurrent entityId recordedAt f v = true

instance (T : FactTables) (entityId : String) (recordedAt : UInt64) (f : FactRegistration) :
    Decidable (T.Spares entityId recordedAt f) :=
  decidable_of_iff
    ((T.restates entityId f = true → T.hasVersion f.memoryId = true ∨
      ∃ v ∈ T.versions.rows, v.status = .current ∧ (T.isStatedBy f.memoryId v = true ∨
        (v.factKey = f.factKey ∧ v.entityId = entityId ∧
          ∃ version ∈ T.covering f.factKey entityId f.timestamp,
            version.memoryId = v.memoryId))) ∧
      (T.restates entityId f = false → ∀ e ∈ T.evidence.rows,
        e.memoryId = f.memoryId ∨ T.hasVersion e.memoryId = true ∨
          ∃ v ∈ T.versions.rows, T.isStatedBy e.memoryId v = true ∧
            T.staysCurrent entityId recordedAt f v = true))
    ⟨fun h => ⟨h.1, h.2⟩, fun h => ⟨h.restated, h.replaced⟩⟩

/-- The status of a version after a registration has linked its own. -/
theorem linkRow_status (f : FactRegistration) (predecessor successor : Option FactPosition)
    (v : FactVersion) : (linkRow f predecessor successor v).status =
      if predecessor.any fun p => isVersion f.factKey p.memoryId v then .stale
      else if isVersion f.factKey f.memoryId v then
        if successor.isNone then .current else .stale
      else v.status := by
  -- Naming the version before it does not touch the status of a row.
  have hpreceded : ∀ p v, ((setPreceded f).on p v).status = v.status := by
    intro p v
    unfold Assignment.on
    split <;> rfl
  -- The placed row is current if there is none behind it.
  have hplace : ((setPlace f predecessor successor).on (isVersion f.factKey f.memoryId) v).status =
      if isVersion f.factKey f.memoryId v then if successor.isNone then .current else .stale
      else v.status := by
    unfold Assignment.on
    split <;> rfl
  -- The row before the version becomes stale.
  have hclosed : ∀ p : FactPosition, ((setClosed f).on (isVersion f.factKey p.memoryId)
      ((setPlace f predecessor successor).on (isVersion f.factKey f.memoryId) v)).status =
        if isVersion f.factKey p.memoryId v then .stale
        else if isVersion f.factKey f.memoryId v then
          if successor.isNone then .current else .stale
        else v.status := by
    intro p
    have hsame : isVersion f.factKey p.memoryId
        ((setPlace f predecessor successor).on (isVersion f.factKey f.memoryId) v) =
          isVersion f.factKey p.memoryId v := by
      unfold Assignment.on
      split <;> rfl
    rw [← hplace]
    generalize (setPlace f predecessor successor).on (isVersion f.factKey f.memoryId) v = w at *
    rw [← hsame]
    unfold Assignment.on
    split <;> rfl
  unfold linkRow
  cases predecessor with
  | none => cases successor <;> simp only [hpreceded, hplace, Option.any_none] <;> rfl
  | some p => cases successor <;> simp only [hpreceded, hclosed, Option.any_some]

/-- What a memory states it states in tables with more evidence. -/
theorem isStatedBy_mono {T T' : FactTables} {memoryId : String} {v w : FactVersion}
    (hevidence : T.evidence.rows ⊆ T'.evidence.rows) (hvw : w.statement = v.statement)
    (h : T.isStatedBy memoryId v = true) : T'.isStatedBy memoryId w = true := by
  unfold isStatedBy at h ⊢
  rw [factKey_of_statement hvw, entityId_of_statement hvw, memoryId_of_statement hvw]
  rw [Bool.or_eq_true, List.any_eq_true] at h ⊢
  exact h.imp_right fun ⟨e, he, hsame⟩ => ⟨e, hevidence he, hsame⟩

/-- A memory keeps its versions as long as no statement is lost. -/
theorem hasVersion_mono {T T' : FactTables} {memoryId : String}
    (hstatements : T.statements ⊆ T'.statements) (h : T.hasVersion memoryId = true) :
    T'.hasVersion memoryId = true := by
  obtain ⟨v, hv, hmemory⟩ := List.any_eq_true.mp h
  obtain ⟨w, hw, hwv⟩ := List.mem_map.mp (hstatements (List.mem_map_of_mem hv))
  refine List.any_eq_true.mpr ⟨w, hw, ?_⟩
  rw [memoryId_of_statement hwv]
  exact hmemory

/-- Tables whose rows are updated one by one meet the invariant if the memories that restate state
what is current after the update. -/
theorem RestatesCurrent.of_map {T T' : FactTables} {g : FactVersion → FactVersion}
    (hrows : T'.versions.rows = T.versions.rows.map g) (hg : ∀ v, (g v).statement = v.statement)
    (hevidence : T'.evidence = T.evidence)
    (h : ∀ e ∈ T.evidence.rows, T.hasVersion e.memoryId = true ∨
      ∃ v ∈ T.versions.rows, T.isStatedBy e.memoryId v = true ∧ (g v).status = .current) :
    T'.RestatesCurrent := by
  have hstatements := statements_of_map hrows hg
  intro e he
  rw [hevidence] at he
  rcases h e he with hversion | ⟨v, hv, hstated, hcurrent⟩
  · exact .inl (hasVersion_mono (hstatements ▸ List.Subset.refl _) hversion)
  · exact .inr ⟨g v, hrows ▸ List.mem_map_of_mem hv,
      isStatedBy_mono (hevidence ▸ List.Subset.refl _) (hg v) hstated, hcurrent⟩

/-- A memory states the version that it has become evidence for. -/
theorem isStatedBy_insertEvidence (T : FactTables) (memoryId : String) (timestamp : UInt64)
    {v : FactVersion} {factKey entityId versionMemoryId : String} (hkey : v.factKey = factKey)
    (hentity : v.entityId = entityId) (hmemory : v.memoryId = versionMemoryId) :
    (T.insertEvidence factKey entityId versionMemoryId memoryId timestamp).isStatedBy memoryId v =
      true := by
  obtain ⟨e, he, hsame⟩ := T.exists_insertEvidence factKey entityId versionMemoryId memoryId
    timestamp
  unfold FactEvidence.primaryKey at hsame
  simp only [Prod.mk.injEq] at hsame
  unfold isStatedBy
  rw [Bool.or_eq_true, List.any_eq_true]
  refine .inr ⟨e, he, ?_⟩
  simp only [Bool.and_eq_true, decide_eq_true_eq]
  exact ⟨⟨⟨hsame.2.2.2, hsame.1.trans hkey.symm⟩, hsame.2.1.trans hentity.symm⟩,
    hsame.2.2.1.trans hmemory.symm⟩

section Register

variable {T : FactTables} {entityId : String} {recordedAt : UInt64} {f : FactRegistration}

/-- A statement that restates a current value, or whose memory states one or has a version, keeps
the invariant. -/
theorem RestatesCurrent.registeredFact_of_restates (hT : T.RestatesCurrent)
    (h : T.Spares entityId recordedAt f) (hr : T.restates entityId f = true) :
    (T.registeredFact entityId recordedAt f).RestatesCurrent := by
  obtain ⟨version, hcovering, -⟩ := registerFact_restates (s := ⟨T, [], []⟩) hr recordedAt
  have htables : T.registeredFact entityId recordedAt f =
      T.insertEvidence f.factKey entityId version.memoryId f.memoryId f.timestamp := by
    unfold FactTables.registeredFact
    rw [if_pos hr, hcovering]
  rw [htables]
  have hmore := T.evidence_subset_insertEvidence f.factKey entityId version.memoryId f.memoryId
    f.timestamp
  intro e he
  rcases mem_insertEvidence _ _ _ _ _ _ he with hold | hown
  · exact (hT e hold).imp_right fun ⟨v, hv, hstated, hcurrent⟩ =>
      ⟨v, hv, isStatedBy_mono hmore rfl hstated, hcurrent⟩
  · rw [hown]
    refine (h.restated hr).imp_right fun ⟨v, hv, hcurrent, hstated⟩ => ⟨v, hv, ?_, hcurrent⟩
    rcases hstated with hstated | ⟨hkey, hentity, other, hother, hmemory⟩
    · exact isStatedBy_mono hmore rfl hstated
    · obtain rfl := Option.some.inj (hcovering.symm.trans hother)
      exact isStatedBy_insertEvidence _ _ _ hkey hentity hmemory.symm

/-- A version that takes no memory its only current value keeps the invariant. -/
theorem RestatesCurrent.registeredFact_of_places (h : T.Spares entityId recordedAt f)
    (hr : T.restates entityId f = false) :
    (T.registeredFact entityId recordedAt f).RestatesCurrent := by
  obtain ⟨n, hn, htables⟩ := registeredFact_of_not_restates hr recordedAt
  rw [htables]
  have hneighbours : (T.inserted entityId recordedAt f).neighbours entityId f n =
      T.placedNeighbours entityId recordedAt f := by
    unfold placedNeighbours
    dsimp only
    rw [hn, Option.map_some, Option.getD_some]
  have hrows : T.versions.rows ⊆ (T.inserted entityId recordedAt f).versions.rows := by
    rcases T.inserted_cases entityId recordedAt f with ⟨-, -, -, hsame⟩ | ⟨-, happend⟩
    · rw [hsame]
      exact List.Subset.refl _
    · rw [happend]
      exact List.subset_append_left _ _
  have hmore := T.evidence_subset_insertEvidence f.factKey entityId f.memoryId f.memoryId
    f.timestamp
  -- The memory of the statement has the version that is placed.
  have hown : (T.inserted entityId recordedAt f).hasVersion f.memoryId = true := by
    obtain ⟨hmem, hkey⟩ := Table.find?_eq_some.mp hn
    exact List.any_eq_true.mpr ⟨n, hmem, decide_eq_true (congrArg Prod.snd hkey)⟩
  refine RestatesCurrent.of_map (linkVersion_rows _ _ _ _) (linkRow_statement _ _ _)
    (linkVersion_evidence _ _ _ _) fun e he => ?_
  rcases mem_insertEvidence _ _ _ _ _ _ he with hold | hself
  · rcases h.replaced hr e hold with hself | hversion | ⟨v, hv, hstated, hcurrent⟩
    · exact .inl (hself ▸ hown)
    · exact .inl (hasVersion_mono (List.map_subset _ hrows) hversion)
    · refine .inr ⟨v, hrows hv, isStatedBy_mono hmore rfl hstated, ?_⟩
      rw [hneighbours, linkRow_status]
      unfold staysCurrent at hcurrent
      split_ifs at hcurrent ⊢ with hclosed hself
      · rfl
      · exact of_decide_eq_true hcurrent
  · exact .inl (hself ▸ hown)

/-- A registration that spares the memories that only restate keeps the invariant. -/
theorem RestatesCurrent.registeredFact (hT : T.RestatesCurrent)
    (h : T.Spares entityId recordedAt f) :
    (T.registeredFact entityId recordedAt f).RestatesCurrent := by
  cases hr : T.restates entityId f with
  | true => exact hT.registeredFact_of_restates h hr
  | false => exact registeredFact_of_places h hr

end Register

/-- The repair of a chain keeps the invariant, since it makes nothing stale. -/
theorem RestatesCurrent.settled {T : FactTables} (hT : T.RestatesCurrent)
    (factKey entityId : String) : (T.settled factKey entityId).RestatesCurrent := by
  unfold FactTables.settled promoteNewestToCurrent
  cases T.currentFactVersion factKey entityId with
  | some _ => exact hT
  | none =>
    cases lastBy chainKey (T.chain factKey entityId) with
    | none => exact hT
    | some newest =>
      refine RestatesCurrent.of_map (updateVersions_rows _ _ _) (statement_on (fun _ => rfl) _) rfl
        fun e he => (hT e he).imp_right fun ⟨v, hv, hstated, hcurrent⟩ => ⟨v, hv, hstated, ?_⟩
      unfold Assignment.on
      split
      · rfl
      · exact hcurrent

/-- Every registration of a batch spares the memories that only restate, at its turn. -/
def SparesAll (T : FactTables) (b : FactBatch) : Prop :=
  EachStep (FactTables.registeredFact b.entityId b.recordedAt)
    (fun T f => T.Spares b.entityId b.recordedAt f) T b.registrations

instance (T : FactTables) (b : FactBatch) : Decidable (T.SparesAll b) :=
  inferInstanceAs (Decidable (EachStep _ _ _ _))

/-- A batch of such registrations keeps the invariant. -/
theorem RestatesCurrent.registerBatch {T : FactTables} {b : FactBatch} (hT : T.RestatesCurrent)
    (h : T.SparesAll b) : (T.registerBatch b).RestatesCurrent := by
  refine registerBatch_invariant ?_ fun _ factKey entityId hT => hT.settled factKey entityId
  exact h.invariant (fun _ _ hT hf => hT.registeredFact hf) hT

/-! ## Deletions -/

/-- A version is current after the deletion of a memory: in a chain that is rebuilt the last one
is. -/
def staysCurrentWithout (T : FactTables) (memoryId : String) (v : FactVersion) : Bool :=
  if (T.affectedFacts memoryId).contains (v.factKey, v.entityId) then
    ((T.without memoryId).timeline v.factKey v.entityId).getLast? = some v
  else v.status = .current

/-- A deletion spares the memories without a version of their own: one that it leaves evidence
states a value that is current without the deleted memory. -/
def SparesWithout (T : FactTables) (memoryId : String) : Prop :=
  ∀ e ∈ (T.without memoryId).evidence.rows, (T.without memoryId).hasVersion e.memoryId = true ∨
    ∃ v ∈ (T.without memoryId).versions.rows,
      (T.without memoryId).isStatedBy e.memoryId v = true ∧
        T.staysCurrentWithout memoryId v = true

instance (T : FactTables) (memoryId : String) : Decidable (T.SparesWithout memoryId) :=
  inferInstanceAs (Decidable (∀ e ∈ (T.without memoryId).evidence.rows,
    (T.without memoryId).hasVersion e.memoryId = true ∨
      ∃ v ∈ (T.without memoryId).versions.rows,
        (T.without memoryId).isStatedBy e.memoryId v = true ∧
          T.staysCurrentWithout memoryId v = true))

/-- Such a deletion keeps the invariant. -/
theorem RestatesCurrent.deleteFacts {T : FactTables} {memoryId : String}
    (h : T.SparesWithout memoryId) (edges : Table EdgeRow.edgeId) :
    (deleteFacts memoryId T edges).1.RestatesCurrent := by
  unfold Tellodb.deleteFacts
  generalize hs : (T.without memoryId, edges.deleteWhere fun e => isOf memoryId e.memoryId ||
    e.refSource.any (isOf memoryId) || e.refTarget.any (isOf memoryId)) = s
  have hwithout : s.1 = T.without memoryId := by rw [← hs]
  obtain ⟨hevidence, g, hg, hother, hrows⟩ := exists_map_rebuildAll s (T.affectedFacts memoryId)
  refine RestatesCurrent.of_map hrows hg hevidence fun e he => ?_
  rw [hwithout] at he ⊢
  refine (h e he).imp_right fun ⟨v, hv, hstated, hcurrent⟩ => ⟨v, hv, hstated, ?_⟩
  unfold staysCurrentWithout at hcurrent
  split at hcurrent
  · -- The chain is linked again, and its last version is the current one.
    rename_i haffected
    have hok := chainOk_rebuildAll (s := s) (.inl (List.contains_iff_mem.mp haffected))
    have hlinked := hok.linked
    rw [timeline_map hrows hg, hwithout, List.map_map] at hlinked
    obtain ⟨before, hsplit⟩ := List.getLast?_eq_some_iff.mp (of_decide_eq_true hcurrent)
    rw [hsplit] at hlinked
    exact of_decide_eq_true hlinked.columns.2.2.2
  · rename_i haffected
    rw [hother v fun hmem => haffected (List.contains_iff_mem.mpr hmem)]
    exact of_decide_eq_true hcurrent

end FactTables

/-! ## Runs -/

section Runs

variable (cosineSimilarity : List ℚ → List ℚ → ℚ)

/-- The condition of a step: every registration of a commit spares the memories that only restate,
at its turn, and so does a deletion. -/
def SparesRestating (S : TenantStore) : StoreStep → Prop
  | .commit order clock b =>
    EachStep FactTables.registerBatch FactTables.SparesAll S.facts
      (S.commitBatches cosineSimilarity order clock b)
  | .delete _ _ memoryId _ => S.facts.SparesWithout memoryId

instance (S : TenantStore) : (a : StoreStep) → Decidable (SparesRestating cosineSimilarity S a)
  | .commit order clock b => inferInstanceAs (Decidable
      (EachStep FactTables.registerBatch FactTables.SparesAll S.facts
        (S.commitBatches cosineSimilarity order clock b)))
  | .delete _ _ memoryId _ => inferInstanceAs (Decidable (S.facts.SparesWithout memoryId))

/-- Such a step keeps the invariant. -/
theorem restatesCurrent_step {S : TenantStore} (hS : S.facts.RestatesCurrent) {a : StoreStep}
    (ha : SparesRestating cosineSimilarity S a) :
    (S.step cosineSimilarity a).facts.RestatesCurrent := by
  cases a with
  | delete order now memoryId reason =>
    change (S.deleteObservation order now memoryId reason).1.facts.RestatesCurrent
    rw [facts_deleteObservation]
    exact RestatesCurrent.deleteFacts ha S.edges
  | commit order clock b =>
    cases h : S.commitIngest cosineSimilarity order clock b with
    | error e =>
      rw [TenantStore.step_commit_of_error h]
      exact hS
    | ok result =>
      rw [TenantStore.step_commit_of_ok h, commitIngest_batches h]
      exact EachStep.invariant ha (fun _ _ hT hb => hT.registerBatch hb) hS

/-- As long as every step spares the memories that only restate, those that state replaced values
only are reported in every state of a run, and left out of the core profiles. -/
theorem reportsReplaced_of_run {steps : List StoreStep}
    (h : EachStep (TenantStore.step cosineSimilarity) (SparesRestating cosineSimilarity)
      TenantStore.empty steps) :
    (steps.foldl (TenantStore.step cosineSimilarity) TenantStore.empty).facts.ReportsReplaced := by
  have hinvariant : (steps.foldl (TenantStore.step cosineSimilarity)
      TenantStore.empty).facts.RestatesCurrent :=
    h.invariant (I := fun S => S.facts.RestatesCurrent)
      (fun _ _ hS ha => restatesCurrent_step cosineSimilarity hS ha)
      fun e he => absurd he List.not_mem_nil
  exact hinvariant.reportsReplaced

end Runs

/-- The ingest of a fact of Alice. -/
private def ingestStated (factKey : String) (timestamp : UInt64) (memoryId object : String) :
    StoreStep :=
  .commit .insertion ⟨timestamp, timestamp, timestamp⟩
    { factBatch := [⟨"alice", factKey, timestamp, memoryId, "alice", factKey, object⟩] }

/-- The ingest of a residence of Alice. -/
private def ingestResidence : UInt64 → String → String → StoreStep :=
  ingestStated "residence"

/-- A residence that another one replaces, which is restated before an occupation is replaced, too,
and a residence that was restated is deleted. -/
private def replacedRun : List StoreStep :=
  [ingestResidence 100 "m1" "Austin", ingestResidence 200 "m3" "Boston",
    ingestResidence 300 "m2" "Boston", ingestStated "occupation" 100 "m4" "teacher",
    ingestStated "occupation" 200 "m5" "teacher", .delete .insertion 250 "m4" "test",
    ingestStated "occupation" 300 "m6" "nurse", ingestStated "occupation" 400 "m7" "doctor"]

/-- The theorem at that run. In the end two memories state replaced values only, and are reported,
and one that has only evidence states a current one. -/
theorem reportsReplaced_of_run_residence :
    let T := (replacedRun.foldl (TenantStore.step fun _ _ => 0) TenantStore.empty).facts
    T.ReportsReplaced ∧ T.StatesReplaced "m1" ∧ T.StatesReplaced "m6" ∧
      T.invalidatedSet ["m1", "m2", "m6"] = ["m1", "m6"] ∧ T.StatesCurrent "m2" ∧
      T.hasVersion "m2" = false := by
  intro T
  have hreplaced : ∀ memoryId ∈ ["m1", "m6"],
      (∃ v ∈ T.versions.rows, T.isStatedBy memoryId v = true) ∧
        ∀ v ∈ T.versions.rows, T.isStatedBy memoryId v = true → v.status = .stale := by
    decide +kernel
  have hcurrent : (∃ v ∈ T.versions.rows, T.isStatedBy "m2" v = true) ∧
      (∀ v ∈ T.versions.rows, T.isStatedBy "m2" v = true → v.status = .current) := by
    decide +kernel
  obtain ⟨hfirst, hfirstStale⟩ := hreplaced "m1" (by decide)
  obtain ⟨hsecond, hsecondStale⟩ := hreplaced "m6" (by decide)
  exact ⟨reportsReplaced_of_run _ (by decide +kernel), ⟨hfirst, hfirstStale⟩,
    ⟨hsecond, hsecondStale⟩, by decide +kernel, ⟨hcurrent.1, hcurrent.2⟩, by decide +kernel⟩

/-- Austin of one memory, Austin of a second one and Boston of a third: the second one states
nothing current and is not reported. -/
theorem restated_residence :
    let T := ([ingestResidence 100 "m1" "Austin", ingestResidence 200 "m2" "Austin",
      ingestResidence 300 "m3" "Boston"].foldl (TenantStore.step fun _ _ => 0)
        TenantStore.empty).facts
    T.StatesReplaced "m2" ∧ "m2" ∉ T.invalidatedSet ["m2"] ∧ ¬ T.ReportsReplaced := by
  intro T
  have hstates : (∃ v ∈ T.versions.rows, T.isStatedBy "m2" v = true) ∧
      (∀ v ∈ T.versions.rows, T.isStatedBy "m2" v = true → v.status = .stale) ∧
      ∀ v ∈ T.versions.rows, v.memoryId ≠ "m2" := by decide +kernel
  have hreplaced : T.StatesReplaced "m2" := ⟨hstates.1, hstates.2.1⟩
  have hunreported : "m2" ∉ T.invalidatedSet ["m2"] := by
    intro hmem
    obtain ⟨-, v, hv, hsame, -⟩ := mem_invalidatedAmong.mp hmem
    exact hstates.2.2 v hv hsame
  exact ⟨hreplaced, hunreported, fun h =>
    hunreported (h.replaced ["m2"] "m2" List.mem_cons_self hreplaced)⟩

end Tellodb
