import Tellodb.Facts.History

/-!
# Registrations whose key and memory are taken

`fact_versions` is keyed by fact key and memory, and a registration whose key and memory already
have a row inserts nothing (`ON CONFLICT DO NOTHING`), whatever that row says and whoever it
belongs to. The registration goes on with the row it finds: an edited memory is linked in by its
new time with its old time and value in the row (`registerFactVersionsTx_not_edited`), and a
registration that finds the row of another entity has no version of its own and rewrites the
other entity's (`registerFactVersionsTx_separate_iff`). -/

namespace Tellodb

open Relational FactTables FactVersion

namespace FactTables

/-- Statements that were stored before a batch are stored after it. -/
theorem exists_of_registered {T : FactTables} {v : FactVersion} (hv : v.statement ∈ T.statements)
    (entityId : String) (recordedAt : UInt64) (fs : List FactRegistration)
    (deferred : List (ℕ × String × String)) :
    ∃ w ∈ ((T.registeredAll entityId recordedAt fs).settledAll deferred).versions.rows,
      w.statement = v.statement := by
  have hsettled : ∀ T : FactTables, (T.settledAll deferred).statements = T.statements := by
    induction deferred with
    | nil => exact fun T => rfl
    | cons d rest ih => exact fun T => (ih _).trans (T.statements_settled d.2.1 d.2.2)
  have hv := T.statements_subset_registeredAll entityId recordedAt fs hv
  rw [← hsettled] at hv
  exact List.mem_map.mp hv

end FactTables

/-! ## The same entity: an edited memory -/

/-- What registering an edited memory again should leave of its fact: one current version, no
version next to itself, and the memory's version with the new value and time. -/
structure Edited (T : FactTables) (entityId : String) (f : FactRegistration) : Prop where
  current : ∃ v, (T.timeline f.factKey entityId).filter (fun v => v.status = .current) = [v]
  apart : ∀ v ∈ T.timeline f.factKey entityId,
    v.supersedes ≠ some v.memoryId ∧ v.supersededBy ≠ some v.memoryId
  version : ∃ v ∈ T.timeline f.factKey entityId, v.memoryId = f.memoryId ∧
    v.timestampMs = f.timestamp.toInt64 ∧ v.object = f.object

/-- A memory registered again with another time or value keeps the time and value it had. -/
theorem registerFactVersionsTx_not_edited (T : FactTables) {entityId : String}
    {before after : List FactRegistration} (recordedAt : UInt64) {f : FactRegistration}
    {v : FactVersion} (hv : v ∈ T.timeline f.factKey entityId) (hmemory : v.memoryId = f.memoryId)
    (hedit : v.timestampMs ≠ f.timestamp.toInt64 ∨ v.object ≠ f.object) :
    ∃ T' statuses, T.registerFactVersionsTx entityId (before ++ f :: after) recordedAt =
        .ok (T', statuses) ∧ ¬ Edited T' entityId f := by
  obtain ⟨statuses, deferred, htx, -⟩ :=
    T.registerFactVersionsTx_ok entityId (before ++ f :: after) recordedAt
  refine ⟨_, statuses, htx, fun h => ?_⟩
  obtain ⟨hvmem, hkey, -⟩ := mem_timeline.mp hv
  obtain ⟨w, hw, hwmemory, htime, hobject⟩ := h.version
  obtain ⟨hwmem, hwkey, -⟩ := mem_timeline.mp hw
  obtain ⟨u, hu, hstatement⟩ := exists_of_registered (List.mem_map_of_mem hvmem) entityId
    recordedAt (before ++ f :: after) deferred
  -- The row that stated `v` before is the row of this key and memory after.
  have hprimary : u.primaryKey = w.primaryKey := by
    rw [primaryKey_of_statement hstatement]
    simp [primaryKey, hkey, hmemory, hwkey, hwmemory]
  have huw : u = w := (Table.keyed _).eq_of_mem hu hwmem hprimary
  rw [← huw] at htime hobject
  rcases hedit with hedit | hedit
  · exact hedit ((timestampMs_of_statement hstatement).symm.trans htime)
  · exact hedit ((object_of_statement hstatement).symm.trans hobject)

/-- The theorem at a memory edited from Austin at 100 to Boston at 200. -/
theorem registerFactVersionsTx_not_edited_residence :
    ∃ T' statuses, (FactTables.empty.registeredFact "alice" 1
        ⟨"residence", 100, "m1", "alice", "lives_in", "Austin"⟩).registerFactVersionsTx "alice"
          ([] ++ ⟨"residence", 200, "m1", "alice", "lives_in", "Boston"⟩ :: []) 2 =
        .ok (T', statuses) ∧
      ¬ Edited T' "alice" ⟨"residence", 200, "m1", "alice", "lives_in", "Boston"⟩ :=
  registerFactVersionsTx_not_edited _ 2
    (v := ⟨1, "residence", "m1", "alice", "alice", "lives_in", "Austin", .current, 100, none, none,
      100, none, 1⟩)
    (mem_timeline.mpr ⟨by decide +kernel, rfl, rfl⟩) rfl (.inl (by decide))

/-- The edited memory's version comes out as its own predecessor and successor, stale, with the
old value. -/
theorem edited_residence :
    ∃ T, registerBatches FactTables.empty
        [⟨"alice", [⟨"residence", 100, "m1", "alice", "lives_in", "Austin"⟩], 1⟩,
          ⟨"alice", [⟨"residence", 200, "m1", "alice", "lives_in", "Boston"⟩], 2⟩] = .ok T ∧
      T.timeline "residence" "alice" = [⟨1, "residence", "m1", "alice", "alice", "lives_in",
        "Austin", .stale, 100, some "m1", some "m1", 200, some 200, 1⟩] ∧
      ¬ Edited T "alice" ⟨"residence", 200, "m1", "alice", "lives_in", "Boston"⟩ := by
  obtain ⟨T, hT, htimeline⟩ : ∃ T, registerBatches FactTables.empty
      [⟨"alice", [⟨"residence", 100, "m1", "alice", "lives_in", "Austin"⟩], 1⟩,
        ⟨"alice", [⟨"residence", 200, "m1", "alice", "lives_in", "Boston"⟩], 2⟩] = .ok T ∧
      T.timeline "residence" "alice" = [⟨1, "residence", "m1", "alice", "alice", "lives_in",
        "Austin", .stale, 100, some "m1", some "m1", 200, some 200, 1⟩] :=
    exists_ok_of_evaluates (by decide +kernel)
  refine ⟨T, hT, htimeline, fun h => ?_⟩
  obtain ⟨v, hv⟩ := h.current
  rw [htimeline] at hv
  exact absurd hv (by simp)

/-! ## Another entity -/

/-- The rows of the other entities. -/
def FactTables.ofOthers (T : FactTables) (entityId : String) :
    List FactVersion × List FactEvidence :=
  (T.versions.rows.filter fun v => v.entityId ≠ entityId,
    T.evidence.rows.filter fun e => e.entityId ≠ entityId)

/-- A batch about an entity leaves the rows of every other entity as they are, and gives every
registration that is no restatement at its turn a version of the entity. -/
structure Separate (T T' : FactTables) (entityId : String) (recordedAt : UInt64)
    (fs : List FactRegistration) : Prop where
  others : T'.ofOthers entityId = T.ofOthers entityId
  version : ∀ before f after, fs = before ++ f :: after →
    (T.registeredAll entityId recordedAt before).restates entityId f = false →
      ∃ v ∈ T'.timeline f.factKey entityId, v.memoryId = f.memoryId

/-- The key and memory of a registration that is no restatement at its turn are not stored under
another entity. -/
def Unclaimed (T : FactTables) (entityId : String) (recordedAt : UInt64)
    (fs : List FactRegistration) : Prop :=
  ∀ before f after, fs = before ++ f :: after →
    (T.registeredAll entityId recordedAt before).restates entityId f = false →
      ∀ v ∈ T.versions.rows, v.primaryKey = (f.factKey, f.memoryId) → v.entityId = entityId

namespace FactTables

/-- A row of another entity is among the rows of the others. -/
theorem mem_ofOthers {T : FactTables} {entityId : String} {v : FactVersion} :
    v ∈ (T.ofOthers entityId).1 ↔ v ∈ T.versions.rows ∧ v.entityId ≠ entityId := by
  simp [ofOthers]

/-- An update that touches rows of one entity only leaves the others alone. -/
theorem ofOthers_map {T T' : FactTables} {entityId : String} {g : FactVersion → FactVersion}
    (hrows : T'.versions.rows = T.versions.rows.map g) (hevidence : T'.evidence = T.evidence)
    (hg : ∀ v, (g v).statement = v.statement)
    (hothers : ∀ v ∈ T.versions.rows, v.entityId ≠ entityId → g v = v) :
    T'.ofOthers entityId = T.ofOthers entityId := by
  have hfilter : T.versions.rows.filter ((fun v => decide (v.entityId ≠ entityId)) ∘ g) =
      T.versions.rows.filter fun v => decide (v.entityId ≠ entityId) :=
    List.filter_congr fun v _ => by simp [entityId_of_statement (hg v)]
  unfold ofOthers
  rw [hrows, hevidence, List.filter_map, hfilter]
  congr 1
  refine (List.map_congr_left fun v hv => ?_).trans (List.map_id _)
  obtain ⟨hv, hentity⟩ := List.mem_filter.mp hv
  exact hothers v hv (of_decide_eq_true hentity)

/-- Evidence about an entity leaves the others alone. -/
theorem ofOthers_insertEvidence (T : FactTables)
    (factKey entityId versionMemoryId memoryId : String) (timestamp : UInt64) :
    (T.insertEvidence factKey entityId versionMemoryId memoryId timestamp).ofOthers entityId =
      T.ofOthers entityId := by
  unfold ofOthers insertEvidence
  rw [Table.filter_insertOrIgnore _ (by simp)]

/-- The inserts of a registration leave the others alone. -/
theorem ofOthers_inserted (T : FactTables) (entityId : String) (recordedAt : UInt64)
    (f : FactRegistration) :
    (T.inserted entityId recordedAt f).ofOthers entityId = T.ofOthers entityId := by
  have hversion : (T.insertVersion entityId recordedAt f).ofOthers entityId =
      T.ofOthers entityId := by
    have hevidence : (T.insertVersion entityId recordedAt f).evidence = T.evidence := rfl
    unfold ofOthers
    rw [hevidence]
    rcases T.inserted_cases entityId recordedAt f with ⟨-, -, -, hsame⟩ | ⟨-, hrows⟩
    · have hsame : (T.insertVersion entityId recordedAt f).versions = T.versions := hsame
      rw [hsame]
    · have hrows : (T.insertVersion entityId recordedAt f).versions.rows = _ := hrows
      rw [hrows]
      simp [newVersion]
  unfold inserted
  rw [ofOthers_insertEvidence, hversion]

/-- A registration whose key and memory are not stored under another entity leaves the others
alone. -/
theorem ofOthers_registeredFact {T : FactTables} {entityId : String} {recordedAt : UInt64}
    {f : FactRegistration} (hfree : T.restates entityId f = false →
      ∀ v ∈ T.versions.rows, v.primaryKey = (f.factKey, f.memoryId) → v.entityId = entityId) :
    (T.registeredFact entityId recordedAt f).ofOthers entityId = T.ofOthers entityId := by
  cases h : T.restates entityId f with
  | true =>
    unfold registeredFact
    rw [if_pos h]
    cases T.covering f.factKey entityId f.timestamp with
    | some version => exact T.ofOthers_insertEvidence _ _ _ _ _
    | none => rfl
  | false =>
    obtain ⟨n, hn, htables⟩ := registeredFact_of_not_restates h recordedAt
    rw [htables, ← T.ofOthers_inserted entityId recordedAt f]
    -- The rows that are linked are the version itself and its neighbours, all of this entity.
    have hneighbour : ∀ (p : FactPosition), (∃ w ∈ (T.inserted entityId recordedAt f).timeline
        f.factKey entityId, w.position = p) → ∀ v ∈ (T.inserted entityId recordedAt f).versions.rows,
          v.entityId ≠ entityId → v.primaryKey ≠ (f.factKey, p.memoryId) := by
      rintro p ⟨w, hw, rfl⟩ v hv hentity hkey
      obtain ⟨hw, hwkey, hwentity⟩ := mem_timeline.mp hw
      have hvw : v = w := (Table.keyed _).eq_of_mem hv hw
        (hkey.trans (by simp [primaryKey, position, hwkey]))
      exact hentity (by rw [hvw, hwentity])
    refine ofOthers_map (linkVersion_rows _ _ _ _) ?_ (linkRow_statement _ _ _)
      fun v hv hentity => linkRow_of_ne ?_
        (fun p hp => hneighbour p (exists_of_predecessor hp) v hv hentity)
        (fun s hs => hneighbour s (exists_of_successor hs) v hv hentity)
    · exact linkVersion_evidence _ _ _ _
    · intro hkey
      have hv : v ∈ ((T.inserted entityId recordedAt f).ofOthers entityId).1 :=
        mem_ofOthers.mpr ⟨hv, hentity⟩
      rw [T.ofOthers_inserted] at hv
      exact hentity (hfree h v (mem_ofOthers.mp hv).1 hkey)

/-- The repair of one fact leaves the others alone. -/
theorem ofOthers_settled (T : FactTables) (factKey entityId : String) :
    (T.settled factKey entityId).ofOthers entityId = T.ofOthers entityId := by
  unfold settled promoteNewestToCurrent
  cases T.currentFactVersion factKey entityId with
  | some _ => rfl
  | none =>
    cases lastBy chainKey (T.chain factKey entityId) with
    | none => rfl
    | some newest =>
      refine ofOthers_map (updateVersions_rows _ _ _) rfl (statement_on (fun _ => rfl) _)
        fun v _ hentity => ?_
      simp [Assignment.on, hentity]

/-- The repair of a batch about an entity leaves the others alone. -/
theorem ofOthers_settledAll (T : FactTables) {entityId : String}
    {deferred : List (ℕ × String × String)} (h : ∀ d ∈ deferred, d.2.2 = entityId) :
    (T.settledAll deferred).ofOthers entityId = T.ofOthers entityId := by
  induction deferred generalizing T with
  | nil => rfl
  | cons d rest ih =>
    have hd := h d List.mem_cons_self
    have hrest := ih (T.settled d.2.1 d.2.2) fun d' hd' => h d' (List.mem_cons_of_mem _ hd')
    rw [hd, ofOthers_settled] at hrest
    rw [← hrest, ← hd]
    rfl

/-- The loop up to a registration, and the registration. -/
theorem registeredAll_concat (T : FactTables) (entityId : String) (recordedAt : UInt64)
    (before : List FactRegistration) (f : FactRegistration) :
    T.registeredAll entityId recordedAt (before ++ [f]) =
      (T.registeredAll entityId recordedAt before).registeredFact entityId recordedAt f := by
  simp [registeredAll]

/-- A registration that is no restatement has a version under its key and memory, of its own
entity or of one that had it before. -/
theorem exists_version_registeredFact {T : FactTables} {entityId : String} {f : FactRegistration}
    (h : T.restates entityId f = false) (recordedAt : UInt64) :
    ∃ v ∈ (T.registeredFact entityId recordedAt f).versions.rows,
      v.primaryKey = (f.factKey, f.memoryId) ∧
        (v.entityId = entityId ∨ ∃ w ∈ T.versions.rows, w.statement = v.statement) := by
  have hstored : ∃ v ∈ (T.registeredFact entityId recordedAt f).statements,
      v.primaryKey = (f.factKey, f.memoryId) ∧ (v.entityId = entityId ∨ v ∈ T.statements) := by
    by_cases hnew : ∀ v ∈ T.versions.rows, v.primaryKey ≠ (f.factKey, f.memoryId)
    · rw [statements_registeredFact_of_new h recordedAt hnew]
      exact ⟨_, List.mem_append_right _ List.mem_cons_self, rfl, .inl rfl⟩
    · obtain ⟨v, hv, hkey⟩ : ∃ v ∈ T.versions.rows, v.primaryKey = (f.factKey, f.memoryId) := by
        simpa using hnew
      have hv : v.statement ∈ T.statements := List.mem_map_of_mem hv
      exact ⟨_, T.statements_subset_registeredFact entityId recordedAt f hv, hkey, .inr hv⟩
  obtain ⟨w, hw, hkey, hold⟩ := hstored
  obtain ⟨v, hv, rfl⟩ := List.mem_map.mp hw
  refine ⟨v, hv, hkey, hold.imp id fun hold => ?_⟩
  exact List.mem_map.mp hold

end FactTables

/-- While no registration claims another entity's key and memory, the others stay as they are. -/
theorem Unclaimed.ofOthers_registeredAll {T : FactTables} {entityId : String}
    {recordedAt : UInt64} {fs : List FactRegistration}
    (h : Unclaimed T entityId recordedAt fs) {before after : List FactRegistration}
    (hsplit : fs = before ++ after) :
    (T.registeredAll entityId recordedAt before).ofOthers entityId = T.ofOthers entityId := by
  induction before using List.reverseRecOn generalizing after with
  | nil => rfl
  | append_singleton before f ih =>
    have hbefore := @ih (f :: after) (by simpa using hsplit)
    rw [registeredAll_concat, ofOthers_registeredFact, hbefore]
    intro hrestates v hv hkey
    by_contra hentity
    -- A row of another entity was there before the batch.
    have hv := mem_ofOthers.mpr ⟨hv, hentity⟩
    rw [hbefore] at hv
    exact hentity (h before f after (by simpa using hsplit) hrestates v (mem_ofOthers.mp hv).1 hkey)

/-- A batch about an entity leaves the rows of all others as they are and gives the entity a
version for each registration that is no restatement, exactly when no such registration's key and
memory are stored under another entity. -/
theorem registerFactVersionsTx_separate_iff (T : FactTables) (entityId : String)
    (fs : List FactRegistration) (recordedAt : UInt64) :
    ∃ T' statuses, T.registerFactVersionsTx entityId fs recordedAt = .ok (T', statuses) ∧
      (Separate T T' entityId recordedAt fs ↔ Unclaimed T entityId recordedAt fs) := by
  obtain ⟨statuses, deferred, htx, -, hdeferred⟩ :=
    T.registerFactVersionsTx_ok entityId fs recordedAt
  refine ⟨_, statuses, htx, fun h => ?_, fun h => ⟨?_, ?_⟩⟩
  · -- The row of a key and memory that is stored before the batch is the one stored after it.
    intro before f after hsplit hrestates v hv hkey
    obtain ⟨w, hw, hmemory⟩ := h.version before f after hsplit hrestates
    obtain ⟨hw, hwkey, hwentity⟩ := mem_timeline.mp hw
    obtain ⟨u, hu, hstatement⟩ := exists_of_registered (List.mem_map_of_mem hv) entityId
      recordedAt fs deferred
    have huw : u = w := by
      refine (Table.keyed _).eq_of_mem hu hw ?_
      rw [primaryKey_of_statement hstatement, hkey]
      simp [primaryKey, hwkey, hmemory]
    rw [← entityId_of_statement hstatement, huw, hwentity]
  -- The loop and the settling keep the versions of other entities.
  · rw [ofOthers_settledAll _ fun d hd => (hdeferred d hd).1]
    exact h.ofOthers_registeredAll (List.append_nil fs).symm
  · intro before f after hsplit hrestates
    obtain ⟨v, hv, hkey, hentity⟩ := exists_version_registeredFact hrestates recordedAt
    -- The row under the key is the entity's own, since no other has taken it.
    have hentity : v.entityId = entityId := by
      rcases hentity with hentity | ⟨w, hw, hstatement⟩
      · exact hentity
      by_contra hne
      have hwkey : w.primaryKey = (f.factKey, f.memoryId) :=
        (primaryKey_of_statement hstatement).trans hkey
      have hw := mem_ofOthers.mpr ⟨hw, (entityId_of_statement hstatement).trans_ne hne⟩
      rw [h.ofOthers_registeredAll hsplit] at hw
      have hw := h before f after hsplit hrestates w (mem_ofOthers.mp hw).1 hwkey
      exact hne ((entityId_of_statement hstatement).symm.trans hw)
    -- The facts that follow do not change what it states.
    obtain ⟨u, hu, hstatement⟩ := exists_of_registered (List.mem_map_of_mem hv) entityId
      recordedAt after deferred
    have hloop : ((T.registeredAll entityId recordedAt before).registeredFact entityId recordedAt
        f).registeredAll entityId recordedAt after = T.registeredAll entityId recordedAt fs := by
      rw [hsplit]
      simp [registeredAll]
    rw [hloop] at hu
    have hukey := (primaryKey_of_statement hstatement).trans hkey
    simp only [primaryKey, Prod.mk.injEq] at hukey
    exact ⟨u, mem_timeline.mpr ⟨hu, hukey.1, (entityId_of_statement hstatement).trans hentity⟩,
      hukey.2⟩

/-- One memory stated for two entities: the second has no version of its own, and the first one's
version takes over the second one's time. -/
theorem claimed_residence :
    ∃ T T' statuses, registerBatches FactTables.empty
        [⟨"alice", [⟨"residence", 100, "m1", "alice", "lives_in", "Austin"⟩], 1⟩] = .ok T ∧
      T.registerFactVersionsTx "bob"
        [⟨"residence", 200, "m1", "bob", "lives_in", "Boston"⟩] 2 = .ok (T', statuses) ∧
      (T.timeline "residence" "alice").map FactVersion.validFromMs = [100] ∧
      (T'.timeline "residence" "alice").map FactVersion.validFromMs = [200] ∧
      T'.timeline "residence" "bob" = [] ∧
      ¬ Separate T T' "bob" 2 [⟨"residence", 200, "m1", "bob", "lives_in", "Boston"⟩] := by
  -- What is stored before and after the second statement.
  obtain ⟨T, hT, hstarts⟩ : ∃ T, registerBatches FactTables.empty
      [⟨"alice", [⟨"residence", 100, "m1", "alice", "lives_in", "Austin"⟩], 1⟩] = .ok T ∧
      ((T.timeline "residence" "alice").map FactVersion.validFromMs,
        T.restates "bob" ⟨"residence", 200, "m1", "bob", "lives_in", "Boston"⟩,
        (T.registerFactVersionsTx "bob"
          [⟨"residence", 200, "m1", "bob", "lives_in", "Boston"⟩] 2).toOption.map fun r =>
            ((r.1.timeline "residence" "alice").map FactVersion.validFromMs,
              r.1.timeline "residence" "bob")) = ([100], false, some ([200], [])) :=
    exists_ok_of_evaluates (by decide +kernel)
  simp only [Prod.mk.injEq] at hstarts
  obtain ⟨hbefore, hrestates, hafter⟩ := hstarts
  obtain ⟨⟨T', statuses⟩, htx, hafter⟩ := exists_ok_of_evaluates hafter
  simp only [Prod.mk.injEq] at hafter
  refine ⟨T, T', statuses, hT, htx, hbefore, hafter.1, hafter.2, fun h => ?_⟩
  obtain ⟨v, hv, -⟩ := h.version [] _ [] rfl hrestates
  rw [hafter.2] at hv
  exact absurd hv List.not_mem_nil

end Tellodb
