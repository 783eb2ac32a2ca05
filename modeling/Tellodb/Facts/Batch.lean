import Tellodb.Facts.Step

/-!
# Whole batches

`registeredFact` is the tables after one round of the loop, as a plain function, and `settled` the
tables after one round of the repair loop. `registerFactVersionsTx_ok` says that a batch never
fails, whatever the tables hold, and that its result is the fold of the two. The repair loop does
nothing where every chain already has a current version (`settled_of_current`).

No step removes a version or changes what it states: `statements_registeredFact` lists the
statements after a step as the statements before it, followed by the new one where the
registration became a version of its own. -/

namespace Tellodb

open Relational

namespace FactTables

open FactVersion

/-- The statements of all versions, in row order. -/
def statements (T : FactTables) : List FactVersion :=
  T.versions.rows.map statement

/-- The tables after one registration. -/
def registeredFact (entityId : String) (recordedAt : UInt64) (T : FactTables)
    (f : FactRegistration) : FactTables :=
  if T.restates entityId f then
    match T.covering f.factKey entityId f.timestamp with
    | some version =>
      T.insertEvidence f.factKey entityId version.memoryId f.memoryId f.timestamp
    | none => T
  else
    match (T.inserted entityId recordedAt f).versions.find? (f.factKey, f.memoryId) with
    | some n => T.placeVersion entityId recordedAt f n
    | none => T

section Evidence

variable (T : FactTables) (factKey entityId versionMemoryId memoryId : String) (timestamp : UInt64)

/-- Evidence that is inserted has a row under its key. -/
theorem exists_insertEvidence :
    ∃ e ∈ (T.insertEvidence factKey entityId versionMemoryId memoryId timestamp).evidence.rows,
      e.primaryKey = (factKey, entityId, versionMemoryId, memoryId) := by
  unfold insertEvidence Table.insertOrIgnore
  dsimp only
  split
  · rename_i htaken
    exact htaken
  · exact ⟨_, List.mem_append_right _ List.mem_cons_self, rfl⟩

/-- No evidence is lost when some is inserted. -/
theorem evidence_subset_insertEvidence : T.evidence.rows ⊆
    (T.insertEvidence factKey entityId versionMemoryId memoryId timestamp).evidence.rows := by
  unfold insertEvidence Table.insertOrIgnore
  dsimp only
  split
  · exact List.Subset.refl _
  · exact List.subset_append_left _ _

/-- New evidence is from its memory. -/
theorem mem_insertEvidence {e : FactEvidence}
    (h : e ∈ (T.insertEvidence factKey entityId versionMemoryId memoryId
      timestamp).evidence.rows) : e ∈ T.evidence.rows ∨ e.memoryId = memoryId := by
  unfold insertEvidence Table.insertOrIgnore at h
  dsimp only at h
  split at h
  · exact .inl h
  · rcases List.mem_append.mp h with hold | hnew
    · exact .inl hold
    · rw [List.mem_singleton.mp hnew]
      exact .inr rfl

end Evidence

/-- A restatement leaves the versions alone. -/
theorem registeredFact_versions_of_restates {T : FactTables} {entityId : String}
    {f : FactRegistration} (h : T.restates entityId f) (recordedAt : UInt64) :
    (T.registeredFact entityId recordedAt f).versions = T.versions := by
  unfold registeredFact
  rw [if_pos h]
  cases T.covering f.factKey entityId f.timestamp <;> rfl

/-- A statement that is no restatement is placed as a version. -/
theorem registeredFact_of_not_restates {T : FactTables} {entityId : String}
    {f : FactRegistration} (h : T.restates entityId f = false) (recordedAt : UInt64) :
    ∃ n, (T.inserted entityId recordedAt f).versions.find? (f.factKey, f.memoryId) = some n ∧
      T.registeredFact entityId recordedAt f = T.placeVersion entityId recordedAt f n := by
  obtain ⟨n, hn⟩ := T.exists_stored entityId recordedAt f
  refine ⟨n, hn, ?_⟩
  unfold registeredFact
  rw [h, hn]
  rfl

/-- One round of the loop succeeds, adds one status and defers at most its own fact. -/
theorem registerFact_ok (entityId : String) (recordedAt : UInt64) (s : Progress)
    (f : FactRegistration) :
    ∃ status deferred, registerFact entityId recordedAt s f =
        .ok ⟨s.tables.registeredFact entityId recordedAt f, s.statuses ++ [status],
          s.deferred ++ deferred⟩ ∧
      ∀ d ∈ deferred, d.2 = (f.factKey, entityId) ∧
        (s.tables.registeredFact entityId recordedAt f).timeline f.factKey entityId ≠ [] := by
  -- A fact that restates is attached as evidence, and any other is placed.
  cases h : s.tables.restates entityId f with
  | true =>
    obtain ⟨version, hcovering, hstep⟩ := registerFact_restates h recordedAt
    refine ⟨.confirmed (version.timestamp, version.memoryId), [], hstep.trans ?_, by simp⟩
    unfold registeredFact
    simp only [h, if_true, hcovering, List.append_nil]
  | false =>
    obtain ⟨n, hn, hstep⟩ := registerFact_places h recordedAt
    obtain ⟨n', hn', htables⟩ := registeredFact_of_not_restates h recordedAt
    obtain rfl : n = n' := Option.some.inj (hn.symm.trans hn')
    refine ⟨_, _, by rw [htables]; exact hstep, fun d hd => ?_⟩
    split at hd
    · exact absurd hd List.not_mem_nil
    · -- The entry is deferred because there is a successor, a version of the fact.
      rename_i hsome
      obtain ⟨p, hp⟩ := Option.ne_none_iff_exists'.mp (by simpa using hsome)
      obtain ⟨v, hv, -⟩ := exists_of_successor hp
      refine ⟨by rw [List.mem_singleton.mp hd], ?_⟩
      rw [htables]
      unfold placeVersion
      rw [timeline_map (linkVersion_rows _ _ _ _) (linkRow_statement _ _ _)]
      exact fun hnil => List.ne_nil_of_mem hv (List.map_eq_nil_iff.mp hnil)

/-! ## Statements -/

/-- A chain has versions exactly when some statement is of its fact. -/
theorem timeline_ne_nil_iff {T : FactTables} {factKey entityId : String} :
    T.timeline factKey entityId ≠ [] ↔
      ∃ v ∈ T.statements, v.factKey = factKey ∧ v.entityId = entityId := by
  constructor
  · intro h
    obtain ⟨v, hv⟩ := List.exists_mem_of_ne_nil _ h
    obtain ⟨hv, hfact⟩ := mem_timeline.mp hv
    exact ⟨v.statement, List.mem_map_of_mem hv, hfact⟩
  · rintro ⟨w, hw, hfact⟩
    obtain ⟨v, hv, rfl⟩ := List.mem_map.mp hw
    exact List.ne_nil_of_mem (mem_timeline.mpr ⟨hv, hfact⟩)

/-- An update of single rows that keeps statements keeps their list. -/
theorem statements_of_map {T T' : FactTables} {g : FactVersion → FactVersion}
    (hrows : T'.versions.rows = T.versions.rows.map g) (hg : ∀ v, (g v).statement = v.statement) :
    T'.statements = T.statements := by
  unfold statements
  rw [hrows, List.map_map]
  exact List.map_congr_left fun v _ => hg v

/-- A registration under a key and memory that have no version adds its statement. -/
theorem statements_registeredFact_of_new {T : FactTables} {entityId : String}
    {f : FactRegistration} (h : T.restates entityId f = false) (recordedAt : UInt64)
    (hnew : ∀ v ∈ T.versions.rows, v.primaryKey ≠ (f.factKey, f.memoryId)) :
    (T.registeredFact entityId recordedAt f).statements =
      T.statements ++
        [((newVersion entityId recordedAt f).withRowid T.versions.nextRowid).statement] := by
  obtain ⟨n, -, htables⟩ := registeredFact_of_not_restates h recordedAt
  have hplace : (T.placeVersion entityId recordedAt f n).statements =
      (T.inserted entityId recordedAt f).statements :=
    statements_of_map (linkVersion_rows _ _ _ _) (linkRow_statement _ _ _)
  rw [htables, hplace]
  rcases T.inserted_cases entityId recordedAt f with ⟨v, hv, hkey, -⟩ | ⟨-, hrows⟩
  · exact absurd hkey (hnew v hv)
  · unfold statements
    rw [hrows, List.map_append]
    rfl

/-- Any other registration leaves the statements as they are. -/
theorem statements_registeredFact_of_old {T : FactTables} {entityId : String}
    (recordedAt : UInt64) {f : FactRegistration}
    (h : T.restates entityId f = true ∨
      ∃ v ∈ T.versions.rows, v.primaryKey = (f.factKey, f.memoryId)) :
    (T.registeredFact entityId recordedAt f).statements = T.statements := by
  cases hr : T.restates entityId f with
  | true =>
    unfold statements
    rw [registeredFact_versions_of_restates hr recordedAt]
  | false =>
    obtain ⟨v, hv, hkey⟩ := h.resolve_left (by simp [hr])
    obtain ⟨n, -, htables⟩ := registeredFact_of_not_restates hr recordedAt
    have hplace : (T.placeVersion entityId recordedAt f n).statements =
        (T.inserted entityId recordedAt f).statements :=
      statements_of_map (linkVersion_rows _ _ _ _) (linkRow_statement _ _ _)
    rw [htables, hplace]
    rcases T.inserted_cases entityId recordedAt f with ⟨-, -, -, hsame⟩ | ⟨hnew, -⟩
    · unfold statements
      rw [hsame]
    · exact absurd hkey (hnew v hv)

/-- A registration keeps every statement, and adds its own at most. -/
theorem statements_registeredFact (T : FactTables) (entityId : String) (recordedAt : UInt64)
    (f : FactRegistration) :
    (T.registeredFact entityId recordedAt f).statements = T.statements ∨
      (T.registeredFact entityId recordedAt f).statements =
        T.statements ++
          [((newVersion entityId recordedAt f).withRowid T.versions.nextRowid).statement] := by
  by_cases h : T.restates entityId f = true ∨
      ∃ v ∈ T.versions.rows, v.primaryKey = (f.factKey, f.memoryId)
  · exact .inl (statements_registeredFact_of_old recordedAt h)
  · rw [not_or, not_exists] at h
    refine .inr (statements_registeredFact_of_new (by simpa using h.1) recordedAt
      fun v hv hkey => ?_)
    exact h.2 v ⟨hv, hkey⟩

/-- What a registration states is then stated by some version, and no statement is lost. -/
theorem statements_subset_registeredFact (T : FactTables) (entityId : String)
    (recordedAt : UInt64) (f : FactRegistration) :
    T.statements ⊆ (T.registeredFact entityId recordedAt f).statements := by
  rcases T.statements_registeredFact entityId recordedAt f with h | h
  · rw [h]
    exact List.Subset.refl _
  · rw [h]
    exact List.subset_append_left _ _

/-! ## The repair loop -/

/-- The tables after one round of the repair loop. -/
def settled (T : FactTables) (factKey entityId : String) : FactTables :=
  match T.currentFactVersion factKey entityId with
  | some _ => T
  | none => T.promoteNewestToCurrent factKey entityId

/-- A chain that has a current version is not touched by the repair. -/
theorem settled_of_current {T : FactTables} {factKey entityId : String}
    (h : (T.currentFactVersion factKey entityId).isSome) : T.settled factKey entityId = T := by
  obtain ⟨v, hv⟩ := Option.isSome_iff_exists.mp h
  unfold settled
  rw [hv]

/-- The repair keeps every statement. -/
theorem statements_settled (T : FactTables) (factKey entityId : String) :
    (T.settled factKey entityId).statements = T.statements := by
  unfold settled promoteNewestToCurrent
  cases T.currentFactVersion factKey entityId with
  | some _ => rfl
  | none =>
    cases lastBy chainKey (T.chain factKey entityId) with
    | none => rfl
    | some newest =>
      exact statements_of_map (updateVersions_rows _ _ _) (statement_on (fun _ => rfl) _)

/-- A chain with versions has a current version after the repair. -/
theorem settleCurrent_ok {T : FactTables} {factKey entityId : String}
    (h : T.timeline factKey entityId ≠ []) :
    ∃ current, T.settleCurrent factKey entityId = .ok (T.settled factKey entityId, current) := by
  unfold settleCurrent settled
  cases hcurrent : T.currentFactVersion factKey entityId with
  | some found => exact ⟨found, rfl⟩
  | none =>
    -- The newest version exists and is the one the repair makes current.
    obtain ⟨newest, hnewest⟩ : ∃ v, (T.timeline factKey entityId).getLast? = some v :=
      ⟨_, List.getLast?_eq_some_getLast h⟩
    have hmem := mem_timeline.mp (List.mem_of_getLast? hnewest)
    have hsome : ((T.promoteNewestToCurrent factKey entityId).currentFactVersion factKey
        entityId).isSome := by
      have hpromoted : setPromoted.set newest ∈
          (T.promoteNewestToCurrent factKey entityId).versions.rows := by
        unfold promoteNewestToCurrent lastBy
        change _ ∈ (match (T.timeline factKey entityId).getLast? with
          | some newest => _
          | none => T).versions.rows
        rw [hnewest]
        refine List.mem_map.mpr ⟨newest, hmem.1, ?_⟩
        simp [Assignment.on, hmem.2]
      unfold currentFactVersion lastBy
      rw [Option.isSome_map, List.getLast?_isSome]
      refine List.ne_nil_of_mem (a := setPromoted.set newest) ?_
      rw [mem_orderBy]
      simp only [chain, List.mem_filter]
      refine ⟨⟨hpromoted, ?_⟩, ?_⟩
      · exact decide_eq_true hmem.2
      · simp [setPromoted]
    obtain ⟨found, hfound⟩ := Option.isSome_iff_exists.mp hsome
    refine ⟨found, ?_⟩
    simp only [hfound]

/-- The tables after the repair loop over the deferred facts. -/
def settledAll (T : FactTables) (deferred : List (ℕ × String × String)) : FactTables :=
  deferred.foldl (fun T d => T.settled d.2.1 d.2.2) T

/-- The repair loop succeeds on facts that have versions. -/
theorem resolveDeferred_ok (T : FactTables) (statuses : List FactVersionStatus)
    (deferred : List (ℕ × String × String)) (h : ∀ d ∈ deferred, T.timeline d.2.1 d.2.2 ≠ []) :
    ∃ statuses', T.resolveDeferred statuses deferred = .ok (T.settledAll deferred, statuses') ∧
      statuses'.length = statuses.length := by
  induction deferred generalizing T statuses with
  | nil => exact ⟨statuses, rfl, rfl⟩
  | cons d rest ih =>
    obtain ⟨current, hcurrent⟩ := settleCurrent_ok (h d List.mem_cons_self)
    have hrest : ∀ d' ∈ rest, (T.settled d.2.1 d.2.2).timeline d'.2.1 d'.2.2 ≠ [] := by
      intro d' hd'
      rw [timeline_ne_nil_iff, statements_settled, ← timeline_ne_nil_iff]
      exact h d' (List.mem_cons_of_mem _ hd')
    obtain ⟨statuses', hresolve, hlength⟩ := ih (T.settled d.2.1 d.2.2)
      (statuses.set d.1 (.stale (current.2, current.1))) hrest
    refine ⟨statuses', ?_, by rw [hlength, List.length_set]⟩
    rw [resolveDeferred, hcurrent]
    exact hresolve

/-! ## The batch -/

/-- The tables after the loop of a batch. -/
def registeredAll (T : FactTables) (entityId : String) (recordedAt : UInt64)
    (fs : List FactRegistration) : FactTables :=
  fs.foldl (registeredFact entityId recordedAt) T

/-- No statement is lost in a batch. -/
theorem statements_subset_registeredAll (T : FactTables) (entityId : String)
    (recordedAt : UInt64) (fs : List FactRegistration) :
    T.statements ⊆ (T.registeredAll entityId recordedAt fs).statements := by
  induction fs generalizing T with
  | nil => exact List.Subset.refl _
  | cons f fs ih =>
    exact List.Subset.trans (T.statements_subset_registeredFact entityId recordedAt f) (ih _)

/-- The loop of a batch succeeds with one status for each registration, and what it defers are
facts of the batch's entity that have versions. -/
theorem registerLoop_ok (entityId : String) (recordedAt : UInt64) (fs : List FactRegistration)
    (s : Progress)
    (hs : ∀ d ∈ s.deferred, d.2.2 = entityId ∧ s.tables.timeline d.2.1 d.2.2 ≠ []) :
    ∃ s', fs.foldlM (registerFact entityId recordedAt) s = .ok s' ∧
      s'.tables = s.tables.registeredAll entityId recordedAt fs ∧
      s'.statuses.length = s.statuses.length + fs.length ∧
      ∀ d ∈ s'.deferred, d.2.2 = entityId ∧ s'.tables.timeline d.2.1 d.2.2 ≠ [] := by
  induction fs generalizing s with
  | nil => exact ⟨s, rfl, rfl, rfl, hs⟩
  | cons f fs ih =>
    obtain ⟨status, deferred, hstep, hdeferred⟩ := registerFact_ok entityId recordedAt s f
    -- What was deferred before is still a fact that has versions.
    obtain ⟨s', hloop, htables, hlength, hs'⟩ := ih ⟨_, s.statuses ++ [status], _⟩ (by
      intro d hd
      rcases List.mem_append.mp hd with hd | hd
      · refine ⟨(hs d hd).1, ?_⟩
        obtain ⟨v, hv, hfact⟩ := timeline_ne_nil_iff.mp (hs d hd).2
        exact timeline_ne_nil_iff.mpr
          ⟨v, s.tables.statements_subset_registeredFact entityId recordedAt f hv, hfact⟩
      · obtain ⟨hfact, hne⟩ := hdeferred d hd
        rw [hfact]
        exact ⟨rfl, hne⟩)
    refine ⟨s', ?_, htables, ?_, hs'⟩
    · rw [List.foldlM_cons, hstep]
      exact hloop
    · rw [hlength, List.length_append, List.length_singleton, List.length_cons]
      omega

/-- A batch never fails: it returns one status for each registration, over the tables of the loop
after a repair of some facts of its entity. -/
theorem registerFactVersionsTx_ok (T : FactTables) (entityId : String)
    (fs : List FactRegistration) (recordedAt : UInt64) :
    ∃ statuses deferred, T.registerFactVersionsTx entityId fs recordedAt =
        .ok ((T.registeredAll entityId recordedAt fs).settledAll deferred, statuses) ∧
      statuses.length = fs.length ∧
      ∀ d ∈ deferred, d.2.2 = entityId ∧
        (T.registeredAll entityId recordedAt fs).timeline d.2.1 d.2.2 ≠ [] := by
  obtain ⟨s, hloop, htables, hlength, hdeferred⟩ :=
    registerLoop_ok entityId recordedAt fs ⟨T, [], []⟩ (by simp)
  obtain ⟨statuses, hresolve, hstatuses⟩ := resolveDeferred_ok s.tables s.statuses s.deferred
    fun d hd => (hdeferred d hd).2
  rw [htables] at hresolve hdeferred
  refine ⟨statuses, s.deferred, ?_, ?_, hdeferred⟩
  · unfold registerFactVersionsTx
    rw [hloop]
    change s.tables.resolveDeferred s.statuses s.deferred = _
    rw [htables]
    exact hresolve
  · rw [hstatuses, hlength]
    simp

/-- Where every nonempty chain of the entity has a current version after the loop, the repair does
nothing. -/
theorem registerFactVersionsTx_of_current {T : FactTables} {entityId : String}
    {fs : List FactRegistration} {recordedAt : UInt64}
    (h : ∀ factKey, (T.registeredAll entityId recordedAt fs).timeline factKey entityId ≠ [] →
      ((T.registeredAll entityId recordedAt fs).currentFactVersion factKey entityId).isSome) :
    ∃ statuses, T.registerFactVersionsTx entityId fs recordedAt =
        .ok (T.registeredAll entityId recordedAt fs, statuses) ∧
      statuses.length = fs.length := by
  obtain ⟨statuses, deferred, htx, hlength, hdeferred⟩ :=
    T.registerFactVersionsTx_ok entityId fs recordedAt
  have hsettled : (T.registeredAll entityId recordedAt fs).settledAll deferred =
      T.registeredAll entityId recordedAt fs := by
    clear htx
    unfold settledAll
    induction deferred with
    | nil => rfl
    | cons d rest ih =>
      obtain ⟨hentity, hne⟩ := hdeferred d List.mem_cons_self
      rw [hentity] at hne
      rw [List.foldl_cons, hentity, settled_of_current (h _ hne)]
      exact ih fun d' hd' => hdeferred d' (List.mem_cons_of_mem _ hd')
  exact ⟨statuses, by rw [htx, hsettled], hlength⟩

end FactTables

end Tellodb
