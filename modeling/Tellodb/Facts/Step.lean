import Tellodb.Storage.Facts
import Tellodb.Relational.Timeline

/-!
# What one registration does

`registerFact` either records a statement as evidence or places it as a version. The results here
say once what each of the two does to the tables, so that no later proof unfolds the loop body:
`registerFact_restates` and `registerFact_places` give the state after the step, and
`placeVersion_timeline` gives every chain after a placement as the old chain with a row inserted
and a function of single rows, `linkRow`, applied to it. -/

namespace Tellodb

open Relational

namespace FactVersion

/-- A row without the columns that chain maintenance rewrites. -/
def statement (v : FactVersion) : FactVersion :=
  { v with
    status := .current
    supersededBy := none
    supersedes := none
    validFromMs := v.timestampMs
    validToMs := none }

/-- The row as an entry of a timeline. -/
def entry (v : FactVersion) : Entry String ℤ where
  ident := v.memoryId
  start := v.validFromMs.toInt
  stop := v.validToMs.map Int64.toInt
  previous := v.supersedes
  next := v.supersededBy
  latest := v.status = .current

section Statement

variable {v w : FactVersion} (h : v.statement = w.statement)
include h

/-- Versions with the same statement have the same key, -/
theorem factKey_of_statement : v.factKey = w.factKey := congrArg (·.factKey) h

/-- the same memory, -/
theorem memoryId_of_statement : v.memoryId = w.memoryId := congrArg (·.memoryId) h

/-- the same entity, -/
theorem entityId_of_statement : v.entityId = w.entityId := congrArg (·.entityId) h

/-- the same object, -/
theorem object_of_statement : v.object = w.object := congrArg (·.object) h

/-- and the same time. -/
theorem timestampMs_of_statement : v.timestampMs = w.timestampMs := congrArg (·.timestampMs) h

/-- Rows with one statement stand at one place of the order. -/
theorem chainKey_of_statement : v.chainKey = w.chainKey := by
  have hkey : v.statement.chainKey = w.statement.chainKey := by rw [h]
  exact hkey

/-- Rows with one statement have one primary key. -/
theorem primaryKey_of_statement : v.primaryKey = w.primaryKey := by
  have hkey : v.statement.primaryKey = w.statement.primaryKey := by rw [h]
  exact hkey

end Statement

end FactVersion

namespace FactTables

open FactVersion

/-- The rows of any part of `fact_versions` have distinct places in the order. -/
theorem keyed_chainKey (T : FactTables) (factKey entityId : String) :
    Keyed chainKey (T.chain factKey entityId) := by
  have hrowid : Keyed FactVersion.rowid (T.chain factKey entityId) :=
    T.versions.keyed_rowid.filter _
  refine List.pairwise_map.mpr ((List.pairwise_map.mp hrowid).imp fun {v w} hvw hkey => hvw ?_)
  have hkey := congrArg (fun k : ChainKey => (ofLex (ofLex k).2).2) hkey
  exact hkey

/-- A version is in a chain exactly when it is stored under that key and entity. -/
@[simp] theorem mem_timeline {T : FactTables} {factKey entityId : String} {v : FactVersion} :
    v ∈ T.timeline factKey entityId ↔
      v ∈ T.versions.rows ∧ v.factKey = factKey ∧ v.entityId = entityId := by
  simp [timeline, chain]

/-- A chain ascends strictly in its order. -/
theorem timeline_pairwise (T : FactTables) (factKey entityId : String) :
    (T.timeline factKey entityId).Pairwise fun v w => v.chainKey < w.chainKey :=
  (T.keyed_chainKey factKey entityId).orderBy_pairwise

/-- No two versions of a chain come from one memory. -/
theorem timeline_memoryId_nodup (T : FactTables) (factKey entityId : String) :
    ((T.timeline factKey entityId).map FactVersion.memoryId).Nodup := by
  have hkeyed : Keyed primaryKey (T.timeline factKey entityId) :=
    (T.versions.keyed.filter _).perm (orderBy_perm _ _).symm
  refine List.pairwise_map.mpr ?_
  refine (List.pairwise_map.mp hkeyed).imp_of_mem fun {v w} hv hw hvw hmem => hvw ?_
  have hv := (mem_timeline.mp hv).2.1
  have hw := (mem_timeline.mp hw).2.1
  simp [primaryKey, hv, hw, hmem]

/-- An update of single rows that leaves their statements alone acts on every chain row by row. -/
theorem timeline_map {T T' : FactTables} {g : FactVersion → FactVersion}
    (hrows : T'.versions.rows = T.versions.rows.map g) (hg : ∀ v, (g v).statement = v.statement)
    (factKey entityId : String) :
    T'.timeline factKey entityId = (T.timeline factKey entityId).map g := by
  have hchain : T'.chain factKey entityId = (T.chain factKey entityId).map g := by
    unfold chain
    rw [hrows, List.filter_map]
    congr 1
    refine List.filter_congr fun v _ => ?_
    simp [factKey_of_statement (hg v), entityId_of_statement (hg v)]
  unfold timeline
  rw [hchain]
  exact (T.keyed_chainKey factKey entityId).orderBy_map g fun v _ => chainKey_of_statement (hg v)

/-- Tables with the same versions have the same chains. -/
theorem timeline_congr {T T' : FactTables} (h : T'.versions = T.versions)
    (factKey entityId : String) : T'.timeline factKey entityId = T.timeline factKey entityId := by
  unfold timeline chain
  rw [h]

/-! ## Neighbour queries -/

/-- The covering version is the last one at or before the time, or the first of all. -/
theorem covering_eq (T : FactTables) (factKey entityId : String) (timestamp : UInt64) :
    T.covering factKey entityId timestamp =
      ((((T.timeline factKey entityId).filter fun v =>
        v.timestampMs ≤ timestamp.toInt64).getLast?).or
        (T.timeline factKey entityId).head?).map position := by
  have hlast : T.factNeighbour factKey entityId (fun v t => v.timestampMs ≤ t) .desc timestamp =
      (((T.timeline factKey entityId).filter fun v =>
        v.timestampMs ≤ timestamp.toInt64).getLast?).map position := by
    unfold factNeighbour timeline
    simp only [Direction.limitOne, lastBy]
    rw [(T.keyed_chainKey factKey entityId).orderBy_filter]
  have hfirst : T.factNeighbour factKey entityId (fun _ _ => true) .asc timestamp =
      ((T.timeline factKey entityId).head?).map position := by
    unfold factNeighbour timeline
    simp only [Direction.limitOne, firstBy, List.filter_true]
  unfold covering
  rw [hlast, hfirst]
  cases ((T.timeline factKey entityId).filter fun v =>
    v.timestampMs ≤ timestamp.toInt64).getLast? <;> rfl

/-- A fact with versions has a covering version at every time. -/
theorem covering_cases (T : FactTables) (factKey entityId : String) (timestamp : UInt64) :
    (T.timeline factKey entityId = [] ∧ T.covering factKey entityId timestamp = none) ∨
      ∃ v ∈ T.timeline factKey entityId,
        T.covering factKey entityId timestamp = some v.position := by
  rw [covering_eq]
  cases hlast : ((T.timeline factKey entityId).filter fun v =>
      v.timestampMs ≤ timestamp.toInt64).getLast? with
  | some v =>
    exact .inr ⟨v, (List.mem_filter.mp (List.mem_of_getLast? hlast)).1, rfl⟩
  | none =>
    cases hhead : (T.timeline factKey entityId).head? with
    | some v => exact .inr ⟨v, List.mem_of_head? hhead, rfl⟩
    | none => exact .inl ⟨List.head?_eq_none_iff.mp hhead, rfl⟩

/-- The place of the order that a neighbour query compares with. -/
def placeKey (timestamp recordedAt : UInt64) (rowid : ℕ) : ChainKey :=
  toLex (timestamp.toInt64.toInt, toLex (recordedAt.toInt64.toInt, rowid))

/-- The predecessor query returns the last version before a place. -/
theorem orderedFactNeighbour_predecessor (T : FactTables) (factKey entityId : String)
    (timestamp recordedAt : UInt64) (rowid : ℕ) :
    T.orderedFactNeighbour factKey entityId timestamp recordedAt rowid true =
      (((T.timeline factKey entityId).filter fun v =>
        v.chainKey < placeKey timestamp recordedAt rowid).getLast?).map position := by
  unfold orderedFactNeighbour timeline
  simp only [if_true, Direction.limitOne, lastBy]
  rw [(T.keyed_chainKey factKey entityId).orderBy_filter]
  congr 3
  funext v
  simp only [chainKey, placeKey, Prod.Lex.toLex_lt_toLex, Int64.lt_iff_toInt_lt, Int64.toInt_inj,
    decide_eq_decide]
  tauto

/-- The successor query returns the first version after a place. -/
theorem orderedFactNeighbour_successor (T : FactTables) (factKey entityId : String)
    (timestamp recordedAt : UInt64) (rowid : ℕ) :
    T.orderedFactNeighbour factKey entityId timestamp recordedAt rowid false =
      (((T.timeline factKey entityId).filter fun v =>
        placeKey timestamp recordedAt rowid < v.chainKey).head?).map position := by
  unfold orderedFactNeighbour timeline
  simp only [Bool.false_eq_true, if_false, Direction.limitOne, firstBy]
  rw [(T.keyed_chainKey factKey entityId).orderBy_filter]
  congr 3
  funext v
  simp only [chainKey, placeKey, Prod.Lex.toLex_lt_toLex, gt_iff_lt, Int64.lt_iff_toInt_lt,
    Int64.toInt_inj, decide_eq_decide, eq_comm (a := v.timestampMs), eq_comm (a := v.recordedAtMs)]
  tauto

/-! ## Restating -/

/-- The statement restates the version that covers its time, and becomes evidence for it. -/
def restates (T : FactTables) (entityId : String) (f : FactRegistration) : Bool :=
  match T.covering f.factKey entityId f.timestamp with
  | some version => version.memoryId ≠ f.memoryId && sameFactObject version.object f.object
  | none => false

/-- A restatement adds evidence and leaves the versions alone. -/
theorem registerFact_restates {entityId : String} {s : Progress} {f : FactRegistration}
    (h : s.tables.restates entityId f) (recordedAt : UInt64) :
    ∃ version, s.tables.covering f.factKey entityId f.timestamp = some version ∧
      registerFact entityId recordedAt s f = .ok { s with
        tables := s.tables.insertEvidence f.factKey entityId version.memoryId f.memoryId
          f.timestamp
        statuses := s.statuses ++ [.confirmed (version.timestamp, version.memoryId)] } := by
  unfold restates at h
  cases hc : s.tables.covering f.factKey entityId f.timestamp with
  | none => simp [hc] at h
  | some version =>
    refine ⟨version, rfl, ?_⟩
    have hcond : version.memoryId ≠ f.memoryId ∧ sameFactObject version.object f.object := by
      simpa [hc] using h
    unfold registerFact
    simp only [hc]
    rw [if_pos hcond]

/-! ## Placing a version -/

/-- The insert finds the row of the same key and memory, under whatever entity, or appends a new
one. -/
theorem inserted_cases (T : FactTables) (entityId : String) (recordedAt : UInt64)
    (f : FactRegistration) :
    (∃ n ∈ T.versions.rows, n.primaryKey = (f.factKey, f.memoryId) ∧
      (T.inserted entityId recordedAt f).versions = T.versions) ∨
    ((∀ v ∈ T.versions.rows, v.primaryKey ≠ (f.factKey, f.memoryId)) ∧
      (T.inserted entityId recordedAt f).versions.rows =
        T.versions.rows ++ [(newVersion entityId recordedAt f).withRowid T.versions.nextRowid]) := by
  by_cases h : ∃ n ∈ T.versions.rows, n.primaryKey = (f.factKey, f.memoryId)
  · obtain ⟨n, hn, hkey⟩ := h
    exact .inl ⟨n, hn, hkey, RowTable.insertOrIgnore_of_mem hn hkey⟩
  · have hnone : ∀ v ∈ T.versions.rows, v.primaryKey ≠ (f.factKey, f.memoryId) :=
      fun v hv hkey => h ⟨v, hv, hkey⟩
    exact .inr ⟨hnone, RowTable.insertOrIgnore_rows hnone⟩

/-- After the insert there is a row of the statement's key and memory. -/
theorem exists_stored (T : FactTables) (entityId : String) (recordedAt : UInt64)
    (f : FactRegistration) :
    ∃ n, (T.inserted entityId recordedAt f).versions.find? (f.factKey, f.memoryId) = some n := by
  simp only [Table.find?_eq_some]
  rcases T.inserted_cases entityId recordedAt f with ⟨n, hn, hkey, hsame⟩ | ⟨-, hrows⟩
  · exact ⟨n, by rw [hsame]; exact hn, hkey⟩
  · exact ⟨_, by rw [hrows]; exact List.mem_append_right _ List.mem_cons_self, rfl⟩

/-- The rows after an update. -/
@[simp] theorem updateVersions_rows (T : FactTables) (p : FactVersion → Bool)
    (f : RowAssignment FactVersion.primaryKey FactVersion.rowid) :
    (T.updateVersions p f).versions.rows = T.versions.rows.map (f.on p) := rfl

/-- The effect of `linkVersion` on one row. -/
def linkRow (f : FactRegistration) (predecessor successor : Option FactPosition)
    (v : FactVersion) : FactVersion :=
  let v := (setPlace f predecessor successor).on (isVersion f.factKey f.memoryId) v
  let v := match predecessor with
    | some p => (setClosed f).on (isVersion f.factKey p.memoryId) v
    | none => v
  match successor with
  | some s => (setPreceded f).on (isVersion f.factKey s.memoryId) v
  | none => v

/-- `linkVersion` updates row by row. -/
theorem linkVersion_rows (T : FactTables) (f : FactRegistration)
    (predecessor successor : Option FactPosition) :
    (T.linkVersion f predecessor successor).versions.rows =
      T.versions.rows.map (linkRow f predecessor successor) := by
  unfold linkVersion
  cases predecessor <;> cases successor <;> simp only [updateVersions_rows, List.map_map] <;> rfl

/-- `linkVersion` leaves the evidence alone. -/
theorem linkVersion_evidence (T : FactTables) (f : FactRegistration)
    (predecessor successor : Option FactPosition) :
    (T.linkVersion f predecessor successor).evidence = T.evidence := by
  cases predecessor <;> cases successor <;> rfl

/-- An assignment that keeps statements keeps them under a condition. -/
theorem statement_on {f : RowAssignment FactVersion.primaryKey FactVersion.rowid}
    (hf : ∀ v, (f.set v).statement = v.statement) (p : FactVersion → Bool) (v : FactVersion) :
    (f.on p v).statement = v.statement := by
  unfold Assignment.on
  split
  · exact hf v
  · rfl

/-- Linking leaves every statement alone. -/
theorem linkRow_statement (f : FactRegistration) (predecessor successor : Option FactPosition)
    (v : FactVersion) : (linkRow f predecessor successor v).statement = v.statement := by
  have hplace := statement_on (f := setPlace f predecessor successor) fun _ => rfl
  have hclosed := statement_on (f := setClosed f) fun _ => rfl
  have hpreceded := statement_on (f := setPreceded f) fun _ => rfl
  unfold linkRow
  cases predecessor <;> cases successor <;> simp only [hplace, hclosed, hpreceded]

/-- Linking sets the start of the version itself only. -/
theorem linkRow_validFromMs (f : FactRegistration) (predecessor successor : Option FactPosition)
    (v : FactVersion) : (linkRow f predecessor successor v).validFromMs =
      if isVersion f.factKey f.memoryId v then f.timestamp.toInt64 else v.validFromMs := by
  have hclosed : ∀ p v, ((setClosed f).on p v).validFromMs = v.validFromMs := by
    intro p v
    unfold Assignment.on
    split <;> rfl
  have hpreceded : ∀ p v, ((setPreceded f).on p v).validFromMs = v.validFromMs := by
    intro p v
    unfold Assignment.on
    split <;> rfl
  have hplace : ((setPlace f predecessor successor).on (isVersion f.factKey f.memoryId)
      v).validFromMs =
        if isVersion f.factKey f.memoryId v then f.timestamp.toInt64 else v.validFromMs := by
    unfold Assignment.on
    split <;> rfl
  unfold linkRow
  cases predecessor <;> cases successor <;> simp only [hclosed, hpreceded, hplace]

/-- Linking leaves alone every row that is neither the version itself nor a neighbour. -/
theorem linkRow_of_ne {f : FactRegistration} {predecessor successor : Option FactPosition}
    {v : FactVersion} (hself : v.primaryKey ≠ (f.factKey, f.memoryId))
    (hpred : ∀ p ∈ predecessor, v.primaryKey ≠ (f.factKey, p.memoryId))
    (hsucc : ∀ s ∈ successor, v.primaryKey ≠ (f.factKey, s.memoryId)) :
    linkRow f predecessor successor v = v := by
  have hno : ∀ (g : RowAssignment primaryKey FactVersion.rowid) (m : String),
      v.primaryKey ≠ (f.factKey, m) → g.on (isVersion f.factKey m) v = v := by
    intro g m hm
    have hm : isVersion f.factKey m v = false := by simpa [primaryKey, isVersion] using hm
    simp [Assignment.on, hm]
  unfold linkRow
  cases predecessor with
  | none =>
    cases successor with
    | none => rw [hno _ _ hself]
    | some s => simp only [hno _ _ hself, hno _ _ (hsucc s rfl)]
  | some p =>
    cases successor with
    | none => simp only [hno _ _ hself, hno _ _ (hpred p rfl)]
    | some s => simp only [hno _ _ hself, hno _ _ (hpred p rfl), hno _ _ (hsucc s rfl)]

/-- Linking sets the place of the version itself, whose neighbours are other memories. -/
theorem linkRow_self {f : FactRegistration} {predecessor successor : Option FactPosition}
    {v : FactVersion} (hself : v.primaryKey = (f.factKey, f.memoryId))
    (hpred : ∀ p ∈ predecessor, p.memoryId ≠ f.memoryId)
    (hsucc : ∀ s ∈ successor, s.memoryId ≠ f.memoryId) :
    linkRow f predecessor successor v = (setPlace f predecessor successor).set v := by
  obtain ⟨hkey, hmem⟩ : v.factKey = f.factKey ∧ v.memoryId = f.memoryId := by
    simpa [primaryKey] using hself
  -- The other assignments are of other memories, so only the place is set.
  have hplace : (setPlace f predecessor successor).on (isVersion f.factKey f.memoryId) v =
      (setPlace f predecessor successor).set v := by
    simp [Assignment.on, isVersion, hkey, hmem]
  have hother : ∀ (g : RowAssignment primaryKey FactVersion.rowid) (m : String),
      m ≠ f.memoryId → g.on (isVersion f.factKey m) ((setPlace f predecessor successor).set v) =
        (setPlace f predecessor successor).set v := by
    intro g m hm
    simp [Assignment.on, isVersion, setPlace, hmem, Ne.symm hm]
  unfold linkRow
  rw [hplace]
  -- With or without neighbours the row of the fact is the same.
  cases predecessor with
  | none =>
    cases successor with
    | none => rfl
    | some s => exact hother _ _ (hsucc s rfl)
  | some p =>
    cases successor with
    | none => exact hother _ _ (hpred p rfl)
    | some s =>
      simp only
      rw [hother _ _ (hpred p rfl), hother _ _ (hsucc s rfl)]

/-- Linking closes the predecessor. -/
theorem linkRow_predecessor {f : FactRegistration} {p : FactPosition}
    {successor : Option FactPosition} {v : FactVersion} (hkey : v.factKey = f.factKey)
    (hmem : v.memoryId = p.memoryId) (hself : v.memoryId ≠ f.memoryId)
    (hsucc : ∀ s ∈ successor, v.memoryId ≠ s.memoryId) :
    linkRow f (some p) successor v = (setClosed f).set v := by
  have hplace : (setPlace f (some p) successor).on (isVersion f.factKey f.memoryId) v = v := by
    simp [Assignment.on, isVersion, hself]
  have hclosed : (setClosed f).on (isVersion f.factKey p.memoryId) v = (setClosed f).set v := by
    simp [Assignment.on, isVersion, hkey, hmem]
  unfold linkRow
  simp only [hplace, hclosed]
  cases successor with
  | none => rfl
  | some s =>
    have hs : isVersion f.factKey s.memoryId ((setClosed f).set v) = false := by
      simp [isVersion, setClosed, hsucc s rfl]
    simp [Assignment.on, hs]

/-- Linking makes the successor name the version. -/
theorem linkRow_successor {f : FactRegistration} {s : FactPosition}
    {predecessor : Option FactPosition} {v : FactVersion} (hkey : v.factKey = f.factKey)
    (hmem : v.memoryId = s.memoryId) (hself : v.memoryId ≠ f.memoryId)
    (hpred : ∀ p ∈ predecessor, v.memoryId ≠ p.memoryId) :
    linkRow f predecessor (some s) v = (setPreceded f).set v := by
  have hplace : (setPlace f predecessor (some s)).on (isVersion f.factKey f.memoryId) v = v := by
    simp [Assignment.on, isVersion, hself]
  have hpreceded : (setPreceded f).on (isVersion f.factKey s.memoryId) v =
      (setPreceded f).set v := by
    simp [Assignment.on, isVersion, hkey, hmem]
  unfold linkRow
  cases predecessor with
  | none => simp only [hplace, hpreceded]
  | some p =>
    have hp : (setClosed f).on (isVersion f.factKey p.memoryId) v = v := by
      simp [Assignment.on, isVersion, hpred p rfl]
    simp only [hplace, hp, hpreceded]

/-- The neighbours a registration finds around its stored version `n`. -/
def neighbours (T : FactTables) (entityId : String) (f : FactRegistration) (n : FactVersion) :
    Option FactPosition × Option FactPosition :=
  (T.orderedFactNeighbour f.factKey entityId f.timestamp n.position.recordedAt n.position.rowid
      true,
    T.orderedFactNeighbour f.factKey entityId f.timestamp n.position.recordedAt n.position.rowid
      false)

/-- The tables after a registration whose stored version is `n` has been placed. -/
def placeVersion (T : FactTables) (entityId : String) (recordedAt : UInt64)
    (f : FactRegistration) (n : FactVersion) : FactTables :=
  let T := T.inserted entityId recordedAt f
  T.linkVersion f (T.neighbours entityId f n).1 (T.neighbours entityId f n).2

/-- The status of a placed version: current if nothing comes after it, else stale with the
pointer to the current version left open. -/
def placedStatus (T : FactTables) (entityId : String) (recordedAt : UInt64)
    (f : FactRegistration) (n : FactVersion) : FactVersionStatus :=
  if ((T.inserted entityId recordedAt f).neighbours entityId f n).2.isNone then
    .current (((T.currentFactVersion f.factKey entityId).filter fun p =>
      p.1 ≠ f.memoryId).map fun p => (p.2, p.1))
  else .stale (0, "")

/-- A registration that does not restate its covering version places a version. -/
theorem registerFact_places {entityId : String} {s : Progress} {f : FactRegistration}
    (h : s.tables.restates entityId f = false) (recordedAt : UInt64) :
    ∃ n, (s.tables.inserted entityId recordedAt f).versions.find? (f.factKey, f.memoryId) =
        some n ∧
      registerFact entityId recordedAt s f = .ok {
        tables := s.tables.placeVersion entityId recordedAt f n
        statuses := s.statuses ++ [s.tables.placedStatus entityId recordedAt f n]
        deferred := s.deferred ++
          if ((s.tables.inserted entityId recordedAt f).neighbours entityId f n).2.isNone then []
          else [(s.statuses.length, f.factKey, entityId)] } := by
  obtain ⟨n, hn⟩ := s.tables.exists_stored entityId recordedAt f
  refine ⟨n, hn, ?_⟩
  -- What does not restate is registered as a version.
  have hversion : registerFact entityId recordedAt s f = registerVersion entityId recordedAt s f := by
    unfold restates at h
    unfold registerFact
    cases hc : s.tables.covering f.factKey entityId f.timestamp with
    | none => rfl
    | some version =>
      simp only [hc] at h
      simp only
      rw [if_neg]
      simpa using h
  have hstored : (s.tables.inserted entityId recordedAt f).factVersion f.factKey f.memoryId =
      .ok n.position := by
    unfold factVersion
    rw [hn]
  rw [hversion]
  unfold registerVersion placedStatus placeVersion neighbours
  simp only [hstored, bind, Except.bind, pure, Except.pure]
  change (if _ then _ else _) = _
  -- Whether there is a version behind it decides all three fields.
  by_cases hnone : ((s.tables.inserted entityId recordedAt f).orderedFactNeighbour f.factKey
    entityId f.timestamp n.position.recordedAt n.position.rowid false).isNone
  · rw [if_pos hnone, if_pos hnone, if_pos hnone, List.append_nil]
  · rw [if_neg hnone, if_neg hnone, if_neg hnone]

/-! ## Chains after a placement -/

/-- A neighbour is a version of the same fact. -/
theorem exists_of_neighbour {T : FactTables} {factKey entityId : String}
    {timestamp recordedAt : UInt64} {rowid : ℕ} {predecessor : Bool} {p : FactPosition}
    (h : T.orderedFactNeighbour factKey entityId timestamp recordedAt rowid predecessor = some p) :
    ∃ v ∈ T.timeline factKey entityId, v.position = p := by
  cases predecessor with
  | true =>
    rw [orderedFactNeighbour_predecessor, Option.map_eq_some_iff] at h
    obtain ⟨v, hv, hp⟩ := h
    exact ⟨v, (List.mem_filter.mp (List.mem_of_getLast? hv)).1, hp⟩
  | false =>
    rw [orderedFactNeighbour_successor, Option.map_eq_some_iff] at h
    obtain ⟨v, hv, hp⟩ := h
    exact ⟨v, (List.mem_filter.mp (List.mem_of_head? hv)).1, hp⟩

/-- The predecessor found is a version of the fact. -/
theorem exists_of_predecessor {T : FactTables} {entityId : String} {f : FactRegistration}
    {n : FactVersion} {p : FactPosition} (h : (T.neighbours entityId f n).1 = some p) :
    ∃ v ∈ T.timeline f.factKey entityId, v.position = p := by
  simp only [neighbours] at h
  exact exists_of_neighbour h

/-- The successor found is a version of the fact. -/
theorem exists_of_successor {T : FactTables} {entityId : String} {f : FactRegistration}
    {n : FactVersion} {p : FactPosition} (h : (T.neighbours entityId f n).2 = some p) :
    ∃ v ∈ T.timeline f.factKey entityId, v.position = p := by
  simp only [neighbours] at h
  exact exists_of_neighbour h

/-- The two inserts leave every other chain alone. -/
theorem inserted_timeline_of_ne (T : FactTables) {entityId : String} (recordedAt : UInt64)
    {f : FactRegistration} {factKey entity : String}
    (h : ¬ (factKey = f.factKey ∧ entity = entityId)) :
    (T.inserted entityId recordedAt f).timeline factKey entity = T.timeline factKey entity := by
  rcases T.inserted_cases entityId recordedAt f with ⟨-, -, -, hsame⟩ | ⟨-, hrows⟩
  · exact timeline_congr hsame _ _
  · unfold timeline chain
    rw [hrows, List.filter_append, List.filter_cons_of_neg, List.filter_nil, List.append_nil]
    intro hnew
    obtain ⟨hkey, hentity⟩ : f.factKey = factKey ∧ entityId = entity := of_decide_eq_true hnew
    exact h ⟨hkey.symm, hentity.symm⟩

/-- A placement leaves every chain alone but the one of its fact, if the stored version is of that
fact. -/
theorem placeVersion_timeline_of_ne {T : FactTables} {entityId : String} {recordedAt : UInt64}
    {f : FactRegistration} {n : FactVersion}
    (hn : (T.inserted entityId recordedAt f).versions.find? (f.factKey, f.memoryId) = some n)
    (hentity : n.entityId = entityId) {factKey entity : String}
    (h : ¬ (factKey = f.factKey ∧ entity = entityId)) :
    (T.placeVersion entityId recordedAt f n).timeline factKey entity =
      T.timeline factKey entity := by
  obtain ⟨hmem, hkey⟩ := Table.find?_eq_some.mp hn
  -- Every touched row is a version of `f`'s fact.
  have htouched : ∀ a ∈ (T.inserted entityId recordedAt f).timeline f.factKey entityId,
      ∀ v ∈ (T.inserted entityId recordedAt f).timeline factKey entity,
        v.primaryKey ≠ (f.factKey, a.memoryId) := by
    intro a ha v hv hpk
    obtain ⟨ha, hakey, haentity⟩ := mem_timeline.mp ha
    obtain ⟨hv, hvkey, hventity⟩ := mem_timeline.mp hv
    have hav : v = a := (T.inserted entityId recordedAt f).versions.keyed.eq_of_mem hv ha
      (by rw [hpk]; simp [primaryKey, hakey])
    subst hav
    exact h ⟨hvkey.symm.trans hakey, hventity.symm.trans haentity⟩
  have hself : n ∈ (T.inserted entityId recordedAt f).timeline f.factKey entityId :=
    mem_timeline.mpr ⟨hmem, congrArg Prod.fst hkey, hentity⟩
  have hmemory : n.memoryId = f.memoryId := congrArg Prod.snd hkey
  unfold placeVersion
  rw [timeline_map (linkVersion_rows _ _ _ _) (linkRow_statement _ _ _),
    ← T.inserted_timeline_of_ne recordedAt h]
  have hfixed : ∀ v ∈ (T.inserted entityId recordedAt f).timeline factKey entity,
      linkRow f ((T.inserted entityId recordedAt f).neighbours entityId f n).1
        ((T.inserted entityId recordedAt f).neighbours entityId f n).2 v = v := by
    intro v hv
    refine linkRow_of_ne ?_ ?_ ?_
    · rw [← hmemory]
      exact htouched n hself v hv
    · intro p hp
      obtain ⟨a, ha, rfl⟩ := exists_of_predecessor hp
      exact htouched a ha v hv
    · intro p hp
      obtain ⟨a, ha, rfl⟩ := exists_of_successor hp
      exact htouched a ha v hv
  exact (List.map_congr_left hfixed).trans (List.map_id' _)

/-- Around a version stored at the registration's own time the neighbours are the rows next to it
in the chain. -/
theorem neighbours_eq {T : FactTables} (entityId : String) {f : FactRegistration}
    {n : FactVersion} (htime : n.timestampMs = f.timestamp.toInt64) :
    T.neighbours entityId f n =
      (((T.timeline f.factKey entityId).filter fun v =>
          v.chainKey < n.chainKey).getLast?.map position,
        ((T.timeline f.factKey entityId).filter fun v =>
          n.chainKey < v.chainKey).head?.map position) := by
  have hplace : placeKey f.timestamp n.position.recordedAt n.position.rowid = n.chainKey := by
    simp [placeKey, chainKey, position, htime]
  unfold neighbours
  rw [orderedFactNeighbour_predecessor, orderedFactNeighbour_successor, hplace]

/-- Linking between the neighbours of a version acts on a chain by closing the row before the
version, setting the version's place and touching the row after it. -/
theorem map_linkRow {f : FactRegistration} {before after : List FactVersion} {n : FactVersion}
    (hkeys : ∀ v ∈ before ++ n :: after, v.factKey = f.factKey) (hn : n.memoryId = f.memoryId)
    (hids : ((before ++ n :: after).map FactVersion.memoryId).Nodup) :
    (before ++ n :: after).map
        (linkRow f (before.getLast?.map position) (after.head?.map position)) =
      before.modifyLast (setClosed f).set ++
        (setPlace f (before.getLast?.map position) (after.head?.map position)).set n ::
          after.modifyHead (setPreceded f).set := by
  simp only [List.map_append, List.map_cons, List.nodup_append, List.nodup_cons] at hids
  obtain ⟨hbefore, ⟨hnafter, hafter⟩, hcross⟩ := hids
  -- The memories of a chain are distinct, so the fact's is at one place only.
  have hnbefore : ∀ v ∈ before, v.memoryId ≠ f.memoryId := fun v hv =>
    hn ▸ hcross _ (List.mem_map_of_mem hv) _ List.mem_cons_self
  have hnafter : ∀ v ∈ after, v.memoryId ≠ f.memoryId := fun v hv heq =>
    hnafter (List.mem_map.mpr ⟨v, hv, heq.trans hn.symm⟩)
  have hapart : ∀ v ∈ before, ∀ w ∈ after, v.memoryId ≠ w.memoryId := fun v hv w hw =>
    hcross _ (List.mem_map_of_mem hv) _ (List.mem_cons_of_mem _ (List.mem_map_of_mem hw))
  have hpred : ∀ p ∈ before.getLast?.map position, ∃ a ∈ before.getLast?, a.position = p :=
    fun p hp => Option.map_eq_some_iff.mp hp
  have hsucc : ∀ p ∈ after.head?.map position, ∃ a ∈ after.head?, a.position = p :=
    fun p hp => Option.map_eq_some_iff.mp hp
  rw [List.map_append, List.map_cons]
  congr 1
  · -- Before the version only the last row is touched.
    refine map_eq_modifyLast (fun v hv => ?_) fun v hv => ?_
    · have hvmem := List.dropLast_subset _ hv
      refine linkRow_of_ne ?_ ?_ ?_
      · simpa [primaryKey] using fun _ => hnbefore v hvmem
      · intro p hp
        obtain ⟨a, ha, rfl⟩ := hpred p hp
        obtain ⟨init, rfl⟩ := List.getLast?_eq_some_iff.mp ha
        rw [List.dropLast_concat] at hv
        rw [List.map_append, List.nodup_append] at hbefore
        have hne := hbefore.2.2 _ (List.mem_map_of_mem hv) a.memoryId (by simp)
        simpa [primaryKey, position] using fun _ => hne
      · intro p hp
        obtain ⟨b, hb, rfl⟩ := hsucc p hp
        simpa [primaryKey, position] using fun _ => hapart v hvmem b (List.mem_of_head? hb)
    · have hvmem := List.mem_of_getLast? hv
      rw [hv]
      refine linkRow_predecessor (hkeys v (by simp [hvmem])) rfl (hnbefore v hvmem) ?_
      intro p hp
      obtain ⟨b, hb, rfl⟩ := hsucc p hp
      exact hapart v hvmem b (List.mem_of_head? hb)
  congr 1
  -- The version itself gets its place.
  · refine linkRow_self (by simp [primaryKey, hn, hkeys n (by simp)]) ?_ ?_
    · intro p hp
      obtain ⟨a, ha, rfl⟩ := hpred p hp
      exact hnbefore a (List.mem_of_getLast? ha)
    · intro p hp
      obtain ⟨b, hb, rfl⟩ := hsucc p hp
      exact hnafter b (List.mem_of_head? hb)
  · -- After the version only the first row is touched.
    refine map_eq_modifyHead (fun v hv => ?_) fun v hv => ?_
    · have hvmem := List.mem_of_head? hv
      rw [hv]
      refine linkRow_successor (hkeys v (by simp [hvmem])) rfl (hnafter v hvmem) ?_
      intro p hp
      obtain ⟨a, ha, rfl⟩ := hpred p hp
      exact (hapart a (List.mem_of_getLast? ha) v hvmem).symm
    · have hvmem := List.mem_of_mem_tail hv
      refine linkRow_of_ne ?_ ?_ ?_
      · simpa [primaryKey] using fun _ => hnafter v hvmem
      · intro p hp
        obtain ⟨a, ha, rfl⟩ := hpred p hp
        simpa [primaryKey, position] using fun _ =>
          (hapart a (List.mem_of_getLast? ha) v hvmem).symm
      · intro p hp
        obtain ⟨b, hb, rfl⟩ := hsucc p hp
        obtain ⟨rest, rfl⟩ := List.head?_eq_some_iff.mp hb
        rw [List.map_cons, List.nodup_cons] at hafter
        have hne : v.memoryId ≠ b.memoryId := fun heq =>
          hafter.1 (List.mem_map.mpr ⟨v, hv, heq⟩)
        simpa [primaryKey, position] using fun _ => hne

/-- A placement at the registration's own time closes the row before the version, sets the
version's place and touches the row after it, in the chain the inserts left. -/
theorem placeVersion_timeline {T : FactTables} {entityId : String} {recordedAt : UInt64}
    {f : FactRegistration} {n : FactVersion}
    (hn : (T.inserted entityId recordedAt f).versions.find? (f.factKey, f.memoryId) = some n)
    (hentity : n.entityId = entityId) (htime : n.timestampMs = f.timestamp.toInt64) :
    ∃ before after,
      (T.inserted entityId recordedAt f).timeline f.factKey entityId = before ++ n :: after ∧
      (T.inserted entityId recordedAt f).neighbours entityId f n =
        (before.getLast?.map position, after.head?.map position) ∧
      (T.placeVersion entityId recordedAt f n).timeline f.factKey entityId =
        before.modifyLast (setClosed f).set ++
          (setPlace f (before.getLast?.map position) (after.head?.map position)).set n ::
            after.modifyHead (setPreceded f).set := by
  obtain ⟨hmem, hkey⟩ := Table.find?_eq_some.mp hn
  -- The new row is on the chain, which is split at it.
  have hself : n ∈ (T.inserted entityId recordedAt f).timeline f.factKey entityId :=
    mem_timeline.mpr ⟨hmem, congrArg Prod.fst hkey, hentity⟩
  have hmemory : n.memoryId = f.memoryId := congrArg Prod.snd hkey
  have hneighbours := neighbours_eq (T := T.inserted entityId recordedAt f) entityId
    (f := f) htime
  have hsplit := split_at_key ((T.inserted entityId recordedAt f).timeline_pairwise _ _) hself
  have hids := (T.inserted entityId recordedAt f).timeline_memoryId_nodup f.factKey entityId
  have hkeys : ∀ v ∈ (T.inserted entityId recordedAt f).timeline f.factKey entityId,
      v.factKey = f.factKey := fun v hv => (mem_timeline.mp hv).2.1
  refine ⟨_, _, hsplit, hneighbours, ?_⟩
  rw [hsplit] at hids hkeys
  unfold placeVersion
  rw [timeline_map (linkVersion_rows _ _ _ _) (linkRow_statement _ _ _), hneighbours,
    ← map_linkRow hkeys hmemory hids]
  exact congrArg (List.map _) hsplit

end FactTables

end Tellodb
