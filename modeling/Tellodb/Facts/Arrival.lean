import Tellodb.Facts.AsOf

/-!
# Order of arrival

A set of statements of one fact, all of different times and memories, can arrive in any order, cut
into batches in any way (`Arrives`). `OrderIndependent` says that the current value and the value
at every instant do not depend on the arrival. They depend on it as soon as one statement restates
another one (`orderIndependent_iff`): a statement is compared with the version that covers its
time in the chain *so far*, so whether it becomes evidence for an older version or a version of
its own, and with it what closes the version in between, depends on what has arrived already. -/

namespace Tellodb

open Relational FactTables FactVersion

/-- The history is an arrival of the statements `R` about an entity. -/
def Arrives (entityId : String) (R : List FactRegistration) (H : List FactBatch) : Prop :=
  (∀ b ∈ H, b.entityId = entityId) ∧ (H.flatMap FactBatch.registrations).Perm R

/-- Every arrival of the statements leaves the same current value and the same value at every
instant. -/
def OrderIndependent (entityId factKey : String) (R : List FactRegistration) : Prop :=
  ∀ H H', Arrives entityId R H → Arrives entityId R H' →
    ∃ T T', registerBatches FactTables.empty H = .ok T ∧
      registerBatches FactTables.empty H' = .ok T' ∧
      T.getCurrentFactValue entityId factKey = T'.getCurrentFactValue entityId factKey ∧
      ∀ p, T.valuesInForce entityId factKey p = T'.valuesInForce entityId factKey p ∧
        ∀ parentOf, (T.factAsOf parentOf entityId factKey p).map FactHistoryEntry.object =
          (T'.factAsOf parentOf entityId factKey p).map FactHistoryEntry.object

/-- No statement states the value of another one. -/
def NoRestatement (R : List FactRegistration) : Prop :=
  ∀ f ∈ R, ∀ g ∈ R, f ≠ g → sameFactObject f.object g.object = false

/-! ## What a reader sees of a chain -/

/-- What the reads of a fact depend on: the timeline entry of each version and its value. -/
def readings (T : FactTables) (factKey entityId : String) : List (Entry String ℤ × String) :=
  (T.timeline factKey entityId).map fun v => (v.entry, v.object)

/-- A linked chain's readings are determined by the memories, times and values of its versions. -/
theorem Chained.readings_eq {T T' : FactTables} (hT : Chained T) (hT' : Chained T')
    {factKey entityId : String}
    (h : (T.timeline factKey entityId).map (fun v => (v.memoryId, v.timestampMs, v.object)) =
      (T'.timeline factKey entityId).map fun v => (v.memoryId, v.timestampMs, v.object)) :
    readings T factKey entityId = readings T' factKey entityId := by
  have hplaces : ∀ {T : FactTables}, Chained T →
      ((T.timeline factKey entityId).map entry).map (fun e => (e.ident, e.start)) =
        ((T.timeline factKey entityId).map fun v => (v.memoryId, v.timestampMs, v.object)).map
          fun x => (x.1, x.2.1.toInt) := by
    intro T hT
    rw [List.map_map, List.map_map]
    refine List.map_congr_left fun v hv => ?_
    simp [entry, hT.validFrom v (mem_timeline.mp hv).1]
  have hentries : (T.timeline factKey entityId).map entry =
      (T'.timeline factKey entityId).map entry := by
    refine (hT.linked factKey entityId).ext (hT'.linked factKey entityId) ?_
    rw [hplaces hT, hplaces hT', h]
  have hobjects : (T.timeline factKey entityId).map FactVersion.object =
      (T'.timeline factKey entityId).map FactVersion.object := by
    simpa [Function.comp_def] using congrArg (List.map fun x => x.2.2) h
  unfold readings
  rw [← List.zip_map', ← List.zip_map', hentries, hobjects]

/-- The current version with the latest event time is the last version. -/
theorem Chained.lastBy_current {T : FactTables} (hT : Chained T) (entityId factKey : String) :
    lastBy (fun v : FactVersion => v.timestampMs.toInt) ((T.chain factKey entityId).filter fun v =>
      v.status = .current) = (T.timeline factKey entityId).getLast? := by
  have hperm : ((T.chain factKey entityId).filter fun v => v.status = .current).Perm
      (T.timeline factKey entityId).getLast?.toList := by
    rw [← hT.filter_current]
    exact (orderBy_perm _ _).symm.filter _
  unfold lastBy
  cases hlast : (T.timeline factKey entityId).getLast? with
  | none =>
    rw [hlast] at hperm
    rw [List.perm_nil.mp hperm]
    rfl
  | some v =>
    rw [hlast] at hperm
    rw [List.perm_singleton.mp hperm]
    rfl

/-- The current value is the value of the last version. -/
theorem Chained.getCurrentFactValue {T : FactTables} (hT : Chained T) (entityId factKey : String) :
    T.getCurrentFactValue entityId factKey =
      (readings T factKey entityId).getLast?.map Prod.snd := by
  unfold FactTables.getCurrentFactValue readings
  rw [hT.lastBy_current, List.getLast?_map, Option.map_map]
  rfl

/-- The values at an instant are those of the entries in force. -/
theorem valuesInForce_eq (T : FactTables) (entityId factKey : String) (p : UInt64) :
    T.valuesInForce entityId factKey p =
      ((readings T factKey entityId).filter fun x => x.1.InForce p.toInt64.toInt).map Prod.snd := by
  unfold FactTables.valuesInForce readings
  rw [List.filter_map, List.map_map]
  congr 1
  exact List.filter_congr fun v _ => not_invalidatedAtTime p v

/-- What `fact_as_of` reports of a version is read off its entry and value. -/
theorem factAsOf_object (T : FactTables) (parentOf : String → Option String)
    (entityId factKey : String) (p : UInt64) :
    (T.factAsOf parentOf entityId factKey p).map FactHistoryEntry.object =
      ((orderBy (fun x : Entry String ℤ × String => toLex (x.1.start, x.1.ident))
        (readings T factKey entityId)).reverse.find? fun x =>
          (Int64.ofInt x.1.start).toUInt64 ≤ p &&
            x.1.stop.all fun stop => p < (Int64.ofInt stop).toUInt64).map Prod.snd := by
  -- The order of the history is the order of the readings.
  have hkeyed : Keyed (fun v : FactVersion => toLex (v.validFromMs.toInt, v.memoryId))
      (T.timeline factKey entityId) := by
    refine List.pairwise_map.mpr ?_
    refine (List.pairwise_map.mp (T.timeline_memoryId_nodup factKey entityId)).imp
      fun {v w} hvw hkey => hvw ?_
    exact congrArg (fun k : ℤ ×ₗ String => (ofLex k).2) hkey
  have horder : orderBy (fun x : Entry String ℤ × String => toLex (x.1.start, x.1.ident))
      (readings T factKey entityId) =
        (orderBy (fun v : FactVersion => toLex (v.validFromMs.toInt, v.memoryId))
          (T.chain factKey entityId)).map fun v => (v.entry, v.object) := by
    unfold readings
    rw [hkeyed.orderBy_map (fun v => (v.entry, v.object)) fun v _ => rfl,
      ← hkeyed.orderBy_congr (orderBy_perm _ _)]
  unfold FactTables.factAsOf factHistory
  rw [horder, ← List.map_reverse, ← List.map_reverse, List.find?_map, List.find?_map,
    Option.map_map, Option.map_map]
  congr 1
  congr 1
  funext v
  rw [Bool.eq_iff_iff]
  simp only [Function.comp_apply, historyEntry, Option.all_map, Bool.and_eq_true,
    Option.all_eq_true, decide_eq_true_eq, entry, Int64.ofInt_toInt, and_congr_left_iff]
  exact fun _ => decide_eq_true_iff

/-- Tables with the same readings of a fact answer every read of it alike. -/
theorem reads_eq {T T' : FactTables} (hT : Chained T) (hT' : Chained T')
    {factKey entityId : String} (h : readings T factKey entityId = readings T' factKey entityId) :
    T.getCurrentFactValue entityId factKey = T'.getCurrentFactValue entityId factKey ∧
      ∀ p, T.valuesInForce entityId factKey p = T'.valuesInForce entityId factKey p ∧
        ∀ parentOf, (T.factAsOf parentOf entityId factKey p).map FactHistoryEntry.object =
          (T'.factAsOf parentOf entityId factKey p).map FactHistoryEntry.object := by
  refine ⟨?_, fun p => ⟨?_, fun parentOf => ?_⟩⟩
  · rw [hT.getCurrentFactValue, hT'.getCurrentFactValue, h]
  · rw [valuesInForce_eq, valuesInForce_eq, h]
  · rw [factAsOf_object, factAsOf_object, h]

/-! ## Statements of different times -/

/-- What a version states, without its place in the table. -/
def FactVersion.stated (v : FactVersion) : String × FactRegistration :=
  (v.entityId, ⟨v.factKey, v.timestampMs.toUInt64, v.memoryId, v.subject, v.predicate, v.object⟩)

/-- What the versions of the tables state. -/
def FactTables.stated (T : FactTables) : List (String × FactRegistration) :=
  T.statements.map FactVersion.stated

/-- A version states something. -/
theorem FactTables.mem_stated {T : FactTables} {v : FactVersion} (hv : v ∈ T.versions.rows) :
    v.stated ∈ T.stated :=
  List.mem_map.mpr ⟨v.statement, List.mem_map_of_mem hv, rfl⟩

/-- A registration under a key and memory that have no version adds its statement. -/
theorem stated_registeredFact_of_new {T : FactTables} {entityId : String} {f : FactRegistration}
    (h : T.restates entityId f = false) (recordedAt : UInt64)
    (hnew : ∀ v ∈ T.versions.rows, v.primaryKey ≠ (f.factKey, f.memoryId)) :
    (T.registeredFact entityId recordedAt f).stated = T.stated ++ [(entityId, f)] := by
  unfold FactTables.stated
  rw [statements_registeredFact_of_new h recordedAt hnew, List.map_append]
  rfl

/-- Any other registration leaves what is stated as it is. -/
theorem stated_registeredFact_of_old {T : FactTables} {entityId : String} (recordedAt : UInt64)
    {f : FactRegistration} (h : T.restates entityId f = true ∨
      ∃ v ∈ T.versions.rows, v.primaryKey = (f.factKey, f.memoryId)) :
    (T.registeredFact entityId recordedAt f).stated = T.stated := by
  unfold FactTables.stated
  rw [statements_registeredFact_of_old recordedAt h]

/-- Statements about one fact are of different times. -/
def DistinctTimes (S : List (String × FactRegistration)) : Prop :=
  ∀ a ∈ S, ∀ b ∈ S, a.1 = b.1 → a.2.factKey = b.2.factKey → a.2.timestamp = b.2.timestamp → a = b

instance (S : List (String × FactRegistration)) : Decidable (DistinctTimes S) :=
  inferInstanceAs (Decidable (∀ a ∈ S, ∀ b ∈ S, a.1 = b.1 → a.2.factKey = b.2.factKey →
    a.2.timestamp = b.2.timestamp → a = b))

/-- The statements about a fact in the order of their times. -/
def statedTimeline (P : List (String × FactRegistration)) (factKey entityId : String) :
    List (String × FactRegistration) :=
  orderBy (fun a => a.2.timestamp.toInt64.toInt)
    (P.filter fun a => a.2.factKey = factKey ∧ a.1 = entityId)

/-- Where times are different, a chain is what its versions state in the order of their times. -/
theorem timeline_stated {T : FactTables} (hT : DistinctTimes T.stated) (factKey entityId : String) :
    (T.timeline factKey entityId).map FactVersion.stated =
      statedTimeline T.stated factKey entityId := by
  have hchain : T.stated.filter (fun a => a.2.factKey = factKey ∧ a.1 = entityId) =
      (T.chain factKey entityId).map FactVersion.stated := by
    unfold FactTables.stated statements FactTables.chain
    rw [List.map_map, List.filter_map]
    rfl
  unfold statedTimeline
  rw [hchain]
  symm
  refine orderBy_eq_of_pairwise ?_ ((orderBy_perm _ _).map _)
  have hstated : ∀ v ∈ T.timeline factKey entityId, v.stated ∈ T.stated := fun v hv =>
    mem_stated (mem_timeline.mp hv).1
  refine List.pairwise_map.mpr (((T.timeline_pairwise factKey entityId).and
    (List.pairwise_map.mp (T.timeline_memoryId_nodup factKey entityId))).imp_of_mem
      fun {v w} hv hw ⟨hvw, hmemory⟩ => ?_)
  have hle : v.timestampMs.toInt ≤ w.timestampMs.toInt := by
    rcases Prod.Lex.toLex_lt_toLex.mp hvw with h | ⟨h, -⟩
    · exact le_of_lt h
    · exact le_of_eq h
  have hne : v.timestampMs ≠ w.timestampMs := by
    intro htime
    -- Two versions of one time would state the same, and so be of one memory.
    have hvfact := (mem_timeline.mp hv).2
    have hwfact := (mem_timeline.mp hw).2
    have hsame := hT _ (hstated v hv) _ (hstated w hw) (hvfact.2.trans hwfact.2.symm)
      (hvfact.1.trans hwfact.1.symm) (congrArg Int64.toUInt64 htime)
    exact hmemory (congrArg (fun a => a.2.memoryId) hsame)
  have hlt : v.timestampMs.toInt < w.timestampMs.toInt :=
    lt_of_le_of_ne hle fun h => hne (Int64.toInt_inj.mp h)
  simpa [FactVersion.stated] using hlt

/-- Linked chains that state the same at different times answer every read alike. -/
theorem reads_eq_of_stated {T U : FactTables} (hT : Chained T) (hU : Chained U)
    (htimes : DistinctTimes T.stated) {factKey entityId : String}
    (hsame : U.stated = T.stated) :
    T.getCurrentFactValue entityId factKey = U.getCurrentFactValue entityId factKey ∧
      ∀ p, T.valuesInForce entityId factKey p = U.valuesInForce entityId factKey p ∧
        ∀ parentOf, (T.factAsOf parentOf entityId factKey p).map FactHistoryEntry.object =
          (U.factAsOf parentOf entityId factKey p).map FactHistoryEntry.object := by
  refine reads_eq hT hU (hT.readings_eq hU ?_)
  have htimeline : (T.timeline factKey entityId).map FactVersion.stated =
      (U.timeline factKey entityId).map FactVersion.stated := by
    rw [timeline_stated htimes, timeline_stated (hsame ▸ htimes), hsame]
  have hcolumns := congrArg (List.map fun a : String × FactRegistration =>
    (a.2.memoryId, a.2.timestamp.toInt64, a.2.object)) htimeline
  simpa [FactVersion.stated, Function.comp_def] using hcolumns

/-! ## Without restatements -/

/-- The tables hold linked chains of exactly the registered statements, in the order in which
they came. -/
structure Verbatim (P : List (String × FactRegistration)) (T : FactTables) : Prop where
  chained : Chained T
  stated : T.stated = P

/-- Under `Verbatim`, the versions are the registered statements. -/
theorem Verbatim.exists_of_mem {P : List (String × FactRegistration)} {T : FactTables}
    (hT : Verbatim P T) {v : FactVersion} (hv : v ∈ T.versions.rows) : v.stated ∈ P := by
  rw [← hT.stated]
  exact mem_stated hv

/-- A statement under a new memory that restates none before it is added verbatim. -/
theorem Verbatim.registeredFact {P : List (String × FactRegistration)} {T : FactTables}
    (hT : Verbatim P T) {a : String × FactRegistration}
    (hmemory : ∀ b ∈ P, b.2.memoryId ≠ a.2.memoryId)
    (hobject : ∀ b ∈ P, sameFactObject b.2.object a.2.object = false) (recordedAt : UInt64) :
    Verbatim (P ++ [a]) (T.registeredFact a.1 recordedAt a.2) := by
  have hnew : ∀ v ∈ T.versions.rows, v.primaryKey ≠ (a.2.factKey, a.2.memoryId) :=
    fun v hv hkey => hmemory _ (hT.exists_of_mem hv) (congrArg Prod.snd hkey)
  have hrestates : T.restates a.1 a.2 = false := by
    unfold restates
    rcases T.covering_cases a.2.factKey a.1 a.2.timestamp with ⟨-, hc⟩ | ⟨v, hv, hc⟩
    · rw [hc]
    · have hsame : sameFactObject v.object a.2.object = false :=
        hobject _ (hT.exists_of_mem (mem_timeline.mp hv).1)
      simp only [hc, position, hsame, Bool.and_false]
  refine ⟨hT.chained.registeredFact (.inr fun v hv hkey => absurd hkey (hnew v hv)), ?_⟩
  rw [stated_registeredFact_of_new hrestates recordedAt hnew, hT.stated]

/-- The statements of an arrival, in order of arrival. -/
theorem Arrives.statements {entityId : String} {R : List FactRegistration} {H : List FactBatch}
    (h : Arrives entityId R H) : H.flatMap FactBatch.statements =
      (H.flatMap FactBatch.registrations).map fun f => (entityId, f) := by
  rw [List.map_flatMap]
  refine List.flatMap_congr fun b hb => ?_
  unfold FactBatch.statements
  rw [h.1 b hb]

/-- Without restatements an arrival leaves exactly the statements it brings. -/
theorem Arrives.verbatim {entityId : String} {R : List FactRegistration} {H : List FactBatch}
    (h : Arrives entityId R H) (hmemory : (R.map FactRegistration.memoryId).Nodup)
    (hR : NoRestatement R) :
    ∃ T, registerBatches FactTables.empty H = .ok T ∧
      Verbatim ((H.flatMap FactBatch.registrations).map fun f => (entityId, f)) T := by
  rw [← h.statements]
  refine registerBatches_run (I := Verbatim) (P := []) (fun _ _ hT => hT.chained)
    (fun P a rest T recordedAt hsplit hT => ?_) ⟨chained_empty, rfl⟩
  rw [List.nil_append, h.statements] at hsplit
  have hmemories : (P.map (·.2.memoryId) ++ a.2.memoryId :: rest.map (·.2.memoryId)).Nodup := by
    have hnodup := (h.2.map FactRegistration.memoryId).nodup_iff.mpr hmemory
    have hmap := congrArg (List.map fun x => x.2.memoryId) hsplit
    rw [List.map_map, List.map_append, List.map_cons] at hmap
    rw [← hmap]
    exact hnodup
  have hbefore : ∀ b ∈ P, b.2.memoryId ≠ a.2.memoryId := fun b hb =>
    (List.nodup_append.mp hmemories).2.2 _ (List.mem_map_of_mem hb) _ List.mem_cons_self
  have hmem : ∀ b ∈ P ++ a :: rest, b.2 ∈ R := by
    intro b hb
    rw [← hsplit] at hb
    obtain ⟨f, hf, rfl⟩ := List.mem_map.mp hb
    exact h.2.subset hf
  refine hT.registeredFact hbefore (fun b hb => hR b.2 (hmem b (by simp [hb])) a.2
    (hmem a (by simp)) fun heq => hbefore b hb (by rw [heq])) recordedAt

/-- The chain of verbatim tables is determined by the registered statements, whatever their order,
if they are of different times. -/
theorem Verbatim.timeline_eq {entityId factKey : String} {R : List FactRegistration}
    (hkey : ∀ f ∈ R, f.factKey = factKey) (htime : (R.map FactRegistration.timestamp).Nodup)
    {P : List FactRegistration} (hP : P.Perm R) {T : FactTables}
    (hT : Verbatim (P.map fun f => (entityId, f)) T) :
    (T.timeline factKey entityId).map (fun v => (v.memoryId, v.timestampMs, v.object)) =
      (orderBy (fun f : FactRegistration => f.timestamp.toInt64.toInt) R).map fun f =>
        (f.memoryId, f.timestamp.toInt64, f.object) := by
  have hkeyed : Keyed (fun f : FactRegistration => f.timestamp.toInt64.toInt) P := by
    refine List.pairwise_map.mpr ((List.pairwise_map.mp
      ((hP.map FactRegistration.timestamp).nodup_iff.mpr htime)).imp fun {f g} hne heq => hne ?_)
    rw [← UInt64.toUInt64_toInt64 f.timestamp, Int64.toInt_inj.mp heq, UInt64.toUInt64_toInt64]
  have hdistinct : DistinctTimes T.stated := by
    rw [hT.stated]
    intro a ha b hb _ _ hab
    obtain ⟨f, hf, rfl⟩ := List.mem_map.mp ha
    obtain ⟨g, hg, rfl⟩ := List.mem_map.mp hb
    rw [hkeyed.eq_of_mem hf hg (congrArg (fun u => u.toInt64.toInt) hab)]
  -- Every version is of this fact, so the chain is the whole table.
  have hall : (P.map fun f => (entityId, f)).filter
      (fun a => a.2.factKey = factKey ∧ a.1 = entityId) = P.map fun f => (entityId, f) := by
    rw [List.filter_eq_self]
    intro a ha
    obtain ⟨f, hf, rfl⟩ := List.mem_map.mp ha
    exact decide_eq_true ⟨hkey f (hP.subset hf), rfl⟩
  have htimeline : (T.timeline factKey entityId).map FactVersion.stated =
      (orderBy (fun f : FactRegistration => f.timestamp.toInt64.toInt) R).map
        fun f => (entityId, f) := by
    rw [timeline_stated hdistinct, statedTimeline, hT.stated, hall,
      hkeyed.orderBy_map (fun f => (entityId, f)) fun f _ => rfl, ← hkeyed.orderBy_congr hP]
  have hcolumns := congrArg (List.map fun a : String × FactRegistration =>
    (a.2.memoryId, a.2.timestamp.toInt64, a.2.object)) htimeline
  simpa [FactVersion.stated, Function.comp_def] using hcolumns

/-- Without restatements the order of arrival does not matter. -/
theorem orderIndependent_of_noRestatement {entityId factKey : String}
    {R : List FactRegistration} (hkey : ∀ f ∈ R, f.factKey = factKey)
    (htime : (R.map FactRegistration.timestamp).Nodup)
    (hmemory : (R.map FactRegistration.memoryId).Nodup) (hR : NoRestatement R) :
    OrderIndependent entityId factKey R := by
  intro H H' hH hH'
  obtain ⟨T, hrun, hT⟩ := hH.verbatim hmemory hR
  obtain ⟨T', hrun', hT'⟩ := hH'.verbatim hmemory hR
  refine ⟨T, T', hrun, hrun', reads_eq hT.chained hT'.chained (hT.chained.readings_eq hT'.chained ?_)⟩
  rw [hT.timeline_eq hkey htime hH.2, hT'.timeline_eq hkey htime hH'.2]

/-! ## With restatements -/

/-- The earliest statement of the value of another one. -/
theorem exists_first_restatement {R : List FactRegistration} (h : ¬ NoRestatement R) :
    ∃ i ∈ R, (∃ j ∈ R, j ≠ i ∧ sameFactObject j.object i.object = true) ∧
      ∀ k ∈ R, k.timestamp.toInt64.toInt < i.timestamp.toInt64.toInt →
        ∀ l ∈ R, l ≠ k → sameFactObject l.object k.object = false := by
  generalize hbad : (R.filter fun i => ∃ j ∈ R, j ≠ i ∧ sameFactObject j.object i.object = true) =
    bad
  -- The statements that another one repeats.
  have hmem : ∀ i, i ∈ bad ↔ i ∈ R ∧ ∃ j ∈ R, j ≠ i ∧ sameFactObject j.object i.object = true := by
    intro i
    rw [← hbad, List.mem_filter, decide_eq_true_eq]
  have hsorted := orderBy_pairwise_le (fun f : FactRegistration => f.timestamp.toInt64.toInt) bad
  cases hcases : orderBy (fun f : FactRegistration => f.timestamp.toInt64.toInt) bad with
  | nil =>
    rw [orderBy_eq_nil] at hcases
    subst hcases
    refine absurd (fun f hf g hg hfg => ?_) h
    cases hsame : sameFactObject f.object g.object with
    | false => rfl
    | true => exact absurd ((hmem g).mpr ⟨hg, f, hf, hfg, hsame⟩) List.not_mem_nil
  | cons i rest =>
    -- The earliest of them has only other values before it.
    rw [hcases, List.pairwise_cons] at hsorted
    have hi : i ∈ bad := by
      rw [← mem_orderBy (fun f : FactRegistration => f.timestamp.toInt64.toInt) bad, hcases]
      exact List.mem_cons_self
    obtain ⟨hiR, hj⟩ := (hmem i).mp hi
    refine ⟨i, hiR, hj, fun k hk hki l hl hlk => ?_⟩
    cases hsame : sameFactObject l.object k.object with
    | false => rfl
    | true =>
      have hkbad := (hmem k).mpr ⟨hk, l, hl, hlk, hsame⟩
      rw [← mem_orderBy (fun f : FactRegistration => f.timestamp.toInt64.toInt) bad, hcases] at hkbad
      rcases List.mem_cons.mp hkbad with rfl | hkbad
      · exact absurd hki (lt_irrefl _)
      · exact absurd hki (not_lt.mpr (hsorted.1 k hkbad))

/-- A batch of statements of new memories keeps the chains linked, and each version states
something of the tables or of the batch. -/
theorem Chained.registeredAll_fresh (entityId : String) (recordedAt : UInt64)
    {fs : List FactRegistration} (hnodup : (fs.map FactRegistration.memoryId).Nodup)
    {T : FactTables} (hT : Chained T)
    (hfresh : ∀ v ∈ T.statements, ∀ f ∈ fs, v.memoryId ≠ f.memoryId) :
    Chained (T.registeredAll entityId recordedAt fs) ∧
      ∀ v ∈ (T.registeredAll entityId recordedAt fs).statements,
        v ∈ T.statements ∨ ∃ f ∈ fs, v.States (entityId, f) := by
  -- The induction is on the facts that arrive, each of a memory that is not there yet.
  induction fs generalizing T with
  | nil => exact ⟨hT, fun v hv => .inl hv⟩
  | cons f fs ih =>
    rw [List.map_cons, List.nodup_cons] at hnodup
    have hnew : ∀ v ∈ T.versions.rows, v.primaryKey ≠ (f.factKey, f.memoryId) :=
      fun v hv hkey => hfresh v.statement (List.mem_map_of_mem hv) f List.mem_cons_self
        (congrArg Prod.snd hkey)
    have hstep : Chained (T.registeredFact entityId recordedAt f) :=
      hT.registeredFact (.inr fun v hv hkey => absurd hkey (hnew v hv))
    -- A statement that is stored is an old one or the fact's.
    have hcases : ∀ v ∈ (T.registeredFact entityId recordedAt f).statements,
        v ∈ T.statements ∨ v.States (entityId, f) := by
      intro v hv
      rcases T.statements_registeredFact entityId recordedAt f with h | h
      · exact .inl (h ▸ hv)
      · rw [h] at hv
        rcases List.mem_append.mp hv with hv | hv
        · exact .inl hv
        · rw [List.mem_singleton.mp hv]
          exact .inr ⟨rfl, rfl, rfl, rfl, rfl⟩
    obtain ⟨hchained, hstates⟩ := ih hnodup.2 hstep fun v hv g hg => by
      rcases hcases v hv with hv | hv
      · exact hfresh v hv g (List.mem_cons_of_mem _ hg)
      · rw [hv.memoryId]
        exact fun heq => hnodup.1 (List.mem_map.mpr ⟨g, hg, heq.symm⟩)
    refine ⟨hchained, fun v hv => ?_⟩
    rcases hstates v hv with hv | ⟨g, hg, hv⟩
    · rcases hcases v hv with hv | hv
      · exact .inl hv
      · exact .inr ⟨f, List.mem_cons_self, hv⟩
    · exact .inr ⟨g, List.mem_cons_of_mem _ hg, hv⟩

/-- The value at an instant is the value of the last version that has started. -/
theorem Chained.valuesInForce {T : FactTables} (hT : Chained T) (entityId factKey : String)
    (p : UInt64) : T.valuesInForce entityId factKey p =
      (((T.timeline factKey entityId).filter fun v =>
        v.entry.start ≤ p.toInt64.toInt).getLast?.map FactVersion.object).toList := by
  unfold FactTables.valuesInForce
  rw [List.filter_congr fun v _ => not_invalidatedAtTime p v,
    (hT.linked factKey entityId).filter_inForce (hT.starts_ascend factKey entityId)]
  cases ((T.timeline factKey entityId).filter fun v =>
    v.entry.start ≤ p.toInt64.toInt).getLast? <;> rfl

/-- A history of one batch. -/
theorem registerBatches_single {T : FactTables} {entityId : String} {recordedAt : UInt64}
    {fs : List FactRegistration} (h : Chained (T.registeredAll entityId recordedAt fs)) :
    registerBatches T [⟨entityId, fs, recordedAt⟩] =
      .ok (T.registeredAll entityId recordedAt fs) := by
  obtain ⟨statuses, htx, -⟩ := h.registerFactVersionsTx
  unfold registerBatches
  rw [List.foldlM_cons, htx]
  rfl

section Restatement

variable (entityId : String) {factKey : String} {R : List FactRegistration}
  (hkey : ∀ f ∈ R, f.factKey = factKey) (htime : (R.map FactRegistration.timestamp).Nodup)
  (hmemory : (R.map FactRegistration.memoryId).Nodup)

include htime in
/-- Statements of one time are one statement. -/
theorem eq_of_time {f g : FactRegistration} (hf : f ∈ R) (hg : g ∈ R)
    (h : f.timestamp.toInt64.toInt = g.timestamp.toInt64.toInt) : f = g := by
  refine List.inj_on_of_nodup_map htime hf hg ?_
  rw [← UInt64.toUInt64_toInt64 f.timestamp, Int64.toInt_inj.mp h, UInt64.toUInt64_toInt64]

/-- Every version starts at its event time. -/
theorem Chained.entry_start {T : FactTables} (hT : Chained T) {v : FactVersion}
    (hv : v ∈ T.versions.rows) : v.entry.start = v.timestampMs.toInt := by
  rw [← hT.validFrom v hv]
  rfl

include hmemory in
/-- The statements, registered in one batch, leave linked chains of versions that state them. -/
theorem registeredAll_of_perm {fs : List FactRegistration}
    (hperm : fs.Perm R) : Chained (FactTables.empty.registeredAll entityId 0 fs) ∧
      ∀ v ∈ (FactTables.empty.registeredAll entityId 0 fs).versions.rows,
        ∃ f ∈ R, v.States (entityId, f) := by
  have hnodup := (hperm.map FactRegistration.memoryId).nodup_iff.mpr hmemory
  obtain ⟨hchained, hstates⟩ := chained_empty.registeredAll_fresh entityId 0 hnodup
    fun v hv => absurd hv List.not_mem_nil
  refine ⟨hchained, fun v hv => ?_⟩
  rcases hstates v.statement (List.mem_map_of_mem hv) with hv | ⟨f, hf, hv⟩
  · exact absurd hv List.not_mem_nil
  · exact ⟨f, hperm.subset hf, hv.congr rfl⟩

include hkey htime hmemory in
/-- A statement that arrives first is in force at its own time. -/
theorem valuesInForce_of_first {i : FactRegistration} {rest : List FactRegistration}
    (hperm : (i :: rest).Perm R) :
    ∃ T, registerBatches FactTables.empty [⟨entityId, i :: rest, 0⟩] = .ok T ∧
      T.valuesInForce entityId factKey i.timestamp = [i.object] := by
  obtain ⟨hchained, hstates⟩ := registeredAll_of_perm entityId hmemory hperm
  refine ⟨_, registerBatches_single hchained, ?_⟩
  generalize hT : FactTables.empty.registeredAll entityId 0 (i :: rest) = T at hchained hstates ⊢
  -- The first statement found no chain and became a version that stays.
  obtain ⟨v, hv, hvi⟩ : ∃ v ∈ T.versions.rows, v.States (entityId, i) := by
    have hnone : FactTables.empty.restates entityId i = false := rfl
    have hnew := statements_registeredFact_of_new hnone 0 fun v hv => absurd hv List.not_mem_nil
    have hsub := statements_subset_registeredAll
      (FactTables.empty.registeredFact entityId 0 i) entityId 0 rest
    rw [hnew] at hsub
    change _ ⊆ (FactTables.empty.registeredAll entityId 0 (i :: rest)).statements at hsub
    rw [hT] at hsub
    obtain ⟨v, hv, hstatement⟩ := List.mem_map.mp (hsub (List.mem_append_right _ List.mem_cons_self))
    exact ⟨v, hv, (⟨rfl, rfl, rfl, rfl, rfl⟩ : FactVersion.States _ (entityId, i)).congr
      hstatement.symm⟩
  have hvmem : v ∈ (T.timeline factKey entityId).filter fun v =>
      v.entry.start ≤ i.timestamp.toInt64.toInt := by
    refine List.mem_filter.mpr ⟨mem_timeline.mpr ⟨hv, ?_, hvi.entityId⟩, ?_⟩
    · exact hvi.factKey.trans (hkey i (hperm.subset List.mem_cons_self))
    · rw [hchained.entry_start hv, hvi.timestampMs]
      exact decide_eq_true (le_refl _)
  rw [hchained.valuesInForce, List.getLast?_eq_some_getLast (List.ne_nil_of_mem hvmem)]
  generalize hlast : List.getLast _ (List.ne_nil_of_mem hvmem) = w
  -- The last version that has started is of the same time, so it states the same.
  have hw := List.getLast_mem (List.ne_nil_of_mem hvmem)
  rw [hlast, List.mem_filter, decide_eq_true_eq] at hw
  obtain ⟨hwmem, hwstart⟩ := hw
  obtain ⟨f, hf, hwf⟩ := hstates w (mem_timeline.mp hwmem).1
  have hle : v.entry.start ≤ w.entry.start := by
    have hascend := (hchained.starts_ascend factKey entityId).filter
      fun v => decide (v.entry.start ≤ i.timestamp.toInt64.toInt)
    rw [← List.dropLast_append_getLast (List.ne_nil_of_mem hvmem), hlast] at hascend hvmem
    rcases List.mem_append.mp hvmem with hvmem | hvmem
    · exact (List.pairwise_append.mp hascend).2.2 v hvmem w List.mem_cons_self
    · rw [List.mem_singleton.mp hvmem]
  have hfi : f = i := by
    refine eq_of_time htime hf (hperm.subset List.mem_cons_self) (le_antisymm ?_ ?_)
    · rw [← hwf.timestampMs, ← hchained.entry_start (mem_timeline.mp hwmem).1]
      exact hwstart
    · rw [← hvi.timestampMs, ← hwf.timestampMs,
        ← hchained.entry_start (mem_timeline.mp hwmem).1, ← hchained.entry_start hv]
      exact hle
  rw [Option.map_some, Option.toList_some, hwf.object, hfi]

include hkey htime hmemory in
/-- A statement that arrives after the value it restates leaves its own time to an earlier value,
if no earlier statement's value is stated twice. -/
theorem valuesInForce_of_restated {i j : FactRegistration} {rest : List FactRegistration}
    (hperm : (j :: i :: rest).Perm R) (hsame : sameFactObject j.object i.object = true)
    (hfirst : ∀ k ∈ R, k.timestamp.toInt64.toInt < i.timestamp.toInt64.toInt →
      ∀ l ∈ R, l ≠ k → sameFactObject l.object k.object = false) :
    ∃ T, registerBatches FactTables.empty [⟨entityId, j :: i :: rest, 0⟩] = .ok T ∧
      T.valuesInForce entityId factKey i.timestamp ≠ [i.object] := by
  obtain ⟨hchained, hstates⟩ := registeredAll_of_perm entityId hmemory hperm
  refine ⟨_, registerBatches_single hchained, ?_⟩
  have hnodup := (hperm.map FactRegistration.memoryId).nodup_iff.mpr hmemory
  simp only [List.map_cons, List.nodup_cons, List.mem_cons, not_or] at hnodup
  obtain ⟨⟨hji, hj⟩, hi, hrest⟩ := hnodup
  -- The one version of the chain is the one that `i` restates, so `i` gets none of its own.
  have hone := statements_registeredFact_of_new
    (show FactTables.empty.restates entityId j = false from rfl) 0
    fun v hv => absurd hv List.not_mem_nil
  generalize hT₁ : FactTables.empty.registeredFact entityId 0 j = T₁ at hone
  have hof : ∀ v ∈ T₁.versions.rows, v.States (entityId, j) := by
    intro v hv
    have hv : v.statement ∈ T₁.statements := List.mem_map_of_mem hv
    rw [hone] at hv
    exact (⟨rfl, rfl, rfl, rfl, rfl⟩ : FactVersion.States _ (entityId, j)).congr
      (List.mem_singleton.mp hv).symm
  have hrestates : T₁.restates entityId i = true := by
    have hkeys : j.factKey = i.factKey := by
      rw [hkey j (hperm.subset (by simp)), hkey i (hperm.subset (by simp))]
    unfold restates
    rcases T₁.covering_cases i.factKey entityId i.timestamp with ⟨hnil, -⟩ | ⟨v, hv, hc⟩
    · have hmem : ((newVersion entityId 0 j).withRowid empty.versions.nextRowid).statement ∈
          T₁.statements := by
        rw [hone]
        exact List.mem_append_right _ List.mem_cons_self
      exact absurd hnil (timeline_ne_nil_iff.mpr ⟨_, hmem, hkeys, rfl⟩)
    · have hv := hof v (mem_timeline.mp hv).1
      simp only [hc, position, hv.memoryId, hv.object, hsame, Bool.and_true]
      exact decide_eq_true hji
  have hchained₁ : Chained T₁ := by
    rw [← hT₁]
    exact chained_empty.registeredFact (.inr fun v hv => absurd hv List.not_mem_nil)
  have hstatements : (T₁.registeredFact entityId 0 i).statements = T₁.statements := by
    unfold statements
    rw [registeredFact_versions_of_restates hrestates]
  have hmemories : ∀ v ∈ T₁.statements, v.memoryId = j.memoryId := by
    intro v hv
    obtain ⟨w, hw, rfl⟩ := List.mem_map.mp hv
    exact (hof w hw).memoryId
  have hchained₂ : Chained (T₁.registeredFact entityId 0 i) :=
    hchained₁.registeredFact (.inl hrestates)
  have hfresh := (hchained₂.registeredAll_fresh entityId 0 hrest fun v hv f hf hvf => by
    rw [hstatements] at hv
    exact hj (List.mem_map.mpr ⟨f, hf, (hmemories v hv).symm.trans hvf |>.symm⟩)).2
  have hnone : ∀ v ∈ (FactTables.empty.registeredAll entityId 0 (j :: i :: rest)).versions.rows,
      v.memoryId ≠ i.memoryId := by
    intro v hv hvi
    unfold registeredAll at hv
    rw [List.foldl_cons, List.foldl_cons, hT₁] at hv
    rcases hfresh v.statement (List.mem_map_of_mem hv) with hv | ⟨f, hf, hv⟩
    · rw [hstatements] at hv
      exact hji ((hmemories _ hv).symm.trans hvi)
    · exact hi (List.mem_map.mpr ⟨f, hf, hv.memoryId.symm.trans hvi⟩)
  -- So the last version that has started is of an earlier time, and states another value.
  rw [hchained.valuesInForce]
  cases hlast : ((FactTables.empty.registeredAll entityId 0 (j :: i :: rest)).timeline factKey
      entityId |>.filter fun v => v.entry.start ≤ i.timestamp.toInt64.toInt).getLast? with
  | none => simp
  | some w =>
    have hw := List.mem_filter.mp (List.mem_of_getLast? hlast)
    rw [decide_eq_true_eq] at hw
    have hwmem := (mem_timeline.mp hw.1).1
    obtain ⟨f, hf, hwf⟩ := hstates w hwmem
    have hfi : i ≠ f := fun heq => hnone w hwmem (by rw [hwf.memoryId, heq])
    have hbefore : f.timestamp.toInt64.toInt < i.timestamp.toInt64.toInt := by
      refine lt_of_le_of_ne ?_ fun heq => hfi (eq_of_time htime (hperm.subset (by simp)) hf heq.symm)
      rw [← hwf.timestampMs, ← hchained.entry_start hwmem]
      exact hw.2
    simp only [Option.map_some, Option.toList_some, ne_eq, List.cons.injEq, and_true]
    intro hobject
    have hobject : f.object = i.object := hwf.object.symm.trans hobject
    -- Otherwise `i`, or `j` where the earlier statement is another one, restates it.
    have hdiffers := hfirst f hf hbefore
    by_cases hjf : j = f
    · have hij := hdiffers i (hperm.subset (by simp)) hfi
      rw [← hobject, ← hjf] at hij hsame
      rw [hsame] at hij
      exact Bool.noConfusion hij
    · have hjf := hdiffers j (hperm.subset (by simp)) hjf
      rw [hobject, hsame] at hjf
      exact Bool.noConfusion hjf

end Restatement

/-- Statements of one fact, of different times and memories, leave the same current value and the
same value at every instant in whatever order they arrive, exactly when none of them states the
value of another one. -/
theorem orderIndependent_iff {entityId factKey : String} {R : List FactRegistration}
    (hkey : ∀ f ∈ R, f.factKey = factKey) (htime : (R.map FactRegistration.timestamp).Nodup)
    (hmemory : (R.map FactRegistration.memoryId).Nodup) :
    OrderIndependent entityId factKey R ↔ NoRestatement R := by
  refine ⟨fun h => ?_, orderIndependent_of_noRestatement hkey htime hmemory⟩
  by_contra hR
  obtain ⟨i, hi, ⟨j, hj, hji, hsame⟩, hfirst⟩ := exists_first_restatement hR
  -- `i` arrives first of all, or after the `j` it restates.
  have hperm : (j :: i :: (R.erase i).erase j).Perm R := by
    have herase : j ∈ R.erase i := (List.mem_erase_of_ne hji).mpr hj
    have hi := List.perm_cons_erase hi
    have hj := List.perm_cons_erase herase
    exact (List.Perm.swap i j _).trans ((hj.symm.cons i).trans hi.symm)
  have hperm' : (i :: R.erase i).Perm R := (List.perm_cons_erase hi).symm
  obtain ⟨T, hrun, hT⟩ := valuesInForce_of_first entityId hkey htime hmemory hperm'
  obtain ⟨T', hrun', hT'⟩ := valuesInForce_of_restated entityId hkey htime hmemory
    hperm hsame hfirst
  obtain ⟨T₁, T₁', hrun₁, hrun₁', -, hvalues⟩ := h [⟨entityId, i :: R.erase i, 0⟩]
    [⟨entityId, j :: i :: (R.erase i).erase j, 0⟩] ⟨by simp, by simpa using hperm'⟩
    ⟨by simp, by simpa using hperm⟩
  obtain rfl : T = T₁ := Except.ok.inj (hrun.symm.trans hrun₁)
  obtain rfl : T' = T₁' := Except.ok.inj (hrun'.symm.trans hrun₁')
  exact hT' ((hvalues i.timestamp).1.symm.trans hT)

/-- The theorem at two statements of different values. -/
theorem orderIndependent_iff_residence :
    OrderIndependent "alice" "residence"
        [⟨"residence", 100, "m1", "alice", "lives_in", "Austin"⟩,
          ⟨"residence", 200, "m2", "alice", "lives_in", "Boston"⟩] ↔
      NoRestatement
        [⟨"residence", 100, "m1", "alice", "lives_in", "Austin"⟩,
          ⟨"residence", 200, "m2", "alice", "lives_in", "Boston"⟩] :=
  orderIndependent_iff (by decide) (by decide) (by decide)

/-- Austin at 100, Boston at 150 and Austin again at 200: in the order of their times they leave
Austin current, and with Boston arriving last they leave Boston current. -/
theorem orderDependent_residence :
    ([100, 150, 200] : List UInt64).Nodup ∧ ["m1", "m2", "m3"].Nodup ∧
      ¬ OrderIndependent "alice" "residence"
        [⟨"residence", 100, "m1", "alice", "lives_in", "Austin"⟩,
          ⟨"residence", 150, "m2", "alice", "lives_in", "Boston"⟩,
          ⟨"residence", 200, "m3", "alice", "lives_in", "Austin"⟩] := by
  refine ⟨by decide, by decide, fun h => ?_⟩
  obtain ⟨T, T', hrun, hrun', hcurrent, -⟩ := h
    [⟨"alice", [⟨"residence", 100, "m1", "alice", "lives_in", "Austin"⟩,
      ⟨"residence", 150, "m2", "alice", "lives_in", "Boston"⟩,
      ⟨"residence", 200, "m3", "alice", "lives_in", "Austin"⟩], 0⟩]
    [⟨"alice", [⟨"residence", 100, "m1", "alice", "lives_in", "Austin"⟩,
      ⟨"residence", 200, "m3", "alice", "lives_in", "Austin"⟩,
      ⟨"residence", 150, "m2", "alice", "lives_in", "Boston"⟩], 0⟩]
    ⟨by decide, by decide⟩ ⟨by decide, by decide⟩
  -- The two runs are evaluated as they stand.
  have hAustin := congrArg (fun r => r.toOption.map (·.getCurrentFactValue "alice" "residence")) hrun
  have hBoston := congrArg (fun r => r.toOption.map (·.getCurrentFactValue "alice" "residence")) hrun'
  have hdiffer : some (T.getCurrentFactValue "alice" "residence") ≠
      some (T'.getCurrentFactValue "alice" "residence") := by
    refine ne_of_eq_of_ne hAustin.symm (Ne.symm (ne_of_eq_of_ne hBoston.symm ?_))
    decide +kernel
  exact hdiffer (congrArg some hcurrent)

end Tellodb
