import Tellodb.Facts.Delete
import Tellodb.Relational.Run

/-!
# Deletion as if never registered

`leftOut memoryId H` is a history without the facts of a memory, and `ForgetsFacts` says that the
deletion of the memory after the history leaves what the history without it leaves. A statement
that came to restate a version of the memory has no version of its own, only evidence for one that
the deletion removes, so its value is lost with it (`forgotten_residence`).

The two runs are compared by `Forgotten`: the second tables state what the first ones state without
the memory. A registration keeps the relation if it restates or not whether the memory is there or
not (`Undisturbed`, `Forgotten.registeredFact`), so a history of such registrations ends in related
tables (`Forgotten.registerBatches`), and the deletion closes the gap. -/

namespace Tellodb

open Relational FactTables FactVersion

/-- A history without the facts of a memory. -/
def leftOut (memoryId : String) (H : List FactBatch) : List FactBatch :=
  H.map fun b =>
    { b with registrations := b.registrations.filter fun f => !isOf memoryId f.memoryId }

/-- The deletion of a memory after a history leaves the current value and the value at every
instant, of every fact, that the history without the memory leaves. -/
def ForgetsFacts (memoryId : String) (H : List FactBatch) : Prop :=
  ∃ T U, registerBatches FactTables.empty H = .ok T ∧
    registerBatches FactTables.empty (leftOut memoryId H) = .ok U ∧
    ∀ (order : HashOrder) (now : UInt64) (S : TenantStore) (reason : String), S.facts = T →
      let T' := (S.deleteObservation order now memoryId reason).1.facts
      ∀ entityId factKey,
        T'.getCurrentFactValue entityId factKey = U.getCurrentFactValue entityId factKey ∧
          ∀ p, T'.valuesInForce entityId factKey p = U.valuesInForce entityId factKey p ∧
            ∀ parentOf, (T'.factAsOf parentOf entityId factKey p).map FactHistoryEntry.object =
              (U.factAsOf parentOf entityId factKey p).map FactHistoryEntry.object

/-- A registration that the presence of a memory does not disturb: it agrees with the version
stored under its key and memory, if it is to be placed, and unless it is the memory's own it
restates just as it would without the memory. -/
structure Undisturbed (memoryId : String) (T : FactTables) (entityId : String)
    (f : FactRegistration) : Prop where
  agrees : T.restates entityId f = true ∨ T.Agrees entityId f
  same : isOf memoryId f.memoryId = false →
    (T.without memoryId).restates entityId f = T.restates entityId f

instance (memoryId : String) (T : FactTables) (entityId : String) (f : FactRegistration) :
    Decidable (Undisturbed memoryId T entityId f) :=
  decidable_of_iff ((T.restates entityId f = true ∨ T.Agrees entityId f) ∧
      (isOf memoryId f.memoryId = false →
        (T.without memoryId).restates entityId f = T.restates entityId f))
    ⟨fun h => ⟨h.1, h.2⟩, fun h => ⟨h.agrees, h.same⟩⟩

/-- The registrations of a batch, each with its entity and the reading of the recording clock. -/
def FactBatch.turns (b : FactBatch) : List (String × UInt64 × FactRegistration) :=
  b.registrations.map fun f => (b.entityId, b.recordedAt, f)

/-- The tables after one registration of a history. -/
def registeredTurn (T : FactTables) (turn : String × UInt64 × FactRegistration) : FactTables :=
  T.registeredFact turn.1 turn.2.1 turn.2.2

/-- No registration of the history is disturbed by a memory, at its turn. -/
def NeverDisturbed (memoryId : String) (T : FactTables) (H : List FactBatch) : Prop :=
  EachStep registeredTurn (fun T turn => Undisturbed memoryId T turn.1 turn.2.2) T
    (H.flatMap FactBatch.turns)

instance (memoryId : String) (T : FactTables) (H : List FactBatch) :
    Decidable (NeverDisturbed memoryId T H) :=
  inferInstanceAs (Decidable (EachStep _ _ _ _))

/-! ## Restating, as read off the statements -/

/-- Whether a statement restates depends on what the versions of its fact state. -/
theorem restates_congr {T U : FactTables} {entityId : String} {f : FactRegistration}
    (h : (T.timeline f.factKey entityId).map FactVersion.stated =
      (U.timeline f.factKey entityId).map FactVersion.stated) :
    T.restates entityId f = U.restates entityId f := by
  -- The covering version, as far as the comparison reads it.
  have hcovering : ∀ T : FactTables,
      (T.covering f.factKey entityId f.timestamp).map (fun p => (p.memoryId, p.object)) =
        (((((T.timeline f.factKey entityId).map FactVersion.stated).filter fun a =>
          a.2.timestamp.toInt64 ≤ f.timestamp.toInt64).getLast?).or
          ((T.timeline f.factKey entityId).map FactVersion.stated).head?).map
            fun a => (a.2.memoryId, a.2.object) := by
    intro T
    rw [covering_eq, List.filter_map, List.getLast?_map, List.head?_map, ← Option.map_or,
      Option.map_map, Option.map_map]
    simp only [Function.comp_def, FactVersion.stated, position, Int64.toInt64_toUInt64]
  have hsame : (T.covering f.factKey entityId f.timestamp).map (fun p => (p.memoryId, p.object)) =
      (U.covering f.factKey entityId f.timestamp).map fun p => (p.memoryId, p.object) := by
    rw [hcovering, hcovering, h]
  have hrestates : ∀ T : FactTables, T.restates entityId f =
      ((T.covering f.factKey entityId f.timestamp).map fun p => (p.memoryId, p.object)).any
        fun version => version.1 ≠ f.memoryId && sameFactObject version.2 f.object := by
    intro T
    unfold restates
    cases T.covering f.factKey entityId f.timestamp <;> rfl
  rw [hrestates, hrestates, hsame]

/-! ## The two runs -/

/-- The second tables state what the first ones state without a memory, on linked chains, and all
of it is among the statements `P`, of different times. -/
structure Forgotten (memoryId : String) (P : List (String × FactRegistration)) (T U : FactTables) :
    Prop where
  chained : Chained T
  chained' : Chained U
  times : DistinctTimes P
  known : T.stated ⊆ P
  stated : U.stated = T.stated.filter fun a => !isOf memoryId a.2.memoryId

/-- Statements of different times stay so when some are left out. -/
theorem DistinctTimes.subset {P Q : List (String × FactRegistration)} (hP : DistinctTimes P)
    (h : Q ⊆ P) : DistinctTimes Q :=
  fun a ha b hb => hP a (h ha) b (h hb)

/-- What is stated without a memory. -/
theorem stated_without (T : FactTables) (memoryId : String) :
    (T.without memoryId).stated = T.stated.filter fun a => !isOf memoryId a.2.memoryId := by
  unfold FactTables.stated statements without
  rw [RowTable.deleteWhere_rows, List.map_map, List.map_map, List.filter_map]
  rfl

/-- What is stated is stated by a version. -/
theorem exists_of_mem_stated {T : FactTables} {a : String × FactRegistration}
    (ha : a ∈ T.stated) : ∃ v ∈ T.versions.rows, v.stated = a := by
  obtain ⟨w, hw, rfl⟩ := List.mem_map.mp ha
  obtain ⟨v, hv, rfl⟩ := List.mem_map.mp hw
  exact ⟨v, hv, rfl⟩

/-- A registration agrees with tables that state no more. -/
theorem FactTables.Agrees.of_stated {T U : FactTables} {entityId : String} {f : FactRegistration}
    (h : T.Agrees entityId f) (hsub : U.stated ⊆ T.stated) : U.Agrees entityId f := by
  intro w hw hkey
  obtain ⟨v, hv, hstated⟩ := exists_of_mem_stated (hsub (mem_stated hw))
  simp only [FactVersion.stated, Prod.mk.injEq, FactRegistration.mk.injEq] at hstated
  obtain ⟨hentity, hfactKey, htime, hmemory, -⟩ := hstated
  have hagrees := h v hv (by rw [← hkey]; simp [primaryKey, hfactKey, hmemory])
  refine ⟨hentity.symm.trans hagrees.1, ?_⟩
  rw [← hagrees.2, ← Int64.toInt64_toUInt64 w.timestampMs, ← htime, Int64.toInt64_toUInt64]

section Run

variable {memoryId : String} {P : List (String × FactRegistration)}

/-- A registration that the memory does not disturb keeps the relation, left out or not. -/
theorem Forgotten.registeredFact {T U : FactTables} (h : Forgotten memoryId P T U)
    {entityId : String} {f : FactRegistration} (hf : (entityId, f) ∈ P)
    (hturn : Undisturbed memoryId T entityId f) (recordedAt : UInt64) :
    Forgotten memoryId P (T.registeredFact entityId recordedAt f)
      (if isOf memoryId f.memoryId then U else U.registeredFact entityId recordedAt f) := by
  have hchained : Chained (T.registeredFact entityId recordedAt f) :=
    h.chained.registeredFact hturn.agrees
  have hcases : (T.registeredFact entityId recordedAt f).stated = T.stated ∨
      (T.registeredFact entityId recordedAt f).stated = T.stated ++ [(entityId, f)] := by
    rcases T.statements_registeredFact entityId recordedAt f with hsame | hsame
    · exact .inl (congrArg (List.map FactVersion.stated) hsame)
    · refine .inr ((congrArg (List.map FactVersion.stated) hsame).trans ?_)
      rw [List.map_append]
      rfl
  have hknown : (T.registeredFact entityId recordedAt f).stated ⊆ P := by
    rcases hcases with hsame | hsame
    · rw [hsame]
      exact h.known
    · rw [hsame]
      exact List.append_subset.mpr ⟨h.known, by simpa using hf⟩
  cases hof : isOf memoryId f.memoryId with
  | true =>
    -- The memory's own statement is left out of the second run.
    refine ⟨hchained, h.chained', h.times, hknown, ?_⟩
    rw [if_pos rfl, h.stated]
    rcases hcases with hsame | hsame
    · rw [hsame]
    · rw [hsame, List.filter_append]
      simp [hof]
  | false =>
    rw [if_neg Bool.false_ne_true]
    -- Both tables compare the statement with the same versions.
    have hrestates : U.restates entityId f = T.restates entityId f := by
      rw [← hturn.same hof]
      refine restates_congr ?_
      have hsame : U.stated = (T.without memoryId).stated := by
        rw [h.stated, stated_without]
      have htimes : DistinctTimes U.stated := by
        rw [h.stated]
        exact (h.times.subset h.known).subset (List.filter_subset_self _)
      rw [timeline_stated htimes, timeline_stated (hsame ▸ htimes), hsame]
    have hsub : U.stated ⊆ T.stated := by
      rw [h.stated]
      exact List.filter_subset_self _
    have hagrees : U.restates entityId f = true ∨ U.Agrees entityId f :=
      hturn.agrees.imp (hrestates.trans ·) fun hagrees => hagrees.of_stated hsub
    refine ⟨hchained, h.chained'.registeredFact hagrees, h.times, hknown, ?_⟩
    -- The statement has a version in the one tables exactly if it has one in the others.
    by_cases hold : T.restates entityId f = true ∨
        ∃ v ∈ T.versions.rows, v.primaryKey = (f.factKey, f.memoryId)
    · have hold' : U.restates entityId f = true ∨
          ∃ v ∈ U.versions.rows, v.primaryKey = (f.factKey, f.memoryId) := by
        refine hold.imp (hrestates.trans ·) fun ⟨v, hv, hkey⟩ => ?_
        have hmemory : v.memoryId = f.memoryId := congrArg Prod.snd hkey
        have hstated : v.stated ∈ U.stated := by
          rw [h.stated]
          refine List.mem_filter.mpr ⟨mem_stated hv, ?_⟩
          simp [FactVersion.stated, hmemory, hof]
        obtain ⟨w, hw, hwv⟩ := exists_of_mem_stated hstated
        simp only [FactVersion.stated, Prod.mk.injEq, FactRegistration.mk.injEq] at hwv
        refine ⟨w, hw, ?_⟩
        rw [← hkey]
        simp [primaryKey, hwv]
      rw [stated_registeredFact_of_old recordedAt hold, stated_registeredFact_of_old recordedAt hold',
        h.stated]
    · rw [not_or, not_exists] at hold
      have hnew : ∀ v ∈ T.versions.rows, v.primaryKey ≠ (f.factKey, f.memoryId) :=
        fun v hv hkey => hold.2 v ⟨hv, hkey⟩
      have hnew' : ∀ w ∈ U.versions.rows, w.primaryKey ≠ (f.factKey, f.memoryId) := by
        intro w hw hkey
        obtain ⟨v, hv, hvw⟩ := exists_of_mem_stated (hsub (mem_stated hw))
        simp only [FactVersion.stated, Prod.mk.injEq, FactRegistration.mk.injEq] at hvw
        refine hnew v hv ?_
        rw [← hkey]
        simp [primaryKey, hvw]
      have hfalse : T.restates entityId f = false := by simpa using hold.1
      rw [stated_registeredFact_of_new hfalse recordedAt hnew,
        stated_registeredFact_of_new (hrestates.trans hfalse) recordedAt hnew', h.stated,
        List.filter_append]
      simp [hof]

/-- A batch of such registrations keeps the relation. -/
theorem Forgotten.registeredAll {b : FactBatch} (hb : b.statements ⊆ P) {T U : FactTables}
    (hturn : EachStep registeredTurn (fun T turn => Undisturbed memoryId T turn.1 turn.2.2) T
      b.turns) (h : Forgotten memoryId P T U) :
    Forgotten memoryId P (T.registeredAll b.entityId b.recordedAt b.registrations)
      (U.registeredAll b.entityId b.recordedAt
        (b.registrations.filter fun f => !isOf memoryId f.memoryId)) := by
  obtain ⟨entityId, fs, recordedAt⟩ := b
  unfold FactBatch.statements at hb
  unfold FactBatch.turns at hturn
  simp only at hb hturn ⊢
  induction fs generalizing T U with
  | nil => exact h
  | cons f fs ih =>
    rw [List.map_cons, EachStep.cons_iff] at hturn
    rw [List.map_cons, List.cons_subset] at hb
    have hrest := ih (h.registeredFact hb.1 hturn.1 recordedAt) hb.2 hturn.2
    cases hof : isOf memoryId f.memoryId with
    | true =>
      rw [hof, if_pos rfl] at hrest
      rw [List.filter_cons_of_neg (by simp [hof])]
      exact hrest
    | false =>
      rw [hof, if_neg Bool.false_ne_true] at hrest
      rw [List.filter_cons_of_pos (by simp [hof])]
      exact hrest

/-- A history of such registrations runs without error, with and without the memory, and keeps
the relation. -/
theorem Forgotten.registerBatches {H : List FactBatch} (hH : H.flatMap FactBatch.statements ⊆ P)
    {T U : FactTables} (hturn : NeverDisturbed memoryId T H) (h : Forgotten memoryId P T U) :
    ∃ T' U', registerBatches T H = .ok T' ∧ registerBatches U (leftOut memoryId H) = .ok U' ∧
      Forgotten memoryId P T' U' := by
  induction H generalizing T U with
  | nil => exact ⟨T, U, rfl, rfl, h⟩
  | cons b H ih =>
    unfold NeverDisturbed at hturn
    rw [List.flatMap_cons] at hturn
    rw [List.flatMap_cons, List.append_subset] at hH
    obtain ⟨hfirst, hrest⟩ := hturn.append
    have hbatch := h.registeredAll hH.1 hfirst
    have htables : b.turns.foldl registeredTurn T =
        T.registeredAll b.entityId b.recordedAt b.registrations := List.foldl_map
    rw [htables] at hrest
    obtain ⟨statuses, htx, -⟩ := hbatch.chained.registerFactVersionsTx
    obtain ⟨statuses', htx', -⟩ := hbatch.chained'.registerFactVersionsTx
    obtain ⟨T', U', hrun, hrun', hfinal⟩ := ih hH.2 hrest hbatch
    refine ⟨T', U', ?_, ?_, hfinal⟩
    · unfold Tellodb.registerBatches at hrun ⊢
      rw [List.foldlM_cons, htx]
      exact hrun
    · unfold leftOut Tellodb.registerBatches at hrun' ⊢
      rw [List.map_cons, List.foldlM_cons, htx']
      exact hrun'

end Run

/-! ## The deletion -/

/-- What is stated after a deletion is what was stated without the memory. -/
theorem stated_deleteFacts (T : FactTables) (edges : Table EdgeRow.edgeId) (memoryId : String) :
    (deleteFacts memoryId T edges).1.stated =
      T.stated.filter fun a => !isOf memoryId a.2.memoryId := by
  unfold FactTables.stated
  rw [statements_deleteFacts, List.filter_map]
  rfl

/-- A history of statements of different times forgets a memory that disturbs none of its
registrations. -/
theorem forgetsFacts_of_undisturbed {memoryId : String} {H : List FactBatch}
    (htimes : DistinctTimes (H.flatMap FactBatch.statements))
    (hturn : NeverDisturbed memoryId FactTables.empty H) : ForgetsFacts memoryId H := by
  obtain ⟨T, U, hrun, hrun', h⟩ := Forgotten.registerBatches (List.Subset.refl _) hturn
    ⟨chained_empty, chained_empty, htimes, List.nil_subset _, rfl⟩
  refine ⟨T, U, hrun, hrun', ?_⟩
  rintro order now S reason rfl T' entityId factKey
  have hfacts : T' = (deleteFacts memoryId S.facts S.edges).1 :=
    facts_deleteObservation order now S memoryId reason
  have hstated : U.stated = T'.stated := by
    rw [hfacts, stated_deleteFacts, h.stated]
  refine reads_eq_of_stated ?_ h.chained' ?_ hstated
  · rw [hfacts]
    exact h.chained.deleteFacts S.edges memoryId
  · rw [← hstated, h.stated]
    exact (h.times.subset h.known).subset (List.filter_subset_self _)
/-- The theorem at the deletion of Austin at 100 before Boston at 200. -/
theorem forgetsFacts_of_undisturbed_residence :
    ForgetsFacts "m1" [⟨"alice", [⟨"residence", 100, "m1", "alice", "lives_in", "Austin"⟩,
      ⟨"residence", 200, "m2", "alice", "lives_in", "Boston"⟩], 1⟩] :=
  forgetsFacts_of_undisturbed (by decide) (by decide +kernel)

/-- Austin at 100 and, from another memory, Austin again at 200: with the first memory the second
one's statement is gone. -/
theorem forgotten_residence :
    DistinctTimes [("alice", ⟨"residence", 100, "m1", "alice", "lives_in", "Austin"⟩),
        ("alice", ⟨"residence", 200, "m2", "alice", "lives_in", "Austin"⟩)] ∧
      ¬ ForgetsFacts "m1" [⟨"alice", [⟨"residence", 100, "m1", "alice", "lives_in", "Austin"⟩], 1⟩,
        ⟨"alice", [⟨"residence", 200, "m2", "alice", "lives_in", "Austin"⟩], 2⟩] := by
  refine ⟨by decide, fun ⟨T, U, hrun, hrun', h⟩ => ?_⟩
  have hcurrent := (h .insertion 0 { TenantStore.empty with facts := T } "" rfl "alice"
    "residence").1
  -- The two runs are evaluated as they stand.
  have hnone := congrArg (fun r => r.toOption.map fun T =>
    ({ TenantStore.empty with facts := T }.deleteObservation .insertion 0 "m1"
      "").1.facts.getCurrentFactValue "alice" "residence") hrun
  have hAustin := congrArg (fun r => r.toOption.map fun T =>
    T.getCurrentFactValue "alice" "residence") hrun'
  have hdiffer := hnone.trans ((congrArg some hcurrent).trans hAustin.symm)
  revert hdiffer
  decide +kernel

end Tellodb
