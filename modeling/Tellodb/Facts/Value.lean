import Tellodb.Facts.Delete
import Tellodb.Facts.Outcome

/-!
# The current value of a fact

On linked chains the current value is what the last version states. A registration changes it only
if it places a version after all others (`currentValue_of_kept`, `currentValue_of_last`), and a
deletion leaves the value of the last version that is not the memory's
(`currentValue_deleteFacts`). -/

namespace Tellodb

open Relational FactTables FactVersion

/-- The current value is the value of the last version. -/
theorem Chained.currentValue {T : FactTables} (hT : Chained T) (entityId factKey : String) :
    T.getCurrentFactValue entityId factKey =
      ((T.timeline factKey entityId).getLast?).map FactVersion.object := by
  rw [hT.getCurrentFactValue]
  unfold readings
  rw [List.getLast?_map, Option.map_map]
  rfl

/-- What the versions of a chain state is read off the statements. -/
theorem map_statement_timeline (T : FactTables) (factKey entityId : String) :
    (T.timeline factKey entityId).map FactVersion.statement =
      orderBy FactVersion.chainKey (T.statements.filter fun v =>
        v.factKey = factKey ∧ v.entityId = entityId) := by
  have hmap : orderBy FactVersion.chainKey
      ((T.chain factKey entityId).map FactVersion.statement) =
        (T.timeline factKey entityId).map FactVersion.statement :=
    (T.keyed_chainKey factKey entityId).orderBy_map FactVersion.statement fun _ _ => rfl
  rw [← hmap]
  unfold statements
  rw [List.filter_map]
  rfl

/-- The values along a list of versions are those along what they state. -/
theorem map_object_statement (versions : List FactVersion) :
    (versions.map FactVersion.statement).map FactVersion.object =
      versions.map FactVersion.object := by
  rw [List.map_map]
  rfl

/-- Tables with the same statements have the same values along every chain. -/
theorem objects_of_statements {T T' : FactTables} (h : T'.statements = T.statements)
    (factKey entityId : String) :
    (T'.timeline factKey entityId).map FactVersion.object =
      (T.timeline factKey entityId).map FactVersion.object := by
  rw [← map_object_statement, map_statement_timeline, h, ← map_statement_timeline,
    map_object_statement]

/-- A fact keeps its current value in tables without some statements, if the last of its versions
is among those that are left. -/
theorem currentValue_of_statements {T T' : FactTables} (hT : Chained T) (hT' : Chained T')
    {p : FactVersion → Bool} (h : T'.statements = T.statements.filter p)
    {factKey entityId : String} {v : FactVersion}
    (hlast : (T.timeline factKey entityId).getLast? = some v) (hv : p v.statement = true) :
    T'.getCurrentFactValue entityId factKey = T.getCurrentFactValue entityId factKey := by
  have hkeyed : Keyed FactVersion.chainKey (T.statements.filter fun v =>
      v.factKey = factKey ∧ v.entityId = entityId) := by
    have hmap : (T.statements.filter fun v => v.factKey = factKey ∧ v.entityId = entityId) =
        (T.chain factKey entityId).map FactVersion.statement := by
      unfold statements
      rw [List.filter_map]
      rfl
    rw [hmap]
    unfold Keyed
    rw [List.map_map]
    exact T.keyed_chainKey factKey entityId
  -- The order commutes with both filters, so the chain is filtered as a whole.
  have htimeline : (T'.timeline factKey entityId).map FactVersion.statement =
      ((T.timeline factKey entityId).map FactVersion.statement).filter p := by
    rw [map_statement_timeline, map_statement_timeline, h, List.filter_filter,
      ← hkeyed.orderBy_filter, List.filter_filter]
    exact congrArg _ (List.filter_congr fun _ _ => Bool.and_comm _ _)
  obtain ⟨init, hinit⟩ := List.getLast?_eq_some_iff.mp hlast
  rw [hT'.currentValue, hT.currentValue, ← List.getLast?_map, ← List.getLast?_map,
    ← map_object_statement, ← map_object_statement, htimeline, hinit, List.map_append,
    List.filter_append, List.map_singleton, List.filter_singleton, hv]
  simp only [cond_true, List.map_append, List.map_singleton, List.getLast?_concat]
  rfl

section Registration

variable {T : FactTables} {entityId : String} {f : FactRegistration}

/-- A registration that restates, is of another fact or places a version before others leaves the
current value alone. -/
theorem currentValue_of_kept (hT : Chained T) {recordedAt : UInt64}
    (h : T.restates entityId f = true ∨ T.Agrees entityId f) {factKey entity : String}
    (hkept : T.restates entityId f = true ∨ T.hasLater entityId recordedAt f = true ∨
      ¬ (factKey = f.factKey ∧ entity = entityId)) :
    (T.registeredFact entityId recordedAt f).getCurrentFactValue entity factKey =
      T.getCurrentFactValue entity factKey := by
  rw [(hT.registeredFact h).currentValue, hT.currentValue]
  -- A restatement changes no version, and a fact that is placed earlier changes not the last one.
  cases hr : T.restates entityId f with
  | true => rw [timeline_congr (registeredFact_versions_of_restates hr recordedAt)]
  | false =>
    have hagrees : T.Agrees entityId f := h.resolve_left (by simp [hr])
    obtain ⟨n, hn, htables⟩ := registeredFact_of_not_restates hr recordedAt
    have hstored := hagrees.stored hn
    rw [htables]
    by_cases hfact : factKey = f.factKey ∧ entity = entityId
    · obtain ⟨rfl, rfl⟩ := hfact
      have hlater : T.hasLater entity recordedAt f = true := by simpa [hr] using hkept
      obtain ⟨before, after, hsplit, hneighbours, -⟩ :=
        placeVersion_timeline hn hstored.1 hstored.2
      -- There is a version after the new one, and the last of these was the last before.
      have hafter : after ≠ [] := by
        rintro rfl
        have hnone := successor_isNone recordedAt hn hstored.2
        rw [hneighbours, hlater] at hnone
        exact absurd hnone (by simp)
      have hlast : ((T.inserted entity recordedAt f).timeline f.factKey entity).getLast? =
          (T.timeline f.factKey entity).getLast? := by
        rcases T.inserted_cases entity recordedAt f with ⟨-, -, -, hsame⟩ | ⟨hnew, hrows⟩
        · rw [timeline_congr hsame]
        · obtain ⟨hmem, hkey⟩ := Table.find?_eq_some.mp hn
          rw [hrows] at hmem
          rcases List.mem_append.mp hmem with hmem | hmem
          · exact absurd hkey (hnew n hmem)
          · rw [← List.mem_singleton.mp hmem] at hrows
            rw [timeline_of_append hrows hsplit, hsplit, List.getLast?_append_of_ne_nil _ hafter,
              List.getLast?_append_of_ne_nil _ (List.cons_ne_nil n after)]
            obtain ⟨w, rest, rfl⟩ := List.exists_cons_of_ne_nil hafter
            rw [List.getLast?_cons_cons]
      -- Linking does not change the values.
      have hobjects : ((T.placeVersion entity recordedAt f n).timeline f.factKey entity).map
          FactVersion.object =
            ((T.inserted entity recordedAt f).timeline f.factKey entity).map FactVersion.object :=
        objects_of_statements
          (statements_of_map (linkVersion_rows _ _ _ _) (linkRow_statement _ _ _)) _ _
      rw [← List.getLast?_map, hobjects, List.getLast?_map, hlast]
    · rw [placeVersion_timeline_of_ne hn hstored.1 hfact]

/-- A version placed after all others brings its value. -/
theorem currentValue_of_last (hT : Chained T) {recordedAt : UInt64}
    (hr : T.restates entityId f = false) (hagrees : T.Agrees entityId f)
    (hlater : T.hasLater entityId recordedAt f = false) :
    ∃ n, (T.inserted entityId recordedAt f).versions.find? (f.factKey, f.memoryId) = some n ∧
      (T.registeredFact entityId recordedAt f).getCurrentFactValue entityId f.factKey =
        some n.object := by
  obtain ⟨n, hn, htables⟩ := registeredFact_of_not_restates hr recordedAt
  have hstored := hagrees.stored hn
  refine ⟨n, hn, ?_⟩
  rw [(hT.registeredFact (.inr hagrees)).currentValue, htables]
  obtain ⟨before, after, hsplit, hneighbours, hplaced⟩ :=
    placeVersion_timeline hn hstored.1 hstored.2
  have hnone := successor_isNone recordedAt hn hstored.2
  rw [hneighbours, hlater] at hnone
  have hafter : after = [] := by simpa using hnone
  rw [hplaced, hafter]
  simp [setPlace]

end Registration

/-- After a deletion the current value is that of the last version which is not the memory's. -/
theorem currentValue_deleteFacts {T : FactTables} (hT : Chained T)
    (edges : Table EdgeRow.edgeId) (memoryId entityId factKey : String) :
    (deleteFacts memoryId T edges).1.getCurrentFactValue entityId factKey =
      (((T.without memoryId).timeline factKey entityId).getLast?).map FactVersion.object := by
  rw [(hT.deleteFacts edges memoryId).currentValue, ← List.getLast?_map, ← List.getLast?_map]
  refine congrArg List.getLast? (objects_of_statements ?_ factKey entityId)
  unfold deleteFacts
  rw [statements_rebuildAll]

end Tellodb
