import Tellodb.Storage.Memories
import Tellodb.Facts.Arrival
import Mathlib.Data.List.Dedup

/-!
# Chains after a deletion

The deletion of a memory removes its versions and rebuilds the chains they were in. A rebuilt chain
is linked whatever it was before (`chainOk_rebuild`), so the deletion keeps the invariant of the
fact tables, and it keeps every statement of another memory (`statements_deleteFacts`). -/

namespace Tellodb

open Relational FactTables FactVersion

/-- A chain is linked and its versions are valid from their own times. -/
structure ChainOk (T : FactTables) (factKey entityId : String) : Prop where
  linked : Linked ((T.timeline factKey entityId).map FactVersion.entry)
  validFrom : ∀ v ∈ T.timeline factKey entityId, v.validFromMs = v.timestampMs

/-- The invariant of the tables is that of every chain. -/
theorem chained_iff {T : FactTables} : Chained T ↔ ∀ factKey entityId, ChainOk T factKey entityId := by
  constructor
  · exact fun h factKey entityId =>
      ⟨h.linked factKey entityId, fun v hv => h.validFrom v (mem_timeline.mp hv).1⟩
  · exact fun h => ⟨fun factKey entityId => (h factKey entityId).linked, fun v hv =>
      (h v.factKey v.entityId).validFrom v (mem_timeline.mpr ⟨hv, rfl, rfl⟩)⟩

/-- A chain is as it was if its timeline is. -/
theorem ChainOk.congr {T T' : FactTables} {factKey entityId : String}
    (h : ChainOk T factKey entityId)
    (hsame : T'.timeline factKey entityId = T.timeline factKey entityId) :
    ChainOk T' factKey entityId := by
  obtain ⟨hlinked, hvalid⟩ := h
  rw [← hsame] at hlinked hvalid
  exact ⟨hlinked, hvalid⟩

/-! ## The rebuild of a chain -/

section Relink

variable {T : FactTables} {factKey entityId : String}

/-- Where a version stands, as the rebuild reads it. -/
def FactVersion.place (v : FactVersion) : String × Int64 :=
  (v.memoryId, v.timestampMs)

/-- The update that a rebuild makes for one place of the chain. -/
def relinkStep (factKey entityId : String) (chain : List (String × Int64))
    (x : (String × Int64) × ℕ) (v : FactVersion) : FactVersion :=
  (setRebuilt x.1.2 (if x.2 = 0 then none else chain[x.2 - 1]?) chain[x.2 + 1]?).on
    (fun v => v.factKey = factKey ∧ v.entityId = entityId ∧ v.memoryId = x.1.1) v

/-- The effect of a rebuild on one row. -/
def relinkRow (factKey entityId : String) (chain : List (String × Int64)) (v : FactVersion) :
    FactVersion :=
  chain.zipIdx.foldl (fun v x => relinkStep factKey entityId chain x v) v

/-- A rebuild updates row by row. -/
theorem relink_rows (T : FactTables) (factKey entityId : String) (chain : List (String × Int64)) :
    (T.relink factKey entityId chain).versions.rows =
      T.versions.rows.map (relinkRow factKey entityId chain) := by
  have hfold : ∀ (places : List ((String × Int64) × ℕ)) (T : FactTables),
      (places.foldl (fun T x => T.updateVersions
        (fun v => v.factKey = factKey ∧ v.entityId = entityId ∧ v.memoryId = x.1.1)
        (setRebuilt x.1.2 (if x.2 = 0 then none else chain[x.2 - 1]?) chain[x.2 + 1]?))
        T).versions.rows =
      T.versions.rows.map fun v =>
        places.foldl (fun v x => relinkStep factKey entityId chain x v) v := by
    intro places
    induction places with
    | nil => simp
    | cons x places ih =>
      intro T
      rw [List.foldl_cons, ih, updateVersions_rows, List.map_map]
      rfl
  exact hfold chain.zipIdx T

/-- A place that is not the row's leaves the row alone. -/
theorem relinkStep_of_ne {chain : List (String × Int64)} {x : (String × Int64) × ℕ}
    {v : FactVersion} (h : ¬ (v.factKey = factKey ∧ v.entityId = entityId ∧ v.memoryId = x.1.1)) :
    relinkStep factKey entityId chain x v = v := by
  unfold relinkStep Assignment.on
  rw [if_neg]
  simpa using h

/-- Places that are not the row's leave the row alone. -/
theorem foldl_relinkStep_of_ne {chain : List (String × Int64)}
    {places : List ((String × Int64) × ℕ)} {v : FactVersion}
    (h : ∀ x ∈ places, ¬ (v.factKey = factKey ∧ v.entityId = entityId ∧ v.memoryId = x.1.1)) :
    places.foldl (fun v x => relinkStep factKey entityId chain x v) v = v := by
  induction places with
  | nil => rfl
  | cons x places ih =>
    rw [List.foldl_cons, relinkStep_of_ne (h x List.mem_cons_self)]
    exact ih fun y hy => h y (List.mem_cons_of_mem _ hy)

/-- A rebuild leaves every statement alone. -/
theorem relinkRow_statement (chain : List (String × Int64)) (v : FactVersion) :
    (relinkRow factKey entityId chain v).statement = v.statement := by
  unfold relinkRow
  generalize chain.zipIdx = places
  induction places generalizing v with
  | nil => rfl
  | cons x places ih =>
    rw [List.foldl_cons, ih]
    exact statement_on (fun _ => rfl) _ v

/-- The place before the one at the end of `before`. -/
theorem previous_place {α : Type*} (before after : List α) :
    (if before.length = 0 then none else (before ++ after)[before.length - 1]?) =
      before.getLast? := by
  rcases List.eq_nil_or_concat before with rfl | ⟨init, a, rfl⟩
  · rfl
  · simp

/-- The place after the one at the end of `before`. -/
theorem next_place {α : Type*} (before after : List α) (a : α) :
    (before ++ a :: after)[before.length + 1]? = after.head? := by
  rw [List.getElem?_append_right (by omega)]
  simp [List.head?_eq_getElem?]

/-- A version of the chain comes out with the columns of its place. -/
theorem relinkRow_of_split {before after : List FactVersion} {v : FactVersion}
    (hsplit : T.timeline factKey entityId = before ++ v :: after) :
    relinkRow factKey entityId ((T.timeline factKey entityId).map place) v =
      (setRebuilt v.timestampMs (before.getLast?.map place) (after.head?.map place)).set v := by
  have hids := T.timeline_memoryId_nodup factKey entityId
  have hv := mem_timeline.mp (hsplit ▸ List.mem_append_right before List.mem_cons_self)
  rw [hsplit, List.map_append, List.map_cons, List.nodup_append, List.nodup_cons] at hids
  obtain ⟨-, ⟨hafter, -⟩, hbefore⟩ := hids
  -- Of all places only the version's own changes the row.
  have hself : relinkStep factKey entityId ((T.timeline factKey entityId).map place)
      (place v, before.length) v =
        (setRebuilt v.timestampMs (before.getLast?.map place) (after.head?.map place)).set v := by
    unfold relinkStep Assignment.on
    rw [if_pos (by simpa [place] using hv.2), hsplit, List.map_append, List.map_cons]
    have hprevious := previous_place (before.map place) (place v :: after.map place)
    have hnext := next_place (before.map place) (after.map place) (place v)
    rw [List.length_map] at hprevious hnext
    rw [hprevious, hnext, List.getLast?_map, List.head?_map]
    rfl
  unfold relinkRow
  have hzip : ((T.timeline factKey entityId).map place).zipIdx =
      (before.map place).zipIdx ++ (place v, before.length) ::
        (after.map place).zipIdx (before.length + 1) := by
    rw [hsplit, List.map_append, List.map_cons, List.zipIdx_append, List.zipIdx_cons]
    simp
  -- The other places are of other memories.
  have hother : ∀ (rest : List FactVersion) (n : ℕ) (w : FactVersion), w.memoryId = v.memoryId →
      v.memoryId ∉ rest.map FactVersion.memoryId →
      ((rest.map place).zipIdx n).foldl
        (fun v x => relinkStep factKey entityId ((T.timeline factKey entityId).map place) x v) w =
          w := by
    intro rest n w hw hrest
    refine foldl_relinkStep_of_ne ?_
    rintro x hx ⟨-, -, hmemory⟩
    obtain ⟨u, hu, hux⟩ := List.mem_map.mp (List.fst_mem_of_mem_zipIdx hx)
    refine hrest (List.mem_map.mpr ⟨u, hu, ?_⟩)
    rw [← hw, hmemory, ← hux]
    rfl
  rw [hzip, List.foldl_append, List.foldl_cons,
    hother before 0 v rfl fun h => hbefore _ h _ List.mem_cons_self rfl, hself]
  exact hother after _ _ rfl hafter

/-- The rows of other facts are left alone. -/
theorem relinkRow_of_ne {chain : List (String × Int64)} {v : FactVersion}
    (h : ¬ (v.factKey = factKey ∧ v.entityId = entityId)) :
    relinkRow factKey entityId chain v = v :=
  foldl_relinkStep_of_ne fun _ _ hv => h ⟨hv.1, hv.2.1⟩

/-- A rebuilt chain is linked, whatever it was before. -/
theorem chainOk_relink (T : FactTables) (factKey entityId : String) :
    ChainOk (T.relink factKey entityId ((T.timeline factKey entityId).map place)) factKey
      entityId := by
  have htimeline := timeline_map
    (relink_rows T factKey entityId ((T.timeline factKey entityId).map place))
    (relinkRow_statement _) factKey entityId
  constructor
  · rw [htimeline, List.map_map]
    refine Linked.of_columns fun before v after hsplit => ?_
    -- Every row of the chain is valid from its own time again.
    have hstart : ∀ w ∈ T.timeline factKey entityId,
        (relinkRow factKey entityId ((T.timeline factKey entityId).map place) w).validFromMs =
          w.timestampMs := by
      intro w hw
      obtain ⟨init, rest, hw⟩ := List.append_of_mem hw
      rw [relinkRow_of_split hw]
      rfl
    have hident : ∀ w, (relinkRow factKey entityId ((T.timeline factKey entityId).map place)
        w).memoryId = w.memoryId := fun w => memoryId_of_statement (relinkRow_statement _ w)
    simp only [Function.comp_apply, relinkRow_of_split hsplit, entry, hident]
    -- The columns of a row: its start, its end and its neighbours.
    refine ⟨?_, ?_, ?_, ?_⟩
    · simp [setRebuilt, Function.comp_def, place]
    · simp [setRebuilt, Function.comp_def, place]
    · cases after with
      | nil => rfl
      | cons w rest =>
        simp [setRebuilt, place, hstart w (by rw [hsplit]; simp)]
    · cases after <;> simp [setRebuilt]
  -- The status is read off the place as well.
  · intro v hv
    rw [htimeline] at hv
    obtain ⟨w, hw, rfl⟩ := List.mem_map.mp hv
    obtain ⟨before, after, hsplit⟩ := List.append_of_mem hw
    rw [relinkRow_of_split hsplit]
    rfl

end Relink

/-! ## The deletion -/

section Delete

variable (T : FactTables) (edges : Table EdgeRow.edgeId) (factKey entityId : String)

/-- The rebuild of one chain, on the fact tables. -/
theorem rebuild_facts (s : FactTables × Table EdgeRow.edgeId) :
    (rebuildFactChainAfterDelete s (factKey, entityId)).1 =
      s.1.relink factKey entityId ((s.1.timeline factKey entityId).map place) := rfl

/-- The rebuild of one chain keeps every statement. -/
theorem statements_rebuild (s : FactTables × Table EdgeRow.edgeId) (fact : String × String) :
    (rebuildFactChainAfterDelete s fact).1.statements = s.1.statements := by
  obtain ⟨factKey, entityId⟩ := fact
  rw [rebuild_facts]
  exact statements_of_map (relink_rows _ _ _ _) (relinkRow_statement _)

/-- The rebuild of one chain leaves every other chain alone. -/
theorem timeline_rebuild_of_ne (s : FactTables × Table EdgeRow.edgeId) {fact : String × String}
    (h : (factKey, entityId) ≠ fact) :
    (rebuildFactChainAfterDelete s fact).1.timeline factKey entityId =
      s.1.timeline factKey entityId := by
  obtain ⟨factKey', entityId'⟩ := fact
  rw [rebuild_facts, timeline_map (relink_rows _ _ _ _) (relinkRow_statement _)]
  refine (List.map_congr_left fun v hv => ?_).trans (List.map_id _)
  obtain ⟨-, hkey, hentity⟩ := mem_timeline.mp hv
  refine relinkRow_of_ne fun hv => h ?_
  rw [← hkey, ← hentity, hv.1, hv.2]

/-- The rebuild of chains keeps every statement. -/
theorem statements_rebuildAll (s : FactTables × Table EdgeRow.edgeId)
    (facts : List (String × String)) :
    (facts.foldl rebuildFactChainAfterDelete s).1.statements = s.1.statements := by
  induction facts generalizing s with
  | nil => rfl
  | cons fact facts ih => rw [List.foldl_cons, ih, statements_rebuild]

/-- After the rebuild of chains a chain is in order if it is among them or was before. -/
theorem chainOk_rebuildAll {s : FactTables × Table EdgeRow.edgeId}
    {facts : List (String × String)} {factKey entityId : String}
    (h : (factKey, entityId) ∈ facts ∨ ChainOk s.1 factKey entityId) :
    ChainOk (facts.foldl rebuildFactChainAfterDelete s).1 factKey entityId := by
  induction facts generalizing s with
  | nil => exact h.resolve_left List.not_mem_nil
  | cons fact facts ih =>
    rw [List.foldl_cons]
    refine ih ?_
    by_cases hfact : (factKey, entityId) = fact
    · rw [← hfact, rebuild_facts]
      exact .inr (chainOk_relink s.1 factKey entityId)
    · rw [List.mem_cons, or_assoc] at h
      exact (h.resolve_left hfact).imp_right fun hok =>
        hok.congr (timeline_rebuild_of_ne _ _ _ hfact)

/-- A rebuild leaves the evidence alone. -/
theorem relink_evidence (T : FactTables) (factKey entityId : String)
    (chain : List (String × Int64)) :
    (T.relink factKey entityId chain).evidence = T.evidence := by
  unfold FactTables.relink
  generalize chain.zipIdx = places
  induction places generalizing T with
  | nil => rfl
  | cons x places ih =>
    rw [List.foldl_cons, ih]
    rfl

/-- The rebuild of chains updates row by row, and leaves the evidence and the other chains alone. -/
theorem exists_map_rebuildAll (s : FactTables × Table EdgeRow.edgeId)
    (facts : List (String × String)) :
    (facts.foldl rebuildFactChainAfterDelete s).1.evidence = s.1.evidence ∧
      ∃ g : FactVersion → FactVersion, (∀ v, (g v).statement = v.statement) ∧
        (∀ v, (v.factKey, v.entityId) ∉ facts → g v = v) ∧
        (facts.foldl rebuildFactChainAfterDelete s).1.versions.rows =
          s.1.versions.rows.map g := by
  induction facts generalizing s with
  | nil => exact ⟨rfl, id, fun _ => rfl, fun _ _ => rfl, by simp⟩
  | cons fact facts ih =>
    obtain ⟨factKey, entityId⟩ := fact
    obtain ⟨hevidence, g, hg, hother, hrows⟩ :=
      ih (rebuildFactChainAfterDelete s (factKey, entityId))
    rw [rebuild_facts] at hevidence hrows
    rw [relink_evidence] at hevidence
    rw [relink_rows, List.map_map] at hrows
    refine ⟨hevidence, _, fun v => (hg _).trans (relinkRow_statement _ v), fun v hv => ?_, hrows⟩
    rw [List.mem_cons, not_or] at hv
    have hsame : relinkRow factKey entityId ((s.1.timeline factKey entityId).map place) v = v :=
      relinkRow_of_ne fun h => hv.1 (by rw [h.1, h.2])
    rw [hsame]
    exact hother v hv.2

/-- Without a memory the other chains are as they were. -/
theorem timeline_without {memoryId : String}
    (h : (factKey, entityId) ∉ T.affectedFacts memoryId) :
    (T.without memoryId).timeline factKey entityId = T.timeline factKey entityId := by
  have hchain : (T.without memoryId).chain factKey entityId = T.chain factKey entityId := by
    unfold FactTables.chain without
    rw [RowTable.deleteWhere_rows, List.filter_filter]
    refine List.filter_congr fun v hv => ?_
    cases hof : isOf memoryId v.memoryId with
    | false => simp
    | true =>
      -- A version of the memory is not of this fact.
      rw [Bool.not_true, Bool.and_false, eq_comm, decide_eq_false_iff_not]
      rintro ⟨rfl, rfl⟩
      refine h (List.mem_dedup.mpr (List.mem_map.mpr ⟨v, List.mem_filter.mpr ⟨hv, hof⟩, rfl⟩))
  unfold timeline
  rw [hchain]

/-- A deletion keeps every statement of another memory. -/
theorem statements_deleteFacts (memoryId : String) :
    (deleteFacts memoryId T edges).1.statements =
      T.statements.filter fun v => !isOf memoryId v.memoryId := by
  unfold deleteFacts
  rw [statements_rebuildAll]
  unfold statements without
  rw [RowTable.deleteWhere_rows, List.filter_map]
  rfl

/-- A deletion keeps the chains linked. -/
theorem Chained.deleteFacts {T : FactTables} (hT : Chained T) (edges : Table EdgeRow.edgeId)
    (memoryId : String) : Chained (deleteFacts memoryId T edges).1 := by
  refine chained_iff.mpr fun factKey entityId => chainOk_rebuildAll ?_
  by_cases h : (factKey, entityId) ∈ T.affectedFacts memoryId
  · exact .inl h
  · exact .inr ((chained_iff.mp hT factKey entityId).congr
      (timeline_without T factKey entityId h))

end Delete

/-! ## The facts in the store -/

/-- What a deletion rebuilds after its deletes has no part in the facts, the graph and the cards. -/
theorem deleteObservation_parts (order : HashOrder) (now : UInt64) (S : TenantStore)
    (memoryId reason : String) :
    let S' := (S.deleteObservation order now memoryId reason).1
    (S'.facts, S'.edges) = deleteFacts memoryId S.facts S.edges ∧
      S'.memoryCards = S.memoryCards.deleteWhere fun card =>
        card.sourceMemoryId = memoryId || isOf memoryId card.cardId := by
  intro S'
  obtain ⟨memories, vectorLookup, ftsMemories, sessionRouter, ftsSessionRouter, hframe⟩ :=
    deleteObservation_frame order now S memoryId reason
  show (S'.facts, S'.edges) = _ ∧ S'.memoryCards = _
  rw [show S' = _ from hframe]
  exact ⟨rfl, rfl⟩

/-- The fact tables after a deletion. -/
theorem facts_deleteObservation (order : HashOrder) (now : UInt64) (S : TenantStore)
    (memoryId reason : String) :
    (S.deleteObservation order now memoryId reason).1.facts =
      (deleteFacts memoryId S.facts S.edges).1 :=
  congrArg Prod.fst (deleteObservation_parts order now S memoryId reason).1

end Tellodb
