import Tellodb.Facts.Commit
import Tellodb.Storage.Steps

/-!
# The text of a router

The text under which a session is found is built from its router, and stored beside it. A merge
builds it before it takes over the focus and the date of the fragment, so it is right exactly if
these leave the heading of the text as it is (`routerText_mergeRouterRecords`). A batch stores what
the last fragment of each session leaves, so `routersAgree_of_run` asks this of the last fragments
only. -/

namespace Tellodb

open Relational

/-! ## One merge -/

/-- The lines that the date and the focus of a session make in its text. -/
def routerHeading (sessionDate sessionFocus : String) : String :=
  "\n".intercalate ("" :: (routerPart "date" sessionDate sessionDate.isEmpty ++
    routerPart "focus" sessionFocus sessionFocus.isEmpty))

/-- The date of a router after a fragment. -/
def takenDate (existing incoming : SessionRouterRecord) : String :=
  if incoming.sessionDate.isEmpty || incoming.sessionDate == "unknown" then existing.sessionDate
  else incoming.sessionDate

/-- The focus of a router after a fragment. -/
def takenFocus (existing incoming : SessionRouterRecord) : String :=
  if incoming.sessionFocus.isEmpty then existing.sessionFocus else incoming.sessionFocus

/-- A fragment whose date and focus change nothing in the heading of the text. -/
def KeepsHeading (existing incoming : SessionRouterRecord) : Prop :=
  routerHeading (takenDate existing incoming) (takenFocus existing incoming) =
    routerHeading existing.sessionDate existing.sessionFocus

instance (existing incoming : SessionRouterRecord) : Decidable (KeepsHeading existing incoming) :=
  inferInstanceAs (Decidable (_ = _))

/-- Lines that are appended come after a separator. -/
theorem intercalate_append (first : String) (lines more : List String) :
    "\n".intercalate (first :: (lines ++ more)) =
      "\n".intercalate (first :: lines) ++ "\n".intercalate ("" :: more) := by
  induction lines generalizing first with
  | nil =>
    cases more with
    | nil => simp
    | cons line more => simp [String.append_assoc]
  | cons line lines ih =>
    rw [List.cons_append, String.intercalate_cons_cons, String.intercalate_cons_cons, ih]
    simp [String.append_assoc]

/-- The lines of a router's text after its heading. -/
def routerLines (record : SessionRouterRecord) : List String :=
  routerPart "speakers" (" ".intercalate record.speakers) record.speakers.isEmpty ++
    routerPart "people" (" ".intercalate record.persons) record.persons.isEmpty ++
    routerPart "facts" (" | ".intercalate record.canonicalFacts) record.canonicalFacts.isEmpty ++
    routerPart "events" (" | ".intercalate record.events) record.events.isEmpty ++
    routerPart "objects" (" ".intercalate record.objects) record.objects.isEmpty ++
    routerPart "places" (" ".intercalate record.places) record.places.isEmpty ++
    routerPart "activities" (" ".intercalate record.activities) record.activities.isEmpty ++
    routerPart "preferences" (" | ".intercalate record.preferenceSignals)
      record.preferenceSignals.isEmpty ++
    routerPart "keywords" (" ".intercalate record.salientTerms) record.salientTerms.isEmpty

/-- The text of a router is its heading between the session and the lines after it. -/
theorem buildSessionRouterText_eq (record : SessionRouterRecord) :
    buildSessionRouterText record = "session " ++ record.sessionId ++
      (routerHeading record.sessionDate record.sessionFocus ++
        "\n".intercalate ("" :: routerLines record)) := by
  have hlines : buildSessionRouterText record =
      "\n".intercalate (("session " ++ record.sessionId) :: ([] ++
        (routerPart "date" record.sessionDate record.sessionDate.isEmpty ++
          routerPart "focus" record.sessionFocus record.sessionFocus.isEmpty ++
            routerLines record))) := by
    unfold buildSessionRouterText routerLines
    simp only [List.append_assoc, List.nil_append, List.cons_append]
  rw [hlines, intercalate_append, String.intercalate_singleton, intercalate_append]
  rfl

/-- A merge leaves the right text exactly if the fragment leaves the heading as it is. -/
theorem routerText_mergeRouterRecords (existing incoming : SessionRouterRecord) :
    (mergeRouterRecords existing incoming).routerText =
      buildSessionRouterText (mergeRouterRecords existing incoming) ↔
        KeepsHeading existing incoming := by
  have htext : (mergeRouterRecords existing incoming).routerText =
      "session " ++ existing.sessionId ++
        (routerHeading existing.sessionDate existing.sessionFocus ++
          "\n".intercalate ("" :: routerLines (mergeRouterRecords existing incoming))) := by
    dsimp only [mergeRouterRecords]
    rw [buildSessionRouterText_eq]
    rfl
  have hbuilt : buildSessionRouterText (mergeRouterRecords existing incoming) =
      "session " ++ existing.sessionId ++
        (routerHeading (takenDate existing incoming) (takenFocus existing incoming) ++
          "\n".intercalate ("" :: routerLines (mergeRouterRecords existing incoming))) := by
    rw [buildSessionRouterText_eq]
    rfl
  rw [htext, hbuilt, String.append_right_inj, String.append_left_inj]
  exact eq_comm

/-! ## A batch -/

/-- The session of a router. -/
def SessionRouterRecord.session (record : SessionRouterRecord) : String × String :=
  (record.sessionId, record.entityId)

/-- What a fragment is merged with: what the batch has merged for its session, else the stored
router. -/
def previousRouter (stored : Table SessionRouterRow.primaryKey) (merged : MergedRouters)
    (record : SessionRouterRecord) : Option SessionRouterRecord :=
  (merged.lookup record.session).or ((stored.find? record.session).map SessionRouterRow.record)

/-- A fragment is merged with what there is for its session. -/
theorem mergeFragment_eq (stored : Table SessionRouterRow.primaryKey) (merged : MergedRouters)
    (record : SessionRouterRecord) : mergeFragment stored merged record =
      merged.put record.session ((previousRouter stored merged record).elim record
        fun previous => mergeRouterRecords previous record) := by
  unfold mergeFragment previousRouter SessionRouterRecord.session
  dsimp only
  cases merged.lookup (record.sessionId, record.entityId) with
  | some previous => rfl
  | none => cases stored.find? (record.sessionId, record.entityId) <;> rfl

/-- What is entered for a session takes the place of what was there. -/
theorem MergedRouters.mem_put {merged : MergedRouters} {key : String × String}
    {record : SessionRouterRecord} {entry : (String × String) × SessionRouterRecord}
    (h : entry ∈ merged.put key record) :
    entry = (key, record) ∨ (entry ∈ merged ∧ entry.1 ≠ key) := by
  unfold MergedRouters.put at h
  split at h
  · obtain ⟨old, hold, rfl⟩ := List.mem_map.mp h
    split
    · exact .inl rfl
    · exact .inr ⟨hold, by assumption⟩
  · rename_i hnone
    rcases List.mem_append.mp h with hold | hnew
    · refine .inr ⟨hold, fun hkey => hnone ?_⟩
      exact List.any_eq_true.mpr ⟨entry, hold, by simpa using hkey⟩
    · exact .inl (List.mem_singleton.mp hnew)

/-- What a batch stores for a session is what its last fragment for it leaves. -/
theorem exists_last_fragment {stored : Table SessionRouterRow.primaryKey}
    {updates : List SessionRouterRecord} {entry : (String × String) × SessionRouterRecord}
    (h : entry ∈ updates.foldl (mergeFragment stored) []) :
    ∃ before record after, updates = before ++ record :: after ∧ entry.1 = record.session ∧
      (∀ later ∈ after, later.session ≠ record.session) ∧
      entry.2 = (previousRouter stored (before.foldl (mergeFragment stored) []) record).elim record
        fun previous => mergeRouterRecords previous record := by
  induction updates using List.reverseRecOn with
  | nil => exact absurd h List.not_mem_nil
  | append_singleton updates record ih =>
    rw [List.foldl_append, List.foldl_cons, List.foldl_nil, mergeFragment_eq] at h
    rcases MergedRouters.mem_put h with rfl | ⟨hold, hkey⟩
    · exact ⟨updates, record, [], rfl, rfl, by simp, rfl⟩
    · obtain ⟨before, last, after, rfl, hsession, hlast, hentry⟩ := ih hold
      refine ⟨before, last, after ++ [record], by simp, hsession, fun later hlater => ?_, hentry⟩
      rcases List.mem_append.mp hlater with hlater | hlater
      · exact hlast later hlater
      · rw [List.mem_singleton.mp hlater, ← hsession]
        exact Ne.symm hkey

/-! ## The stored routers -/

/-- Each stored router has the text that is built from it, in its record and beside it. -/
def RoutersAgree (t : Table SessionRouterRow.primaryKey) : Prop :=
  ∀ r ∈ t.rows, r.routerText = buildSessionRouterText r.record ∧
    r.record.routerText = buildSessionRouterText r.record

/-- A router that is written with its text agrees. -/
theorem RoutersAgree.upsertRouter {t : Table SessionRouterRow.primaryKey} (ht : RoutersAgree t)
    {record : SessionRouterRecord} (hrecord : record.routerText = buildSessionRouterText record)
    (sessionId entityId : String) (createdAtMs updatedAtMs : UInt64) :
    RoutersAgree (upsertRouter t sessionId entityId record createdAtMs updatedAtMs) := by
  intro r hr
  unfold Tellodb.upsertRouter at hr
  cases hfind : t.find? (sessionId, entityId) with
  | none =>
    simp only [hfind, Table.insertOrIgnore] at hr
    split at hr
    · exact ht r hr
    · rcases List.mem_append.mp hr with hr | hr
      · exact ht r hr
      · rw [List.mem_singleton.mp hr]
        exact ⟨hrecord, hrecord⟩
  | some row =>
    simp only [hfind, Table.updateWhere] at hr
    obtain ⟨old, hold, rfl⟩ := List.mem_map.mp hr
    unfold Assignment.on
    split
    · exact ⟨hrecord, hrecord⟩
    · exact ht old hold

/-- The fragments of a batch leave the right texts: the last one for each session changes nothing
in the heading of the router it is merged with, or is the first and has its own text. -/
def KeepsRouterTexts (stored : Table SessionRouterRow.primaryKey)
    (updates : List SessionRouterRecord) : Prop :=
  ∀ i (h : i < updates.length),
    (∀ later ∈ updates.drop (i + 1), later.session ≠ updates[i].session) →
      (previousRouter stored ((updates.take i).foldl (mergeFragment stored) []) updates[i]).elim
        (updates[i].routerText = buildSessionRouterText updates[i])
        fun previous => KeepsHeading previous updates[i]

instance (stored : Table SessionRouterRow.primaryKey) (updates : List SessionRouterRecord) :
    Decidable (KeepsRouterTexts stored updates) :=
  have (previous : Option SessionRouterRecord) (record : SessionRouterRecord) :
      Decidable (previous.elim (record.routerText = buildSessionRouterText record)
        fun previous => KeepsHeading previous record) := by
    cases previous <;> exact inferInstanceAs (Decidable (_ = _))
  inferInstanceAs (Decidable (∀ i (_ : i < updates.length), _ → _))

/-- The merged routers of such a batch have their texts. -/
theorem KeepsRouterTexts.merged {stored : Table SessionRouterRow.primaryKey}
    {updates : List SessionRouterRecord} (h : KeepsRouterTexts stored updates)
    {entry : (String × String) × SessionRouterRecord}
    (hentry : entry ∈ updates.foldl (mergeFragment stored) []) :
    entry.2.routerText = buildSessionRouterText entry.2 := by
  obtain ⟨before, record, after, rfl, -, hlast, hrecord⟩ := exists_last_fragment hentry
  have hget : (before ++ record :: after)[before.length]? = some record := by simp
  obtain ⟨hlength, hget⟩ := List.getElem?_eq_some_iff.mp hget
  have hkeeps := h before.length hlength
  have hafter : (before ++ record :: after).drop (before.length + 1) = after := by simp
  rw [hget, List.take_left' rfl, hafter] at hkeeps
  have hkeeps := hkeeps hlast
  rw [hrecord]
  cases hprevious : previousRouter stored (before.foldl (mergeFragment stored) []) record with
  | none =>
    rw [hprevious] at hkeeps
    exact hkeeps
  | some previous =>
    rw [hprevious] at hkeeps
    exact (routerText_mergeRouterRecords previous record).mpr hkeeps

/-- A batch of such fragments keeps the agreement. -/
theorem RoutersAgree.mergeRouterRecordsTx {S : TenantStore} (hS : RoutersAgree S.sessionRouter)
    {updates : List SessionRouterRecord} (h : KeepsRouterTexts S.sessionRouter updates)
    (now : UInt64) : RoutersAgree (mergeRouterRecordsTx now S updates).sessionRouter := by
  have hmerged : ∀ record ∈ (updates.foldl (mergeFragment S.sessionRouter) []).map Prod.snd,
      record.routerText = buildSessionRouterText record := by
    intro record hrecord
    obtain ⟨entry, hentry, rfl⟩ := List.mem_map.mp hrecord
    exact h.merged hentry
  show RoutersAgree (List.foldl _ S.sessionRouter _)
  generalize (updates.foldl (mergeFragment S.sessionRouter) []).map Prod.snd = merged at hmerged
  generalize S.sessionRouter = t at hS
  induction merged generalizing t with
  | nil => exact hS
  | cons record merged ih =>
    rw [List.foldl_cons]
    exact ih (fun r hr => hmerged r (List.mem_cons_of_mem _ hr)) _
      (hS.upsertRouter (hmerged record List.mem_cons_self) _ _ _ _)

/-- A router that a deletion rebuilds has its text. -/
theorem rebuiltRouter_routerText {sources : Table RouterSource.primaryKey}
    {sessionId entityId : String} {record : SessionRouterRecord}
    (h : rebuiltRouter sources sessionId entityId = some record) :
    record.routerText = buildSessionRouterText record := by
  unfold rebuiltRouter at h
  split at h
  · exact absurd h (by simp)
  · rename_i first rest hlist
    dsimp only at h
    generalize rest.foldl mergeRouterRecords first = merged at h
    rw [← Option.some.inj h]
    rfl

/-- A deletion keeps the agreement. -/
theorem RoutersAgree.deleteObservation {S : TenantStore} (hS : RoutersAgree S.sessionRouter)
    (order : HashOrder) (now : UInt64) (memoryId reason : String) :
    RoutersAgree (S.deleteObservation order now memoryId reason).1.sessionRouter := by
  -- The routers are rebuilt one after the other, and each one agrees.
  have hrebuilt : ∀ (sessions : List (String × String)) (S : TenantStore),
      RoutersAgree S.sessionRouter →
        RoutersAgree (sessions.foldl rebuildRouterAfterDelete S).sessionRouter := by
    intro sessions
    induction sessions with
    | nil => exact fun _ hS => hS
    | cons session sessions ih =>
      intro S hS
      obtain ⟨sessionId, entityId⟩ := session
      refine ih (rebuildRouterAfterDelete S (sessionId, entityId)) ?_
      cases hrouter : rebuiltRouter S.sessionRouterSources sessionId entityId with
      | none =>
        simp only [rebuildRouterAfterDelete, hrouter]
        exact fun r hr => hS r (Table.mem_deleteWhere.mp hr).1
      | some record =>
        simp only [rebuildRouterAfterDelete, hrouter]
        exact hS.upsertRouter (rebuiltRouter_routerText hrouter) _ _ _ _
  -- No router is touched when the chunks are deleted.
  obtain ⟨ftsMemories, vectorLookup, memories, hchunks⟩ := foldl_deleteChunk_frame
    ((S.chunksOf memoryId).map Prod.fst)
    ((order.iterate (S.affectedRouters memoryId)).foldl rebuildRouterAfterDelete
      (deleteRecords now S memoryId reason))
  show RoutersAgree (List.foldl deleteChunk _ _).sessionRouter
  rw [hchunks]
  exact hrebuilt _ (deleteRecords now S memoryId reason) hS

/-! ## Runs -/

/-- A step that leaves the right texts. Only commits are asked for something. -/
def StoreStep.KeepsRouterTexts (S : TenantStore) : StoreStep → Prop
  | .commit _ _ b => Tellodb.KeepsRouterTexts S.sessionRouter b.sessionRouterUpdates
  | .delete .. => True

instance (S : TenantStore) (step : StoreStep) : Decidable (step.KeepsRouterTexts S) :=
  match step with
  | .commit _ _ b => inferInstanceAs
      (Decidable (Tellodb.KeepsRouterTexts S.sessionRouter b.sessionRouterUpdates))
  | .delete .. => inferInstanceAs (Decidable True)

section

variable {cosineSimilarity : List ℚ → List ℚ → ℚ}

/-- One step keeps the agreement. -/
theorem RoutersAgree.step {S : TenantStore} (hS : RoutersAgree S.sessionRouter) (step : StoreStep)
    (h : step.KeepsRouterTexts S) : RoutersAgree (S.step cosineSimilarity step).sessionRouter := by
  cases step with
  | delete order now memoryId reason => exact hS.deleteObservation order now memoryId reason
  | commit order clock b =>
    cases hcommit : S.commitIngest cosineSimilarity order clock b with
    | error e =>
      rw [TenantStore.step_commit_of_error hcommit]
      exact hS
    | ok result =>
      obtain ⟨S', outcome⟩ := result
      rw [TenantStore.step_commit_of_ok hcommit]
      obtain ⟨S₁, hbefore, -, hrouters, -⟩ := commitIngest_routers hcommit
      rw [← hbefore] at hS
      rw [hrouters]
      exact hS.mergeRouterRecordsTx (by rw [hbefore]; exact h) clock.routers

/-- In every run in which the last fragments of each batch leave the headings as they are, the
stored texts are those of the stored routers. -/
theorem routersAgree_of_run {run : List StoreStep}
    (h : EachStep (TenantStore.step cosineSimilarity)
      (fun S step => StoreStep.KeepsRouterTexts S step) TenantStore.empty run) :
    RoutersAgree (run.foldl (TenantStore.step cosineSimilarity) TenantStore.empty).sessionRouter :=
  h.invariant (I := fun S => RoutersAgree S.sessionRouter)
    (fun _ step hS hstep => hS.step step hstep) fun _ hr => absurd hr List.not_mem_nil

end

section

/-- The fragments of a session: what each memory contributes, with the focus and the date it
states. -/
private def fragment (memoryId sessionFocus sessionDate : String) : SessionRouterRecord :=
  let record : SessionRouterRecord :=
    { sessionId := "s1"
      entityId := "alice"
      sessionDate := sessionDate
      documentTimeMs := 0
      speakers := []
      persons := []
      sessionFocus := sessionFocus
      canonicalFacts := []
      events := []
      objects := []
      places := []
      activities := []
      preferenceSignals := []
      salientTerms := []
      sourceMemoryIds := [memoryId]
      routerText := ""
      createdAtMs := 0
      updatedAtMs := 0 }
  { record with routerText := buildSessionRouterText record }

/-- A commit of one fragment. -/
private def commitFragment (record : SessionRouterRecord) : StoreStep :=
  .commit .insertion ⟨1, 1, 1⟩ { sessionRouterUpdates := [record] }

/-- The theorem at a session whose focus stays. -/
theorem routersAgree_of_run_moving :
    RoutersAgree ([commitFragment (fragment "m1" "moving" "2024-01-01"),
      commitFragment (fragment "m2" "moving" "unknown"),
      .delete .insertion 2 "m1" "user"].foldl
        (TenantStore.step fun _ _ => 0) TenantStore.empty).sessionRouter :=
  routersAgree_of_run (by decide +kernel)

/-- With a second focus the stored text has the first one. -/
theorem refocused_moving : ¬ RoutersAgree
    ([commitFragment (fragment "m1" "moving" "2024-01-01"),
      commitFragment (fragment "m2" "painting" "2024-01-01")].foldl
        (TenantStore.step fun _ _ => 0) TenantStore.empty).sessionRouter := by
  unfold RoutersAgree
  decide +kernel

end

end Tellodb
