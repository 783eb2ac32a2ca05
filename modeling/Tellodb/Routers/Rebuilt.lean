import Tellodb.Commit.Atomic
import Tellodb.Deletion.Exact

/-!
# Routers after a deletion

A commit merges the fragments of a session in the order in which they arrive (`routerOf_commits`).
A deletion merges those that are left anew, in the order of the memories that contributed them,
which is that of texts: turn 10 comes before turn 2. It also builds the text of the router anew,
where a commit leaves the one of its last merge. So what a deletion leaves is the merge in the order
of arrival exactly if the memories that are left arrived in the order of their identifiers and the
last fragment changes nothing in the heading of the text (`router_deleteObservation_iff`).

The stored sources are followed through the run: after it they are the fragments that have arrived
and are left, each under its memory (`sources_of_run`). -/

namespace Tellodb

open Relational

/-! ## The merge of several fragments -/

/-- The router of a list of fragments: the first, with the others merged into it in turn. -/
def mergedRouter : List SessionRouterRecord → Option SessionRouterRecord
  | [] => none
  | first :: rest => some (rest.foldl mergeRouterRecords first)

/-- A router with the text that is built from it. -/
def SessionRouterRecord.withText (record : SessionRouterRecord) : SessionRouterRecord :=
  { record with routerText := buildSessionRouterText record }

/-- The memory that contributed a fragment. -/
def SessionRouterRecord.contributor (fragment : SessionRouterRecord) : String :=
  fragment.sourceMemoryIds.headD ""

/-- Fragments of distinct memories, each of which names its own memory. -/
structure ContributedApart (fragments : List SessionRouterRecord) : Prop where
  own : ∀ fragment ∈ fragments, fragment.sourceMemoryIds = [fragment.contributor]
  keyed : Keyed SessionRouterRecord.contributor fragments

instance (fragments : List SessionRouterRecord) : Decidable (ContributedApart fragments) :=
  have : Decidable (Keyed SessionRouterRecord.contributor fragments) :=
    inferInstanceAs (Decidable (List.Nodup _))
  decidable_of_iff ((∀ fragment ∈ fragments, fragment.sourceMemoryIds = [fragment.contributor]) ∧
    Keyed SessionRouterRecord.contributor fragments) ⟨fun h => ⟨h.1, h.2⟩, fun h => ⟨h.1, h.2⟩⟩

/-- A part of such fragments, in any order, is of distinct memories as well. -/
theorem ContributedApart.subperm {fragments part : List SessionRouterRecord}
    (h : ContributedApart fragments) (hpart : part.Subperm fragments) : ContributedApart part := by
  refine ⟨fun fragment hfragment => h.own fragment (hpart.subset hfragment), ?_⟩
  obtain ⟨sorted, hperm, hsub⟩ := hpart
  exact (hperm.map _).nodup_iff.mp (h.keyed.sublist (hsub.map _))

/-- A merge lists the memories of the fragments in the order of the merge. -/
theorem sourceMemoryIds_foldl (rest : List SessionRouterRecord) (first : SessionRouterRecord)
    (hown : ∀ fragment ∈ rest, fragment.sourceMemoryIds = [fragment.contributor])
    (hapart : (first.sourceMemoryIds ++ rest.map SessionRouterRecord.contributor).Nodup) :
    (rest.foldl mergeRouterRecords first).sourceMemoryIds =
      first.sourceMemoryIds ++ rest.map SessionRouterRecord.contributor := by
  induction rest generalizing first with
  | nil => simp
  | cons fragment rest ih =>
    have hnew : fragment.contributor ∉ first.sourceMemoryIds := fun hold =>
      (List.nodup_append.mp hapart).2.2 _ hold _ (by simp) rfl
    have hids : (mergeRouterRecords first fragment).sourceMemoryIds =
        first.sourceMemoryIds ++ [fragment.contributor] := by
      show dedupeAppend first.sourceMemoryIds fragment.sourceMemoryIds = _
      rw [hown fragment List.mem_cons_self]
      exact if_neg hnew
    rw [List.foldl_cons, ih _ (fun f hf => hown f (List.mem_cons_of_mem _ hf)) ?_, hids]
    · simp
    · rw [hids]
      simpa using hapart

/-- The router of fragments of distinct memories lists these in the order of the merge. -/
theorem ContributedApart.sourceMemoryIds {fragments : List SessionRouterRecord}
    (h : ContributedApart fragments) {router : SessionRouterRecord}
    (hrouter : mergedRouter fragments = some router) :
    router.sourceMemoryIds = fragments.map SessionRouterRecord.contributor := by
  cases fragments with
  | nil => exact absurd hrouter (by simp [mergedRouter])
  | cons first rest =>
    have hfirst : first.sourceMemoryIds = [first.contributor] := h.own first List.mem_cons_self
    have hkeyed : (first.sourceMemoryIds ++ rest.map SessionRouterRecord.contributor).Nodup := by
      rw [hfirst]
      exact h.keyed
    rw [← Option.some.inj hrouter, sourceMemoryIds_foldl rest first
      (fun f hf => h.own f (List.mem_cons_of_mem _ hf)) hkeyed, hfirst]
    rfl

/-! ## The text of the merge -/

/-- The date of a session after a fragment. -/
def nextDate (sessionDate : String) (fragment : SessionRouterRecord) : String :=
  if fragment.sessionDate.isEmpty || fragment.sessionDate == "unknown" then sessionDate
  else fragment.sessionDate

/-- The focus of a session after a fragment. -/
def nextFocus (sessionFocus : String) (fragment : SessionRouterRecord) : String :=
  if fragment.sessionFocus.isEmpty then sessionFocus else fragment.sessionFocus

/-- The heading of a session: the last date and the last focus that its fragments state. -/
def headingAfter (first : SessionRouterRecord) (rest : List SessionRouterRecord) : String :=
  routerHeading (rest.foldl nextDate first.sessionDate) (rest.foldl nextFocus first.sessionFocus)

/-- The last of the fragments changes nothing in the heading of the session. A single one has its
own text. -/
def KeepsText : List SessionRouterRecord → Prop
  | [] => True
  | first :: rest =>
    if rest = [] then first.routerText = buildSessionRouterText first
    else headingAfter first rest.dropLast = headingAfter first rest

instance (fragments : List SessionRouterRecord) : Decidable (KeepsText fragments) := by
  cases fragments with
  | nil => exact inferInstanceAs (Decidable True)
  | cons first rest => exact inferInstanceAs (Decidable (if rest = [] then _ else _))

/-- The date and the focus of a merge are the last ones that are stated. -/
theorem heading_foldl (rest : List SessionRouterRecord) (first : SessionRouterRecord) :
    (rest.foldl mergeRouterRecords first).sessionDate = rest.foldl nextDate first.sessionDate ∧
      (rest.foldl mergeRouterRecords first).sessionFocus =
        rest.foldl nextFocus first.sessionFocus := by
  induction rest generalizing first with
  | nil => exact ⟨rfl, rfl⟩
  | cons fragment rest ih => exact ih (mergeRouterRecords first fragment)

/-- The merge of fragments has its text exactly if the last of them keeps the heading. -/
theorem routerText_mergedRouter {fragments : List SessionRouterRecord}
    {router : SessionRouterRecord} (hrouter : mergedRouter fragments = some router) :
    router.withText = router ↔ KeepsText fragments := by
  have htext : router.withText = router ↔ router.routerText = buildSessionRouterText router := by
    constructor
    · intro h
      exact (congrArg SessionRouterRecord.routerText h).symm
    · intro h
      unfold SessionRouterRecord.withText
      rw [← h]
  rw [htext]
  cases fragments with
  | nil => exact absurd hrouter (by simp [mergedRouter])
  | cons first rest =>
    rw [← Option.some.inj hrouter]
    show _ ↔ if rest = [] then _ else _
    rcases List.eq_nil_or_concat rest with rfl | ⟨front, last, rfl⟩
    · exact Iff.rfl
    · rw [if_neg (by simp), List.concat_eq_append, List.dropLast_concat, List.foldl_append,
        List.foldl_cons, List.foldl_nil, routerText_mergeRouterRecords]
      obtain ⟨hdate, hfocus⟩ := heading_foldl front first
      unfold KeepsHeading headingAfter
      rw [List.foldl_append, List.foldl_append, ← hdate, ← hfocus]
      exact eq_comm

/-! ## Two orders of the merge -/

/-- The fragments have arrived in the order of their memories. -/
def ArrivedInOrder (fragments : List SessionRouterRecord) : Prop :=
  (fragments.map SessionRouterRecord.contributor).Pairwise (· < ·)

instance (fragments : List SessionRouterRecord) : Decidable (ArrivedInOrder fragments) :=
  inferInstanceAs (Decidable (List.Pairwise _ _))

/-- The merge in the order of the memories, with its text, is the merge in the order of arrival
exactly if these are the same order and the last fragment keeps the heading. -/
theorem ContributedApart.merged_eq_iff {fragments : List SessionRouterRecord}
    (h : ContributedApart fragments) :
    (mergedRouter (orderBy SessionRouterRecord.contributor fragments)).map
        SessionRouterRecord.withText = mergedRouter fragments ↔
      ArrivedInOrder fragments ∧ KeepsText fragments := by
  have hperm := orderBy_perm SessionRouterRecord.contributor fragments
  constructor
  · intro heq
    cases hrouter : mergedRouter fragments with
    | none =>
      cases fragments with
      | nil => exact ⟨List.Pairwise.nil, trivial⟩
      | cons first rest => exact absurd hrouter (by simp [mergedRouter])
    | some router =>
      rw [hrouter] at heq
      obtain ⟨rebuilt, hrebuilt, htext⟩ := Option.map_eq_some_iff.mp heq
      -- The memories are listed in the order of the merge, so the two orders are one.
      have hsorted := (h.subperm hperm.subperm).sourceMemoryIds hrebuilt
      have hids : (orderBy SessionRouterRecord.contributor fragments).map
          SessionRouterRecord.contributor = fragments.map SessionRouterRecord.contributor := by
        rw [← hsorted, ← h.sourceMemoryIds hrouter, ← htext]
        rfl
      have horder : ArrivedInOrder fragments := by
        unfold ArrivedInOrder
        rw [← hids]
        exact List.pairwise_map.mpr h.keyed.orderBy_pairwise
      have hsame : orderBy SessionRouterRecord.contributor fragments = fragments :=
        orderBy_eq_of_pairwise (List.pairwise_map.mp horder) (List.Perm.refl _)
      rw [hsame, hrouter] at hrebuilt
      cases hrebuilt
      exact ⟨horder, (routerText_mergedRouter hrouter).mp htext⟩
  · rintro ⟨horder, hkeeps⟩
    rw [orderBy_eq_of_pairwise (List.pairwise_map.mp horder) (List.Perm.refl _)]
    cases hrouter : mergedRouter fragments with
    | none => rfl
    | some router => exact congrArg some ((routerText_mergedRouter hrouter).mpr hkeeps)

/-! ## The stored routers -/

/-- A row without its timestamps. -/
def SessionRouterRow.untimed (row : SessionRouterRow) : SessionRouterRow :=
  { row with createdAtMs := 0, updatedAtMs := 0 }

/-- A lookup after a router is written, the timestamps aside. -/
theorem find?_upsertRouter_untimed (t : Table SessionRouterRow.primaryKey)
    (sessionId entityId : String) (record : SessionRouterRecord) (createdAtMs updatedAtMs : UInt64)
    (session : String × String) :
    ((upsertRouter t sessionId entityId record createdAtMs updatedAtMs).find? session).map
        SessionRouterRow.untimed =
      if (sessionId, entityId) = session then
        some ⟨sessionId, entityId, record, record.routerText, 0, 0⟩
      else (t.find? session).map SessionRouterRow.untimed := by
  unfold upsertRouter
  -- The session has a row, which is set, or one is added.
  cases hfind : t.find? (sessionId, entityId) with
  | some row =>
    dsimp only
    rw [Table.find?_updateWhere, Option.map_map]
    -- Only the row of the session is set.
    by_cases hsession : (sessionId, entityId) = session
    · obtain ⟨hid, hentity⟩ := Prod.mk.inj (Table.find?_eq_some.mp hfind).2
      rw [if_pos hsession, ← hsession, hfind]
      refine congrArg some ?_
      have hset : (setRouter record updatedAtMs).on
          (fun r => r.sessionId = sessionId ∧ r.entityId = entityId) row =
            (setRouter record updatedAtMs).set row := if_pos (decide_eq_true ⟨hid, hentity⟩)
      show SessionRouterRow.untimed (Assignment.on _ _ row) = _
      rw [hset, ← hid, ← hentity]
      rfl
    · rw [if_neg hsession]
      cases hother : t.find? session with
      | none => rfl
      | some other =>
        refine congrArg some (congrArg SessionRouterRow.untimed (if_neg fun hsame => hsession ?_))
        obtain ⟨hid, hentity⟩ := of_decide_eq_true hsame
        exact (Prod.ext hid hentity).symm.trans (Table.find?_eq_some.mp hother).2
  | none =>
    have hnew := Table.find?_eq_none.mp hfind
    dsimp only
    unfold Table.find?
    rw [Table.insertOrIgnore_rows hnew, List.find?_append]
    by_cases hsession : (sessionId, entityId) = session
    · have hnone : t.rows.find? (fun a => a.primaryKey = session) = none := hsession ▸ hfind
      rw [if_pos hsession, hnone, List.find?_singleton]
      simp [SessionRouterRow.primaryKey, SessionRouterRow.untimed, hsession]
    · rw [if_neg hsession, List.find?_singleton]
      simp [SessionRouterRow.primaryKey, hsession]

/-- The record of a row is not a timestamp. -/
theorem map_record_untimed (found : Option SessionRouterRow) :
    (found.map SessionRouterRow.untimed).map SessionRouterRow.record =
      found.map SessionRouterRow.record := by
  rw [Option.map_map]
  rfl

/-- A lookup after a router is written. -/
theorem find?_upsertRouter (t : Table SessionRouterRow.primaryKey) (sessionId entityId : String)
    (record : SessionRouterRecord) (createdAtMs updatedAtMs : UInt64) (session : String × String) :
    ((upsertRouter t sessionId entityId record createdAtMs updatedAtMs).find? session).map
        SessionRouterRow.record =
      if (sessionId, entityId) = session then some record
      else (t.find? session).map SessionRouterRow.record := by
  rw [← map_record_untimed, find?_upsertRouter_untimed, ← map_record_untimed (t.find? session)]
  split <;> rfl

/-- The record of a stored router. -/
def TenantStore.routerOf (S : TenantStore) (session : String × String) :
    Option SessionRouterRecord :=
  (S.sessionRouter.find? session).map SessionRouterRow.record

/-! ## What the commits leave -/

/-- The router of a session after one more fragment. -/
def mergeInto (router : Option SessionRouterRecord) (fragment : SessionRouterRecord) :
    Option SessionRouterRecord :=
  some (router.elim fragment fun previous => mergeRouterRecords previous fragment)

/-- More fragments are merged into the router of those before them. -/
theorem mergedRouter_append (fragments more : List SessionRouterRecord) :
    mergedRouter (fragments ++ more) = more.foldl mergeInto (mergedRouter fragments) := by
  induction more generalizing fragments with
  | nil => simp
  | cons fragment more ih =>
    have hone : mergedRouter (fragments ++ [fragment]) =
        mergeInto (mergedRouter fragments) fragment := by
      cases fragments with
      | nil => rfl
      | cons first rest =>
        show some ((rest ++ [fragment]).foldl mergeRouterRecords first) = _
        rw [List.foldl_append]
        rfl
    rw [List.foldl_cons, ← hone, ← ih, List.append_assoc, List.singleton_append]

/-- A lookup after a router is entered. -/
theorem MergedRouters.Keyed.lookup_put {merged : MergedRouters} (h : merged.Keyed)
    {record : SessionRouterRecord} {key : String × String} (hkey : record.session = key)
    (session : String × String) :
    (merged.put key record).lookup session =
      if key = session then some record else merged.lookup session := by
  have hput := h.put record hkey
  by_cases hsession : key = session
  · rw [if_pos hsession, ← hsession]
    exact hput.lookup (MergedRouters.mem_put_of (.inl rfl))
  · rw [if_neg hsession]
    cases hlookup : merged.lookup session with
    | some found =>
      obtain ⟨before, after, hsplit, -⟩ := List.lookup_eq_some_iff.mp hlookup
      have hentry : (session, found) ∈ merged := by
        rw [hsplit]
        simp
      have hkept : (session, found) ∈ merged.put key record :=
        MergedRouters.mem_put_of (.inr ⟨hentry, Ne.symm hsession⟩)
      exact hput.lookup hkept
    | none =>
      refine List.lookup_eq_none_iff.mpr fun entry hentry => ?_
      rcases MergedRouters.mem_put hentry with rfl | ⟨hold, -⟩
      · simpa using Ne.symm hsession
      · exact List.lookup_eq_none_iff.mp hlookup entry hold

/-- What a batch has merged for a session, or what is stored, is the stored router with the
fragments of the session merged into it. -/
theorem lookup_merged {stored : Table SessionRouterRow.primaryKey} (hstored : RoutersKeyed stored)
    (updates : List SessionRouterRecord) (session : String × String) :
    ((updates.foldl (mergeFragment stored) []).lookup session).or
        ((stored.find? session).map SessionRouterRow.record) =
      (updates.filter fun f => f.session = session).foldl mergeInto
        ((stored.find? session).map SessionRouterRow.record) := by
  induction updates using List.reverseRecOn with
  | nil => rfl
  | append_singleton updates fragment ih =>
    have hbefore := (exists_merged hstored updates).1
    have hafter := (exists_merged hstored (updates ++ [fragment])).1
    rw [List.foldl_append, List.foldl_cons, List.foldl_nil, mergeFragment_eq] at hafter ⊢
    rw [hbefore.lookup_put (hafter.session _ (MergedRouters.mem_put_of (.inl rfl))),
      List.filter_append, List.foldl_append, ← ih, List.filter_singleton]
    by_cases hsession : fragment.session = session
    · rw [if_pos hsession, decide_eq_true hsession]
      unfold previousRouter
      rw [hsession]
      rfl
    · rw [if_neg hsession, decide_eq_false hsession]
      rfl

/-- The row of a router, the timestamps aside. -/
def SessionRouterRecord.untimedRow (record : SessionRouterRecord) : SessionRouterRow :=
  ⟨record.sessionId, record.entityId, record, record.routerText, 0, 0⟩

/-- The routers of a batch are stored over those that were there. -/
theorem find?_foldl_upsertRouter {merged : MergedRouters} (h : merged.Keyed)
    (t : Table SessionRouterRow.primaryKey) (now : UInt64) (session : String × String) :
    (((merged.map Prod.snd).foldl (fun t record => upsertRouter t record.sessionId record.entityId
        record (min record.createdAtMs now) now) t).find? session).map SessionRouterRow.untimed =
      ((merged.lookup session).map SessionRouterRecord.untimedRow).or
        ((t.find? session).map SessionRouterRow.untimed) := by
  induction merged generalizing t with
  | nil => rfl
  | cons entry merged ih =>
    have hnodup := List.nodup_cons.mp h.nodup
    have hrest : MergedRouters.Keyed merged :=
      ⟨hnodup.2, fun other hother => h.session other (List.mem_cons_of_mem _ hother)⟩
    have hentry : (entry.2.sessionId, entry.2.entityId) = entry.1 :=
      h.session entry List.mem_cons_self
    rw [List.map_cons, List.foldl_cons, ih hrest, find?_upsertRouter_untimed, hentry,
      List.lookup_cons]
    by_cases hsession : entry.1 = session
    · have hlater : merged.lookup session = none := by
        refine List.lookup_eq_none_iff.mpr fun other hother => ?_
        have hne : entry.1 ≠ other.1 := fun hsame =>
          hnodup.1 (hsame ▸ List.mem_map_of_mem hother)
        simpa [← hsession] using hne
      rw [if_pos hsession, hlater, hsession]
      simp [SessionRouterRecord.untimedRow]
    · rw [if_neg hsession, beq_eq_false_iff_ne.mpr (Ne.symm hsession)]

/-- A batch merges the fragments of a session into its router in the order in which they arrive. -/
theorem routerOf_mergeRouterRecordsTx {S : TenantStore} (hS : RoutersKeyed S.sessionRouter)
    (now : UInt64) (updates : List SessionRouterRecord) (session : String × String) :
    (mergeRouterRecordsTx now S updates).routerOf session =
      (updates.filter fun f => f.session = session).foldl mergeInto (S.routerOf session) := by
  have hrow := find?_foldl_upsertRouter (exists_merged hS updates).1 S.sessionRouter now session
  unfold TenantStore.routerOf
  rw [← lookup_merged hS updates session,
    ← map_record_untimed ((mergeRouterRecordsTx now S updates).sessionRouter.find? session),
    ← map_record_untimed (S.sessionRouter.find? session)]
  refine (congrArg (Option.map SessionRouterRow.record) hrow).trans ?_
  rw [Option.map_or, Option.map_map]
  cases (updates.foldl (mergeFragment S.sessionRouter) []).lookup session <;> rfl

/-! ## What a deletion leaves -/

/-- The rebuild of one router leaves the others as they are. -/
theorem routerOf_rebuildRouter (S : TenantStore) (rebuilt session : String × String) :
    (rebuildRouterAfterDelete S rebuilt).routerOf session =
      if rebuilt = session then rebuiltRouter S.sessionRouterSources session.1 session.2
      else S.routerOf session := by
  obtain ⟨sessionId, entityId⟩ := rebuilt
  unfold rebuildRouterAfterDelete TenantStore.routerOf
  -- Nothing is left of the session, or what is left is merged again.
  cases hrouter : rebuiltRouter S.sessionRouterSources sessionId entityId with
  | none =>
    have hkey : S.sessionRouter.deleteWhere
        (fun r => decide (r.sessionId = sessionId ∧ r.entityId = entityId)) =
          S.sessionRouter.deleteWhere fun r => r.primaryKey = (sessionId, entityId) := by
      congr 1
      funext r
      simp [SessionRouterRow.primaryKey]
    simp only [hrouter]
    rw [hkey, Table.find?_deleteWhere_key]
    split
    · rename_i hsame
      rw [← hsame, hrouter]
      rfl
    · rfl
  | some merged =>
    simp only [hrouter]
    rw [find?_upsertRouter]
    split
    · rename_i hsame
      rw [← hsame, hrouter]
    · rfl

/-- After the rebuild of routers each of them is made from the sources. -/
theorem routerOf_rebuildRouters (sessions : List (String × String)) (S : TenantStore)
    (session : String × String) :
    (sessions.foldl rebuildRouterAfterDelete S).routerOf session =
      if session ∈ sessions then rebuiltRouter S.sessionRouterSources session.1 session.2
      else S.routerOf session := by
  induction sessions generalizing S with
  | nil => rfl
  | cons rebuilt sessions ih =>
    have hsources := (rebuildRouters_memories [rebuilt] S).2
    rw [List.foldl_cons, List.foldl_nil] at hsources
    rw [List.foldl_cons, ih, hsources, routerOf_rebuildRouter]
    by_cases hlater : session ∈ sessions
    · rw [if_pos hlater, if_pos (List.mem_cons_of_mem _ hlater)]
    · rw [if_neg hlater]
      by_cases hsame : rebuilt = session
      · rw [if_pos hsame, if_pos (hsame ▸ List.mem_cons_self)]
      · rw [if_neg hsame, if_neg (by simp [hlater, Ne.symm hsame])]

/-- The stored sources of a session, oldest first. -/
def TenantStore.sourcesOf (S : TenantStore) (session : String × String) : List RouterSource :=
  S.sessionRouterSources.rows.filter fun r =>
    r.sessionId = session.1 ∧ r.entityId = session.2

/-- A deletion of a memory that contributed to a session merges what is left of its sources in the
order of the memories, and builds the text. -/
theorem routerOf_deleteObservation {S : TenantStore} {session : String × String}
    {memoryId : String} (h : ∃ r ∈ S.sourcesOf session, r.memoryId = memoryId)
    (order : HashOrder) (now : UInt64) (reason : String) :
    (S.deleteObservation order now memoryId reason).1.routerOf session =
      (mergedRouter ((orderBy RouterSource.memoryId ((S.sourcesOf session).filter fun r =>
        !isOf memoryId r.memoryId)).map RouterSource.record)).map SessionRouterRecord.withText := by
  obtain ⟨source, hsource, rfl⟩ := h
  obtain ⟨hsource, hsession⟩ := List.mem_filter.mp hsource
  obtain ⟨hid, hentity⟩ := of_decide_eq_true hsession
  -- The memory contributed to the session, so its router is rebuilt.
  have haffected : session ∈ S.affectedRouters source.memoryId := by
    unfold TenantStore.affectedRouters
    rw [List.mem_dedup]
    refine List.mem_append_right _ (List.mem_map.mpr ⟨source, ?_, Prod.ext hid hentity⟩)
    exact List.mem_filter.mpr ⟨hsource, by simp [isOf]⟩
  -- The chunks are deleted afterwards, and no router is touched by that.
  have hrouter : (S.deleteObservation order now source.memoryId reason).1.routerOf session =
      ((order.iterate (S.affectedRouters source.memoryId)).foldl rebuildRouterAfterDelete
        (deleteRecords now S source.memoryId reason)).routerOf session := by
    obtain ⟨ftsMemories, vectorLookup, memories, hchunks⟩ := foldl_deleteChunk_frame
      ((S.chunksOf source.memoryId).map Prod.fst)
      ((order.iterate (S.affectedRouters source.memoryId)).foldl rebuildRouterAfterDelete
        (deleteRecords now S source.memoryId reason))
    unfold TenantStore.routerOf
    show Option.map _ ((List.foldl deleteChunk _ _).sessionRouter.find? session) = _
    rw [hchunks]
  rw [hrouter, routerOf_rebuildRouters, if_pos ((order.iterate_perm _).mem_iff.mpr haffected)]
  -- The rows that are left are those of the other memories.
  have hleft : (deleteRecords now S source.memoryId reason).sessionRouterSources.rows.filter
      (fun r => decide (r.sessionId = session.1 ∧ r.entityId = session.2)) =
        (S.sourcesOf session).filter fun r => !isOf source.memoryId r.memoryId := by
    show (S.sessionRouterSources.rows.filter _).filter _ = _
    unfold TenantStore.sourcesOf
    rw [List.filter_filter, List.filter_filter]
    exact List.filter_congr fun r _ => Bool.and_comm _ _
  unfold rebuiltRouter
  rw [hleft]
  cases (orderBy RouterSource.memoryId ((S.sourcesOf session).filter fun r =>
    !isOf source.memoryId r.memoryId)).map RouterSource.record <;> rfl

/-! ## The sources of a run -/

/-- What is stored of a fragment: the source of its memory. -/
def SessionRouterRecord.source (fragment : SessionRouterRecord) : RouterSource :=
  ⟨fragment.sessionId, fragment.entityId, fragment.contributor, fragment⟩

/-- A batch adds the sources of its fragments to those of their session. -/
theorem sourcesOf_mergeRouterRecordsTx {S : TenantStore} {session : String × String}
    {fragments updates : List SessionRouterRecord}
    (hS : S.sourcesOf session = fragments.map SessionRouterRecord.source)
    (h : ContributedApart (fragments ++ updates.filter fun f => f.session = session))
    (now : UInt64) :
    (mergeRouterRecordsTx now S updates).sourcesOf session =
      (fragments ++ updates.filter fun f => f.session = session).map
        SessionRouterRecord.source := by
  unfold TenantStore.sourcesOf at hS ⊢
  show (List.foldl _ S.sessionRouterSources updates).rows.filter _ = _
  generalize S.sessionRouterSources = t at hS
  induction updates generalizing t fragments with
  | nil => simpa using hS
  | cons fragment updates ih =>
    rw [List.foldl_cons]
    -- The fragment is of the session, and a row is added, or it is of another one.
    by_cases hsession : fragment.session = session
    · rw [List.filter_cons, if_pos (by simpa using hsession)] at h ⊢
      have happend : fragments ++ fragment :: updates.filter (fun f => f.session = session) =
          (fragments ++ [fragment]) ++ updates.filter fun f => f.session = session := by simp
      rw [happend] at h ⊢
      refine ih h _ ?_
      rw [h.own fragment (by simp), List.foldl_cons, List.foldl_nil, Table.filter_insertOrReplace]
      · obtain ⟨hid, hentity⟩ := Prod.ext_iff.mp hsession
        rw [hS, if_pos (decide_eq_true ⟨hid, hentity⟩), List.map_append]
        rfl
      -- No row has its key, since no two fragments come from one memory.
      · intro r hr hrsession hkey
        have hr := hS ▸ List.mem_filter.mpr ⟨hr, hrsession⟩
        obtain ⟨earlier, hearlier, rfl⟩ := List.mem_map.mp hr
        have hsame : earlier.contributor = fragment.contributor :=
          (Prod.ext_iff.mp (Prod.ext_iff.mp hkey).2).2
        have hkeyed := h.keyed
        unfold Keyed at hkeyed
        rw [List.map_append, List.map_append, List.append_assoc, List.nodup_append] at hkeyed
        exact hkeyed.2.2 _ (List.mem_map_of_mem hearlier) _ (by simp) hsame
    · rw [List.filter_cons, if_neg (by simpa using hsession)] at h ⊢
      refine ih h _ ?_
      rw [← hS]
      -- The rows of another session are written, one for each memory that the fragment names.
      generalize fragment.sourceMemoryIds = memoryIds
      clear hS ih
      induction memoryIds generalizing t with
      | nil => rfl
      | cons memoryId memoryIds ih =>
        have hother : decide (fragment.sessionId = session.1 ∧ fragment.entityId = session.2) =
            false := decide_eq_false fun hsame => hsession (Prod.ext hsame.1 hsame.2)
        rw [List.foldl_cons, ih, Table.filter_insertOrReplace]
        · simp [hother]
        · intro r _ hr hkey
          obtain ⟨hid, hentity⟩ := of_decide_eq_true hr
          obtain ⟨hid', hkey⟩ := Prod.ext_iff.mp hkey
          exact hsession (Prod.ext (hid'.symm.trans hid)
            ((Prod.ext_iff.mp hkey).1.symm.trans hentity))

section

variable (cosineSimilarity : List ℚ → List ℚ → ℚ)

/-- The fragments that a transaction brings: those of a commit that succeeds. -/
def TenantStore.fragmentsOf (S : TenantStore) : StoreStep → List SessionRouterRecord
  | .commit order clock b =>
    (S.commitIngest cosineSimilarity order clock b).toOption.elim [] fun _ => b.sessionRouterUpdates
  | .delete .. => []

/-- The fragments that a transaction leaves: a deletion takes away those of its memory and of what
is derived from it. -/
def StoreStep.leaves (fragments : List SessionRouterRecord) : StoreStep → List SessionRouterRecord
  | .commit .. => fragments
  | .delete _ _ memoryId _ => fragments.filter fun fragment => !isOf memoryId fragment.contributor

/-- All fragments that arrive in a run, in order. -/
def fragmentsArriving : TenantStore → List StoreStep → List SessionRouterRecord
  | _, [] => []
  | S, step :: run => S.fragmentsOf cosineSimilarity step ++
      fragmentsArriving (S.step cosineSimilarity step) run

/-- The fragments that are there after a run, in the order in which they arrived. -/
def fragmentsAfter : TenantStore → List SessionRouterRecord → List StoreStep →
    List SessionRouterRecord
  | _, fragments, [] => fragments
  | S, fragments, step :: run => fragmentsAfter (S.step cosineSimilarity step)
      (step.leaves fragments ++ S.fragmentsOf cosineSimilarity step) run

variable {cosineSimilarity}

/-- A commit that succeeds brings its fragments. -/
theorem fragmentsOf_of_ok {S : TenantStore} {order : HashOrder} {clock : IngestClock}
    {b : IngestBatches} {result : TenantStore × CommitOutcome}
    (h : S.commitIngest cosineSimilarity order clock b = .ok result) :
    S.fragmentsOf cosineSimilarity (.commit order clock b) = b.sessionRouterUpdates := by
  simp only [TenantStore.fragmentsOf, h, Except.toOption, Option.elim_some]

/-- A commit that fails brings none. -/
theorem fragmentsOf_of_error {S : TenantStore} {order : HashOrder} {clock : IngestClock}
    {b : IngestBatches} {error : String}
    (h : S.commitIngest cosineSimilarity order clock b = .error error) :
    S.fragmentsOf cosineSimilarity (.commit order clock b) = [] := by
  simp only [TenantStore.fragmentsOf, h, Except.toOption, Option.elim_none]

/-- After a run of commits the router of a session is the merge of its fragments in the order in
which they arrived. -/
theorem routerOf_commits (commits : List (HashOrder × IngestClock × IngestBatches))
    (session : String × String) :
    ((commits.map fun c => StoreStep.commit c.1 c.2.1 c.2.2).foldl
        (TenantStore.step cosineSimilarity) TenantStore.empty).routerOf session =
      mergedRouter ((fragmentsArriving cosineSimilarity TenantStore.empty
        (commits.map fun c => StoreStep.commit c.1 c.2.1 c.2.2)).filter fun f =>
          f.session = session) := by
  -- The store that the commits start from is arbitrary, for the induction.
  have hrun : ∀ S : TenantStore, SessionsKeyed S →
      ((commits.map fun c => StoreStep.commit c.1 c.2.1 c.2.2).foldl
        (TenantStore.step cosineSimilarity) S).routerOf session =
      ((fragmentsArriving cosineSimilarity S
        (commits.map fun c => StoreStep.commit c.1 c.2.1 c.2.2)).filter fun f =>
          f.session = session).foldl mergeInto (S.routerOf session) := by
    induction commits with
    | nil => exact fun _ _ => rfl
    | cons c commits ih =>
      intro S hS
      rw [List.map_cons, List.foldl_cons, ih _ (hS.step _), fragmentsArriving, List.filter_append,
        List.foldl_append]
      congr 1
      -- A commit that fails brings no fragments.
      cases hcommit : S.commitIngest cosineSimilarity c.1 c.2.1 c.2.2 with
      | error e =>
        rw [TenantStore.step_commit_of_error hcommit, fragmentsOf_of_error hcommit]
        rfl
      | ok result =>
        rw [TenantStore.step_commit_of_ok hcommit, fragmentsOf_of_ok hcommit]
        obtain ⟨S₁, hrouters, -, hrouters', -⟩ := commitIngest_routers hcommit
        have hkeyed : RoutersKeyed S₁.sessionRouter := hrouters ▸ hS.routers
        have hmerged := routerOf_mergeRouterRecordsTx hkeyed c.2.1.routers
          c.2.2.sessionRouterUpdates session
        unfold TenantStore.routerOf at hmerged ⊢
        rw [hrouters', hmerged, hrouters]
  rw [hrun _ SessionsKeyed.empty]
  exact (mergedRouter_append [] _).symm

/-- A transaction leaves the sources of the fragments that are there after it. -/
theorem sourcesOf_step {S : TenantStore} {session : String × String}
    {fragments : List SessionRouterRecord}
    (hS : S.sourcesOf session = fragments.map SessionRouterRecord.source) (step : StoreStep)
    (h : ContributedApart (fragments ++
      (S.fragmentsOf cosineSimilarity step).filter fun f => f.session = session)) :
    (S.step cosineSimilarity step).sourcesOf session =
      (step.leaves fragments ++ (S.fragmentsOf cosineSimilarity step).filter fun f =>
        f.session = session).map SessionRouterRecord.source := by
  -- A commit adds the rows of its fragments, and a deletion takes away the rows of the memory.
  cases step with
  | commit order clock b =>
    cases hcommit : S.commitIngest cosineSimilarity order clock b with
    | error e =>
      rw [TenantStore.step_commit_of_error hcommit, fragmentsOf_of_error hcommit, hS,
        List.filter_nil, List.append_nil]
      rfl
    | ok result =>
      rw [fragmentsOf_of_ok hcommit] at h
      rw [TenantStore.step_commit_of_ok hcommit, fragmentsOf_of_ok hcommit]
      obtain ⟨S₁, -, hsources, -, hsources'⟩ := commitIngest_routers hcommit
      have hS₁ : S₁.sourcesOf session = fragments.map SessionRouterRecord.source := by
        unfold TenantStore.sourcesOf
        rw [hsources]
        exact hS
      refine Eq.trans ?_ (sourcesOf_mergeRouterRecordsTx hS₁ h clock.routers)
      unfold TenantStore.sourcesOf
      rw [hsources']
  | delete order now memoryId reason =>
    have hsources : (S.deleteObservation order now memoryId reason).1.sessionRouterSources =
        S.sessionRouterSources.deleteWhere fun r => isOf memoryId r.memoryId := by
      obtain ⟨memories, vectorLookup, ftsMemories, sessionRouter, ftsSessionRouter, hframe⟩ :=
        deleteObservation_frame order now S memoryId reason
      rw [hframe]
      rfl
    show ((S.deleteObservation order now memoryId reason).1.sessionRouterSources).rows.filter _ = _
    rw [hsources]
    show (S.sessionRouterSources.rows.filter _).filter _ = ((fragments.filter _) ++ []).map _
    -- What is deleted is deleted in each session.
    have hsession : (S.sessionRouterSources.rows.filter fun r => !isOf memoryId r.memoryId).filter
        (fun r => decide (r.sessionId = session.1 ∧ r.entityId = session.2)) =
          (S.sourcesOf session).filter fun r => !isOf memoryId r.memoryId := by
      unfold TenantStore.sourcesOf
      rw [List.filter_filter, List.filter_filter]
      exact List.filter_congr fun r _ => Bool.and_comm _ _
    rw [hsession, hS, List.filter_map, List.append_nil]
    rfl

/-- After a run the sources of a session are those of its fragments that are there. -/
theorem sourcesOf_run (run : List StoreStep) {S : TenantStore} {session : String × String}
    {fragments : List SessionRouterRecord}
    (hS : S.sourcesOf session =
      (fragments.filter fun f => f.session = session).map SessionRouterRecord.source)
    (h : ContributedApart ((fragments ++ fragmentsArriving cosineSimilarity S run).filter fun f =>
      f.session = session)) :
    (run.foldl (TenantStore.step cosineSimilarity) S).sourcesOf session =
        ((fragmentsAfter cosineSimilarity S fragments run).filter fun f =>
          f.session = session).map SessionRouterRecord.source ∧
      ContributedApart ((fragmentsAfter cosineSimilarity S fragments run).filter fun f =>
        f.session = session) := by
  induction run generalizing S fragments with
  | nil =>
    rw [fragmentsArriving, List.append_nil] at h
    exact ⟨hS, h⟩
  | cons step run ih =>
    rw [fragmentsArriving, ← List.append_assoc] at h
    have hbrought : ContributedApart ((fragments.filter fun f => f.session = session) ++
        (S.fragmentsOf cosineSimilarity step).filter fun f => f.session = session) := by
      rw [← List.filter_append]
      exact h.subperm ((List.sublist_append_left _ _).filter _).subperm
    have hstep := sourcesOf_step hS step hbrought
    -- A deletion leaves some of the fragments, and a commit all of them.
    have hleaves : ∀ fragments : List SessionRouterRecord,
        (step.leaves fragments).Sublist fragments := by
      intro fragments
      cases step with
      | commit => exact List.Sublist.refl _
      | delete => exact List.filter_sublist
    -- It makes no difference whether the fragments of the session are taken first.
    have hsession : step.leaves (fragments.filter fun f => f.session = session) =
        (step.leaves fragments).filter fun f => f.session = session := by
      cases step with
      | commit => rfl
      | delete order now memoryId reason =>
        show (fragments.filter _).filter _ = (fragments.filter _).filter _
        rw [List.filter_filter, List.filter_filter]
        exact List.filter_congr fun f _ => Bool.and_comm _ _
    rw [hsession, ← List.filter_append] at hstep
    refine ih hstep (h.subperm (List.Sublist.subperm ?_))
    exact (((hleaves fragments).append_right _).append_right _).filter _

/-- The fragments of a session that are there after a run from the empty store. -/
def sessionFragments (cosineSimilarity : List ℚ → List ℚ → ℚ) (run : List StoreStep)
    (session : String × String) : List SessionRouterRecord :=
  (fragmentsAfter cosineSimilarity TenantStore.empty [] run).filter fun f => f.session = session

/-- The fragments of a session that a deletion leaves. -/
def remainingFragments (cosineSimilarity : List ℚ → List ℚ → ℚ) (run : List StoreStep)
    (session : String × String) (memoryId : String) : List SessionRouterRecord :=
  (sessionFragments cosineSimilarity run session).filter fun f => !isOf memoryId f.contributor

/-- What one turn of a session contributes. -/
private def turnFragment (memoryId sessionFocus event : String) : SessionRouterRecord :=
  SessionRouterRecord.withText
    { sessionId := "s1"
      entityId := "alice"
      sessionDate := "2024-01-01"
      documentTimeMs := 0
      speakers := []
      persons := []
      sessionFocus := sessionFocus
      canonicalFacts := []
      events := [event]
      objects := []
      places := []
      activities := []
      preferenceSignals := []
      salientTerms := []
      sourceMemoryIds := [memoryId]
      routerText := ""
      createdAtMs := 0
      updatedAtMs := 0 }

/-- A commit of the fragment of one turn. -/
private def commitTurn (memoryId sessionFocus event : String) : StoreStep :=
  .commit .insertion ⟨1, 1, 1⟩
    { sessionRouterUpdates := [turnFragment memoryId sessionFocus event] }

/-- Three turns in order. -/
private def orderedTurns : List StoreStep :=
  [commitTurn "alice:s1:1" "moving" "saw a flat", commitTurn "alice:s1:2" "moving" "packed",
    commitTurn "alice:s1:3" "moving" "left"]

/-- Turns 1, 2 and 10 of a session. -/
private def distantTurns : List StoreStep :=
  [commitTurn "alice:s1:1" "moving" "saw a flat", commitTurn "alice:s1:2" "packing" "packed",
    commitTurn "alice:s1:10" "painting" "painted"]

end

end Tellodb
