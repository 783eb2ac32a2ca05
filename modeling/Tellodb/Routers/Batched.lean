import Tellodb.Collections.Lasts
import Tellodb.Core.Identity
import Tellodb.Routers.Rebuilt

/-!
# Updates in a batch and one by one

A batch stores for every session what the updates leave when they are merged one by one: the router,
with its text, and the sources (`Merges`). The documents differ in the order in which they are
written. A batch writes one for each session, in the order in which the sessions come first; one by
one, the session that comes last writes last. The row of a router's document is a hash of a text in
which the entity and the session are joined as they stand, so two sessions can have one row, and
then the batch can leave the document of the other one (`mergeRouterRecordsTx_iff`). -/

namespace Tellodb

open Relational Collections

/-! ## The documents of the sessions -/

section

variable {δ : Type} {key : δ → ℕ} (writes : SessionRouterRecord → Bool)
  (row : String × String → ℕ) (doc : SessionRouterRecord → δ)

/-- The document that stays in a row when the sessions write theirs in an order. -/
def writtenIn (routerOf : String × String → Option SessionRouterRecord)
    (order : List (String × String)) (rowid : ℕ) : Option δ :=
  (((order.filter fun session => (routerOf session).any writes).filter fun session =>
    row session = rowid).getLast?).bind fun session => (routerOf session).map doc

variable {writes row doc}

/-- What the merged routers of a batch leave in a row. -/
theorem find?_foldl_doc (hrow : ∀ record, key (doc record) = row record.session)
    {merged : MergedRouters} (hmerged : merged.Keyed)
    {routerOf : String × String → Option SessionRouterRecord}
    (hrouter : ∀ entry ∈ merged, routerOf entry.1 = some entry.2) (t : Table key) (rowid : ℕ) :
    (((merged.map Prod.snd).filter writes).foldl (fun t record => t.insertOrReplace (doc record))
        t).find? rowid =
      (writtenIn writes row doc routerOf (merged.map Prod.fst) rowid).or (t.find? rowid) := by
  have hfold : ∀ records : List SessionRouterRecord,
      records.foldl (fun t record => t.insertOrReplace (doc record)) t =
        (records.map doc).foldl (fun t d => t.insertOrReplace d) t := fun records => by
    rw [List.foldl_map]
  -- Of the records of the batch, those that write to the row are looked at, and the last one
  -- counts.
  have hlast : (((merged.map Prod.snd).filter writes).map doc).filter (fun d => key d = rowid) =
      ((merged.filter fun entry => writes entry.2 && decide (row entry.1 = rowid)).map
        fun entry => doc entry.2) := by
    rw [List.filter_map, List.filter_map, List.filter_map, List.map_map, List.filter_filter]
    refine congrArg (List.map _) (List.filter_congr fun entry hentry => ?_)
    simp only [Function.comp_apply]
    rw [hrow, hmerged.session entry hentry, Bool.and_comm]
  have hsessions :
      ((merged.map Prod.fst).filter fun session => (routerOf session).any writes).filter
          (fun session => row session = rowid) =
        (merged.filter fun entry =>
          writes entry.2 && decide (row entry.1 = rowid)).map Prod.fst := by
    rw [List.filter_map, List.filter_map, List.filter_filter]
    refine congrArg (List.map _) (List.filter_congr fun entry hentry => ?_)
    simp only [Function.comp_apply]
    rw [hrouter entry hentry, Option.any_some, Bool.and_comm]
  rw [hfold, Table.find?_foldl_insertOrReplace_last, hlast]
  unfold writtenIn
  rw [hsessions, List.getLast?_map, List.getLast?_map]
  -- No record of the batch writes to the row, or the last one does.
  cases hentry : (merged.filter fun entry =>
      writes entry.2 && decide (row entry.1 = rowid)).getLast? with
  | none => rfl
  | some entry =>
    have hmem := (List.mem_filter.mp (List.mem_of_getLast? hentry)).1
    rw [Option.map_some, Option.map_some, Option.bind_some, hrouter entry hmem, Option.map_some]

/-- One more session writes its document over those that were written. A router that had one to
write keeps one. -/
theorem writtenIn_concat {routerOf routerOf' : String × String → Option SessionRouterRecord}
    {session : String × String}
    (hothers : ∀ other, other ≠ session → routerOf' other = routerOf other)
    (hkeeps : (routerOf session).any writes → (routerOf' session).any writes)
    (order : List (String × String)) (rowid : ℕ) :
    writtenIn writes row doc routerOf' (order ++ [session]) rowid =
      (writtenIn writes row doc routerOf' [session] rowid).or
        (writtenIn writes row doc routerOf order rowid) := by
  have hwriter : ∀ final : String × String → Option SessionRouterRecord,
      ([session].filter fun other => (final other).any writes).filter
          (fun other => row other = rowid) =
        if (final session).any writes = true ∧ row session = rowid then [session] else [] := by
    intro final
    rw [List.filter_filter, List.filter_singleton]
    by_cases hrow : row session = rowid <;> cases (final session).any writes <;> simp [hrow]
  unfold writtenIn
  rw [List.filter_append, List.filter_append, List.getLast?_append, hwriter]
  by_cases hnew : (routerOf' session).any writes = true ∧ row session = rowid
  · -- The session writes to the row, over whatever was there.
    rw [if_pos hnew]
    cases hrecord : routerOf' session with
    | none => exact absurd hnew.1 (by simp [hrecord])
    | some record => simp [hrecord]
  · -- The session does not write to the row, so it did not before.
    rw [if_neg hnew]
    -- Another session writes to the row after the fragment if it did before.
    have hold : ∀ other, ((routerOf' other).any writes = true ∧ row other = rowid) ↔
        (routerOf other).any writes = true ∧ row other = rowid := by
      intro other
      by_cases hother : other = session
      · subst hother
        exact iff_of_false hnew fun h => hnew ⟨hkeeps h.1, h.2⟩
      · rw [hothers other hother]
    have hsame : (order.filter fun other => (routerOf' other).any writes).filter
        (fun other => row other = rowid) =
          (order.filter fun other => (routerOf other).any writes).filter
            fun other => row other = rowid := by
      rw [List.filter_filter, List.filter_filter]
      refine List.filter_congr fun other _ => Bool.eq_iff_iff.mpr ?_
      simpa [and_comm] using hold other
    rw [hsame]
    simp only [List.getLast?_nil, Option.none_or, Option.bind_none]
    -- The last writer is another session, whose router is what it was.
    cases hlast : ((order.filter fun other => (routerOf other).any writes).filter
        fun other => row other = rowid).getLast? with
    | none => rfl
    | some other =>
      have hmem := List.mem_of_getLast? hlast
      have hwrites := (List.mem_filter.mp (List.mem_filter.mp hmem).1).2
      have hother : other ≠ session := by
        rintro rfl
        exact hnew ⟨hkeeps hwrites, of_decide_eq_true (List.mem_filter.mp hmem).2⟩
      rw [Option.bind_some, Option.bind_some, hothers other hother]

variable (row) in
/-- The order in which the sessions come first leaves the documents of the order in which they come
exactly if the sessions that write come in turn in every row. -/
theorem writtenIn_eq_iff {routerOf : String × String → Option SessionRouterRecord}
    {sessions : List (String × String)} {leaves : String × String → Prop} [DecidablePred leaves]
    (hwrites : ∀ session ∈ sessions, (routerOf session).any writes = true ↔ leaves session)
    (hdoc : ∀ a ∈ sessions, ∀ b ∈ sessions, (routerOf a).map doc = (routerOf b).map doc → a = b)
    (old : ℕ → Option δ) :
    (∀ rowid, (writtenIn writes row doc routerOf sessions.eraseDups rowid).or (old rowid) =
        (writtenIn writes row doc routerOf sessions rowid).or (old rowid)) ↔
      InTurn row (sessions.filter fun session => leaves session) := by
  have hwriters : (sessions.filter fun session => (routerOf session).any writes) =
      sessions.filter fun session => leaves session :=
    List.filter_congr fun session hsession => Bool.eq_iff_iff.mpr
      ((hwrites session hsession).trans decide_eq_true_iff.symm)
  unfold writtenIn
  rw [← eraseDups_filter, hwriters, inTurn_iff]
  -- Every session that is written has a router.
  have hmem : ∀ session ∈ sessions.filter fun session => leaves session,
      session ∈ sessions ∧ ((routerOf session).map doc).isSome = true := by
    intro session hsession
    obtain ⟨hsession, hleaves⟩ := List.mem_filter.mp hsession
    have hany := (hwrites session hsession).mpr (of_decide_eq_true hleaves)
    cases hrouter : routerOf session with
    | none => exact absurd hany (by simp [hrouter])
    | some record => exact ⟨hsession, rfl⟩
  refine Iff.trans (written_eq_iff (fun session => List.mem_eraseDups)
    (fun session hsession => (hmem session (List.mem_eraseDups.mp hsession)).2)
    fun a ha b hb => hdoc a (hmem a (List.mem_eraseDups.mp ha)).1 b
      (hmem b (List.mem_eraseDups.mp hb)).1) ?_
  exact forall_congr' fun rowid => eq_comm

end

/-! ## What the updates leave -/

/-- The router of a session with updates merged into it one by one. -/
def TenantStore.mergedRouterOf (S : TenantStore) (updates : List SessionRouterRecord)
    (session : String × String) : Option SessionRouterRecord :=
  (updates.filter fun f => f.session = session).foldl mergeInto (S.routerOf session)

/-- The row of a session's document among the routers. -/
def sessionRow (session : String × String) : ℕ :=
  routerRowid session.2 session.1

/-- The row of a session's document among the memories. -/
def sessionMemoryRow (session : String × String) : ℕ :=
  ftsRowid (routerId session.2 session.1)

/-- A router that has something to be found by. -/
def SessionRouterRecord.hasText (record : SessionRouterRecord) : Bool :=
  !record.routerText.isEmpty

/-- The document of a router. -/
def SessionRouterRecord.document (record : SessionRouterRecord) : RouterDoc :=
  ⟨record.sessionId, record.entityId, record.routerText⟩

/-- The document of a router among the memories. -/
def SessionRouterRecord.memoryDocument (record : SessionRouterRecord) : FtsDoc :=
  routerDoc record.entityId record.sessionId record.routerText

/-- What updates leave when the documents of the sessions are written in an order. -/
structure Merges (S : TenantStore) (updates : List SessionRouterRecord)
    (order : List (String × String)) (T : TenantStore) : Prop where
  routers : ∀ session, (T.sessionRouter.find? session).map SessionRouterRow.untimed =
    if session ∈ updates.map SessionRouterRecord.session then
      (S.mergedRouterOf updates session).map SessionRouterRecord.untimedRow
    else (S.sessionRouter.find? session).map SessionRouterRow.untimed
  sources : T.sessionRouterSources = updates.foldl (fun t record =>
    record.sourceMemoryIds.foldl (fun t memoryId =>
      t.insertOrReplace ⟨record.sessionId, record.entityId, memoryId, record⟩) t)
    S.sessionRouterSources
  documents : ∀ rowid, T.ftsSessionRouter.find? rowid =
    (writtenIn (fun _ => true) sessionRow SessionRouterRecord.document (S.mergedRouterOf updates)
      order rowid).or (S.ftsSessionRouter.find? rowid)
  memoryDocuments : ∀ rowid, T.ftsMemories.find? rowid =
    (writtenIn SessionRouterRecord.hasText sessionMemoryRow SessionRouterRecord.memoryDocument
      (S.mergedRouterOf updates) order rowid).or (S.ftsMemories.find? rowid)

/-- After the updates every session has its merged router. -/
theorem Merges.routerOf {S T : TenantStore} {updates : List SessionRouterRecord}
    {order : List (String × String)} (h : Merges S updates order T) (session : String × String) :
    T.routerOf session = S.mergedRouterOf updates session := by
  unfold TenantStore.routerOf
  rw [← map_record_untimed, h.routers]
  split
  · cases S.mergedRouterOf updates session <;> rfl
  · rename_i hnone
    have hfragments : updates.filter (fun f => f.session = session) = [] :=
      List.filter_eq_nil_iff.mpr fun f hf hsession =>
        hnone (List.mem_map.mpr ⟨f, hf, of_decide_eq_true hsession⟩)
    rw [map_record_untimed, TenantStore.mergedRouterOf, hfragments]
    rfl

/-- The sessions of a batch are entered in the order in which they come first. -/
theorem map_fst_merged (stored : Table SessionRouterRow.primaryKey)
    (updates : List SessionRouterRecord) :
    (updates.foldl (mergeFragment stored) []).map Prod.fst =
      (updates.map SessionRouterRecord.session).eraseDups := by
  induction updates using List.reverseRecOn with
  | nil => rfl
  | append_singleton updates record ih =>
    rw [List.foldl_append, List.foldl_cons, List.foldl_nil, mergeFragment_eq,
      MergedRouters.map_fst_put, ih, List.map_append, List.map_singleton, eraseDups_concat]
    simp only [List.mem_eraseDups]

/-- A batch writes the documents in the order in which the sessions come first. -/
theorem merges_batch {S : TenantStore} (hS : RoutersKeyed S.sessionRouter) (now : UInt64)
    (updates : List SessionRouterRecord) :
    Merges S updates (updates.map SessionRouterRecord.session).eraseDups
      (mergeRouterRecordsTx now S updates) := by
  -- What is merged within the batch is what the fragments of a session come to, one after the
  -- other.
  have hmerged := (exists_merged hS updates).1
  have hkeys := map_fst_merged S.sessionRouter updates
  have hlookup := lookup_merged hS updates
  have hrouter : ∀ entry ∈ updates.foldl (mergeFragment S.sessionRouter) [],
      S.mergedRouterOf updates entry.1 = some entry.2 := by
    intro entry hentry
    rw [TenantStore.mergedRouterOf, TenantStore.routerOf, ← hlookup, hmerged.lookup hentry,
      Option.some_or]
  constructor
  · intro session
    refine (find?_foldl_upsertRouter hmerged S.sessionRouter now session).trans ?_
    -- A session is entered if one of the fragments is its own.
    have hentered : session ∈ updates.map SessionRouterRecord.session ↔
        session ∈ (updates.foldl (mergeFragment S.sessionRouter) []).map Prod.fst := by
      rw [hkeys, List.mem_eraseDups]
    by_cases hsession : session ∈ updates.map SessionRouterRecord.session
    · obtain ⟨entry, hentry, rfl⟩ := List.mem_map.mp (hentered.mp hsession)
      rw [if_pos hsession, hmerged.lookup hentry, hrouter entry hentry]
      rfl
    -- A session without a fragment is in no entry.
    · have hnone : ∀ merged : MergedRouters, session ∉ merged.map Prod.fst →
          merged.lookup session = none := by
        intro merged hnew
        refine List.lookup_eq_none_iff.mpr fun entry hentry => ?_
        have hne : session ≠ entry.1 := fun hsame =>
          hnew (List.mem_map.mpr ⟨entry, hentry, hsame.symm⟩)
        simpa using hne
      rw [if_neg hsession, hnone _ fun h => hsession (hentered.mpr h)]
      rfl
  · rfl
  · intro rowid
    have hrow : ∀ record : SessionRouterRecord,
        record.document.rowid = sessionRow record.session := fun _ => rfl
    rw [← hkeys, ← find?_foldl_doc hrow hmerged hrouter, List.filter_true]
    rfl
  · intro rowid
    have hrow : ∀ record : SessionRouterRecord,
        record.memoryDocument.rowid = sessionMemoryRow record.session := fun _ => rfl
    rw [← hkeys, ← find?_foldl_doc hrow hmerged hrouter]
    rfl

/-- The text of a merge starts with its session. -/
theorem hasText_mergeRouterRecords (existing incoming : SessionRouterRecord) :
    (mergeRouterRecords existing incoming).hasText = true := by
  have htext : ∃ record, (mergeRouterRecords existing incoming).routerText =
      buildSessionRouterText record := ⟨_, rfl⟩
  obtain ⟨record, htext⟩ := htext
  unfold SessionRouterRecord.hasText
  rw [htext, buildSessionRouterText_eq]
  simp

/-- One more update merges into what the others left. -/
theorem mergedRouterOf_concat (S : TenantStore) (updates : List SessionRouterRecord)
    (record : SessionRouterRecord) (session : String × String) :
    S.mergedRouterOf (updates ++ [record]) session =
      if record.session = session then mergeInto (S.mergedRouterOf updates session) record
      else S.mergedRouterOf updates session := by
  unfold TenantStore.mergedRouterOf
  rw [List.filter_append, List.foldl_append, List.filter_singleton]
  by_cases hsession : record.session = session
  · simp [hsession]
  · simp [hsession]

/-- One more update writes the document of its session last. -/
theorem Merges.concat {S T T' : TenantStore} {updates : List SessionRouterRecord}
    {order : List (String × String)} {record : SessionRouterRecord} (h : Merges S updates order T)
    (hone : Merges T [record] [record.session] T') :
    Merges S (updates ++ [record]) (order ++ [record.session]) T' := by
  -- After the last fragment, the routers are those of the whole batch.
  have hfinal : T.mergedRouterOf [record] = S.mergedRouterOf (updates ++ [record]) := by
    funext session
    have hnil : T.mergedRouterOf [] session = S.mergedRouterOf updates session :=
      h.routerOf session
    rw [mergedRouterOf_concat, ← hnil]
    exact mergedRouterOf_concat T [] record session
  have hothers : ∀ other, other ≠ record.session →
      S.mergedRouterOf (updates ++ [record]) other = S.mergedRouterOf updates other :=
    fun other hother => by rw [mergedRouterOf_concat, if_neg (Ne.symm hother)]
  have hnext : S.mergedRouterOf (updates ++ [record]) record.session =
      mergeInto (S.mergedRouterOf updates record.session) record := by
    rw [mergedRouterOf_concat, if_pos rfl]
  constructor
  · intro session
    rw [hone.routers, h.routers, hfinal, List.map_append, List.map_singleton]
    -- The row is the one that the last fragment writes, or it is older.
    by_cases hsession : session = record.session
    · rw [if_pos (by simp [hsession]), if_pos (by simp [hsession])]
    · rw [if_neg (by simpa using hsession), hothers session hsession]
      simp [hsession]
  · rw [hone.sources, h.sources, List.foldl_append]
  · intro rowid
    rw [hone.documents, h.documents, hfinal, writtenIn_concat hothers ?_ order rowid,
      Option.or_assoc]
    intro _
    rw [hnext]
    rfl
  · intro rowid
    rw [hone.memoryDocuments, h.memoryDocuments, hfinal, writtenIn_concat hothers ?_ order rowid,
      Option.or_assoc]
    intro hwrites
    rw [hnext]
    -- A router that has a text keeps one when more is merged into it.
    cases hold : S.mergedRouterOf updates record.session with
    | none => exact absurd hwrites (by simp [hold])
    | some previous =>
      rw [mergeInto, Option.elim_some, Option.any_some]
      exact hasText_mergeRouterRecords previous record

/-! ## One by one -/

/-- One call for each update, each at its own time. -/
def mergeInTurn (S : TenantStore) (updates : List (UInt64 × SessionRouterRecord)) : TenantStore :=
  updates.foldl (fun S update => mergeRouterRecordsTx update.1 S [update.2]) S

/-- The sessions of updates. -/
def sessionsOf (updates : List (UInt64 × SessionRouterRecord)) : List (String × String) :=
  (updates.map Prod.snd).map SessionRouterRecord.session

/-- One by one, the session of each update writes its document. -/
theorem merges_inTurn {S : TenantStore} (hS : RoutersKeyed S.sessionRouter)
    (updates : List (UInt64 × SessionRouterRecord)) :
    RoutersKeyed (mergeInTurn S updates).sessionRouter ∧
      Merges S (updates.map Prod.snd) (sessionsOf updates) (mergeInTurn S updates) := by
  induction updates using List.reverseRecOn with
  | nil =>
    refine ⟨hS, fun session => rfl, rfl, fun rowid => rfl, fun rowid => rfl⟩
  | append_singleton updates update ih =>
    have hstep : mergeInTurn S (updates ++ [update]) =
        mergeRouterRecordsTx update.1 (mergeInTurn S updates) [update.2] := by
      rw [mergeInTurn, List.foldl_append]
      rfl
    have hone := merges_batch ih.1 update.1 [update.2]
    have hsingle : ([update.2].map SessionRouterRecord.session).eraseDups =
        [update.2.session] := rfl
    rw [hsingle] at hone
    rw [hstep, List.map_append, sessionsOf, List.map_append, List.map_append]
    exact ⟨ih.1.mergeRouterRecordsTx update.1 [update.2], ih.2.concat hone⟩

/-! ## When they agree -/

/-- The same routers, sources and documents, the timestamps of the rows aside. -/
structure SameRouters (S T : TenantStore) : Prop where
  routers : ∀ session, (S.sessionRouter.find? session).map SessionRouterRow.untimed =
    (T.sessionRouter.find? session).map SessionRouterRow.untimed
  sources : S.sessionRouterSources = T.sessionRouterSources
  documents : ∀ rowid, S.ftsSessionRouter.find? rowid = T.ftsSessionRouter.find? rowid
  memoryDocuments : ∀ rowid, S.ftsMemories.find? rowid = T.ftsMemories.find? rowid

/-- A session that has something to be found by after the updates: all have, except those without
a router whose only update has no text. -/
def TenantStore.LeavesText (S : TenantStore) (updates : List SessionRouterRecord)
    (session : String × String) : Prop :=
  (S.routerOf session).isSome ∨
    (updates.filter fun f => f.session = session).map SessionRouterRecord.routerText ≠ [""]

instance (S : TenantStore) (updates : List SessionRouterRecord) (session : String × String) :
    Decidable (S.LeavesText updates session) :=
  inferInstanceAs (Decidable (_ ∨ _))

/-- A session that is updated has updates. -/
theorem updates_ne_nil {updates : List SessionRouterRecord} {session : String × String}
    (h : session ∈ updates.map SessionRouterRecord.session) :
    updates.filter (fun f => f.session = session) ≠ [] := by
  obtain ⟨f, hf, rfl⟩ := List.mem_map.mp h
  exact List.ne_nil_of_mem (List.mem_filter.mpr ⟨hf, decide_eq_true rfl⟩)

/-- A session that is updated has a router after that. -/
theorem exists_mergedRouterOf (S : TenantStore) {updates : List SessionRouterRecord}
    {session : String × String} (h : session ∈ updates.map SessionRouterRecord.session) :
    ∃ record, S.mergedRouterOf updates session = some record := by
  have hpart := updates_ne_nil h
  unfold TenantStore.mergedRouterOf
  generalize updates.filter (fun f => f.session = session) = part at hpart
  obtain ⟨front, last, rfl⟩ := (List.eq_nil_or_concat part).resolve_left hpart
  rw [List.concat_eq_append, List.foldl_append]
  exact ⟨_, rfl⟩

/-- The updated sessions that have something to be found by are those that leave text. -/
theorem any_hasText_mergedRouterOf {S : TenantStore} {updates : List SessionRouterRecord}
    {session : String × String} (h : session ∈ updates.map SessionRouterRecord.session) :
    (S.mergedRouterOf updates session).any SessionRouterRecord.hasText = true ↔
      S.LeavesText updates session := by
  have hpart := updates_ne_nil h
  unfold TenantStore.mergedRouterOf TenantStore.LeavesText
  generalize updates.filter (fun f => f.session = session) = part at hpart
  obtain ⟨front, last, rfl⟩ := (List.eq_nil_or_concat part).resolve_left hpart
  rw [List.concat_eq_append, List.foldl_append, List.foldl_cons, List.foldl_nil]
  cases hprevious : front.foldl mergeInto (S.routerOf session) with
  | none =>
    -- Nothing is stored and the update is the only one, so its own text counts.
    have hfront : front = [] := by
      rcases List.eq_nil_or_concat front with hnil | ⟨init, f, rfl⟩
      · exact hnil
      · rw [List.concat_eq_append, List.foldl_append] at hprevious
        exact absurd hprevious (by simp [mergeInto])
    rw [hfront, List.foldl_nil] at hprevious
    rw [hfront, hprevious, mergeInto, Option.elim_none, Option.any_some]
    simp [SessionRouterRecord.hasText]
  | some previous =>
    rw [mergeInto, Option.elim_some, Option.any_some, hasText_mergeRouterRecords]
    refine iff_of_true rfl ?_
    by_cases hstored : (S.routerOf session).isSome = true
    · exact .inl hstored
    · have hfront : front ≠ [] := by
        rintro rfl
        exact hstored (by rw [List.foldl_nil] at hprevious; rw [hprevious]; rfl)
      refine .inr fun hone => hfront ?_
      have hlength := congrArg List.length hone
      simpa using hlength

/-- No two sessions have one router identifier. -/
theorem session_eq_of_routerId {entityId entityId' sessionId sessionId' : String}
    (h : routerId entityId sessionId = routerId entityId' sessionId') :
    sessionId = sessionId' := by
  have hcanonical : ∀ tag ∈ [Tag.named "router"], tag.Canonical := by decide +kernel
  have hparse := parse_ofTags entityId sessionId 0 hcanonical
  have hparse' := parse_ofTags entityId' sessionId' 0 hcanonical
  have hsame : (MemoryId.ofTags entityId sessionId 0 [.named "router"]).rendered =
      (MemoryId.ofTags entityId' sessionId' 0 [.named "router"]).rendered := h
  rw [hsame, hparse'] at hparse
  exact (congrArg MemoryId.session (Except.ok.inj hparse)).symm

/-- The router of a session after updates is stored under the session. -/
theorem session_mergedRouterOf {S : TenantStore} (hS : RoutersKeyed S.sessionRouter)
    {updates : List SessionRouterRecord} {session : String × String} {record : SessionRouterRecord}
    (h : S.mergedRouterOf updates session = some record) : record.session = session := by
  rw [← (merges_batch hS 0 updates).routerOf] at h
  obtain ⟨row, hrow, rfl⟩ := Option.map_eq_some_iff.mp h
  obtain ⟨hrow, hkey⟩ := Table.find?_eq_some.mp hrow
  exact (hS.mergeRouterRecordsTx 0 updates row hrow).trans hkey

/-- Documents that name their session are distinct for distinct sessions. -/
theorem mergedRouterOf_injective {S : TenantStore} (hS : RoutersKeyed S.sessionRouter)
    {updates : List SessionRouterRecord} {δ : Type} {doc : SessionRouterRecord → δ}
    (hdoc : ∀ record record', doc record = doc record' → record.session = record'.session) :
    ∀ a ∈ updates.map SessionRouterRecord.session,
      ∀ b ∈ updates.map SessionRouterRecord.session,
        (S.mergedRouterOf updates a).map doc = (S.mergedRouterOf updates b).map doc → a = b := by
  intro a ha b hb hsame
  obtain ⟨record, hrecord⟩ := exists_mergedRouterOf S ha
  obtain ⟨record', hrecord'⟩ := exists_mergedRouterOf S hb
  rw [hrecord, hrecord', Option.map_some, Option.map_some, Option.some_inj] at hsame
  rw [← session_mergedRouterOf hS hrecord, ← session_mergedRouterOf hS hrecord',
    hdoc record record' hsame]

/-- The documents of the routers come out the same exactly if, in each of their rows, the session
that is updated last is the last to be updated first. -/
theorem documents_agree_iff {S : TenantStore} (hS : RoutersKeyed S.sessionRouter)
    (updates : List (UInt64 × SessionRouterRecord)) (now : UInt64) :
    (∀ rowid, (mergeRouterRecordsTx now S (updates.map Prod.snd)).ftsSessionRouter.find? rowid =
      (mergeInTurn S updates).ftsSessionRouter.find? rowid) ↔
      InTurn sessionRow (sessionsOf updates) := by
  have hwrites : ∀ session ∈ sessionsOf updates,
      (S.mergedRouterOf (updates.map Prod.snd) session).any (fun _ => true) = true ↔ True := by
    intro session hupdated
    obtain ⟨record, hrecord⟩ := exists_mergedRouterOf S hupdated
    rw [hrecord]
    exact iff_of_true rfl trivial
  have hdoc : ∀ record record' : SessionRouterRecord,
      record.document = record'.document → record.session = record'.session :=
    fun record record' h =>
      Prod.ext (congrArg RouterDoc.sessionId h) (congrArg RouterDoc.entityId h)
  have hiff := writtenIn_eq_iff sessionRow hwrites (mergedRouterOf_injective hS hdoc)
    S.ftsSessionRouter.find?
  rw [List.filter_eq_self.mpr fun _ _ => decide_eq_true trivial] at hiff
  rw [← hiff]
  refine forall_congr' fun rowid => ?_
  rw [(merges_batch hS now (updates.map Prod.snd)).documents,
    (merges_inTurn hS updates).2.documents]
  rfl

/-- The same of the documents that the routers have among those of the memories. -/
theorem memoryDocuments_agree_iff {S : TenantStore} (hS : RoutersKeyed S.sessionRouter)
    (updates : List (UInt64 × SessionRouterRecord)) (now : UInt64) :
    (∀ rowid, (mergeRouterRecordsTx now S (updates.map Prod.snd)).ftsMemories.find? rowid =
      (mergeInTurn S updates).ftsMemories.find? rowid) ↔
      InTurn sessionMemoryRow ((sessionsOf updates).filter fun session =>
        S.LeavesText (updates.map Prod.snd) session) := by
  have hwrites : ∀ session ∈ sessionsOf updates,
      (S.mergedRouterOf (updates.map Prod.snd) session).any SessionRouterRecord.hasText = true ↔
        S.LeavesText (updates.map Prod.snd) session :=
    fun session hupdated => any_hasText_mergedRouterOf hupdated
  have hdoc : ∀ record record' : SessionRouterRecord,
      record.memoryDocument = record'.memoryDocument → record.session = record'.session :=
    fun record record' h => Prod.ext (session_eq_of_routerId (congrArg FtsDoc.memoryId h))
      (congrArg FtsDoc.entityId h)
  rw [← writtenIn_eq_iff sessionMemoryRow hwrites (mergedRouterOf_injective hS hdoc)
    S.ftsMemories.find?]
  refine forall_congr' fun rowid => ?_
  rw [(merges_batch hS now (updates.map Prod.snd)).memoryDocuments,
    (merges_inTurn hS updates).2.memoryDocuments]
  rfl

/-- The routers and their sources always come out the same. -/
theorem sameRouters_iff {S : TenantStore} (hS : RoutersKeyed S.sessionRouter)
    (updates : List (UInt64 × SessionRouterRecord)) (now : UInt64) :
    SameRouters (mergeRouterRecordsTx now S (updates.map Prod.snd)) (mergeInTurn S updates) ↔
      (∀ rowid, (mergeRouterRecordsTx now S (updates.map Prod.snd)).ftsSessionRouter.find? rowid =
        (mergeInTurn S updates).ftsSessionRouter.find? rowid) ∧
      ∀ rowid, (mergeRouterRecordsTx now S (updates.map Prod.snd)).ftsMemories.find? rowid =
        (mergeInTurn S updates).ftsMemories.find? rowid := by
  have hbatch := merges_batch hS now (updates.map Prod.snd)
  have hturn := (merges_inTurn hS updates).2
  constructor
  · intro h
    exact ⟨h.documents, h.memoryDocuments⟩
  · rintro ⟨hdocuments, hmemories⟩
    refine ⟨fun session => ?_, hbatch.sources.trans hturn.sources.symm, hdocuments, hmemories⟩
    rw [hbatch.routers, hturn.routers]

/-- One call with a list of updates leaves the routers, the sources and the documents of one call
for each update exactly if, in every row of the documents, the session that is updated last is the
last to be updated first. -/
theorem mergeRouterRecordsTx_iff {S : TenantStore} (hS : RoutersKeyed S.sessionRouter)
    (updates : List (UInt64 × SessionRouterRecord)) (now : UInt64) :
    SameRouters (mergeRouterRecordsTx now S (updates.map Prod.snd)) (mergeInTurn S updates) ↔
      InTurn sessionRow (sessionsOf updates) ∧
        InTurn sessionMemoryRow ((sessionsOf updates).filter fun session =>
          S.LeavesText (updates.map Prod.snd) session) := by
  rw [sameRouters_iff hS, documents_agree_iff hS, memoryDocuments_agree_iff hS]

/-- In a reachable store no more is asked. -/
theorem sameRouters_of_run_iff {cosineSimilarity : List ℚ → List ℚ → ℚ} (run : List StoreStep)
    (updates : List (UInt64 × SessionRouterRecord)) (now : UInt64) :
    let S := run.foldl (TenantStore.step cosineSimilarity) TenantStore.empty
    SameRouters (mergeRouterRecordsTx now S (updates.map Prod.snd)) (mergeInTurn S updates) ↔
      InTurn sessionRow (sessionsOf updates) ∧
        InTurn sessionMemoryRow ((sessionsOf updates).filter fun session =>
          S.LeavesText (updates.map Prod.snd) session) := by
  intro S
  have hS : RoutersKeyed S.sessionRouter := (sessionsKeyed_of_run run).routers
  rw [sameRouters_iff hS, documents_agree_iff hS, memoryDocuments_agree_iff hS]

/-- What a memory contributes to a session. -/
private def update (sessionId entityId memoryId : String) : UInt64 × SessionRouterRecord :=
  (0, SessionRouterRecord.withText
    { sessionId := sessionId
      entityId := entityId
      sessionDate := "2024-01-01"
      documentTimeMs := 0
      speakers := []
      persons := []
      sessionFocus := ""
      canonicalFacts := []
      events := []
      objects := []
      places := []
      activities := []
      preferenceSignals := []
      salientTerms := []
      sourceMemoryIds := [memoryId]
      routerText := ""
      createdAtMs := 0
      updatedAtMs := 0 })

/-- A store that a commit has left with the router of one session. -/
private def oneRouter : TenantStore :=
  [StoreStep.commit .insertion ⟨1, 1, 1⟩
      { sessionRouterUpdates := [(update "s1" "alice" "m0").2] }].foldl
    (TenantStore.step fun _ _ => 0) TenantStore.empty

/-- The theorem at two sessions whose updates alternate, where one of them has a router already. -/
theorem mergeRouterRecordsTx_iff_alternating :
    SameRouters
      (mergeRouterRecordsTx 0 oneRouter ([update "s1" "alice" "m1", update "s2" "alice" "m2",
        update "s1" "alice" "m3"].map Prod.snd))
      (mergeInTurn oneRouter [update "s1" "alice" "m1", update "s2" "alice" "m2",
        update "s1" "alice" "m3"]) :=
  (mergeRouterRecordsTx_iff (sessionsKeyed_of_run _).routers _ 0).mpr (by decide +kernel)

/-- Session `b::c` of `a` and session `c` of `a::b` have one row. The first is updated last, but the
batch leaves the document of the second there. -/
theorem mergeRouterRecordsTx_shared_row :
    ¬ SameRouters
      (mergeRouterRecordsTx 0 TenantStore.empty ([update "b::c" "a" "m1", update "c" "a::b" "m2",
        update "b::c" "a" "m3"].map Prod.snd))
      (mergeInTurn TenantStore.empty [update "b::c" "a" "m1", update "c" "a::b" "m2",
        update "b::c" "a" "m3"]) := by
  intro h
  exact absurd (h.documents (sessionRow ("b::c", "a"))) (by decide +kernel)

end Tellodb
