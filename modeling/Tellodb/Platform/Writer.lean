import Tellodb.Collections.Tally
import Tellodb.Collections.Weighed
import Tellodb.Platform.Requests

/-!
# The platform writer

`start_platform_writer` of `api/mod.rs`: requests put what they want written into a bounded channel,
and a task of its own takes it out, adds up the usage by user and endpoint, and flushes when enough
has come together or a timer ticks. `writer_exact` says that the buffering does not show: whatever
the order of sends, receives and ticks, and whatever the order in which the map of counts is gone
through, the counters of every user are those of the operations that the channel took, and so are
the profiles. -/

namespace Tellodb

open Collections Relational

/-! ## The code -/

/-- What is sent to the writer. -/
inductive PlatformWriteOp where
  | usage (userId endpoint : String)
  | profile (update : ProfileUpdate)
  deriving DecidableEq

/-- The capacity of the channel. -/
def platformChannelCapacity : ℕ := 4096

/-- How many pending entries are flushed without waiting for the timer. -/
def platformFlushThreshold : ℕ := 512

/-- The store, the channel, and what the task has taken out of it. -/
structure PlatformWriter where
  store : PlatformStore
  channel : List PlatformWriteOp
  /-- The map from users and endpoints to counts. -/
  pendingUsage : List ((String × String) × ℕ)
  pendingProfiles : List ProfileUpdate

/-- The writer after `start_platform_writer`. -/
def PlatformWriter.start (store : PlatformStore) : PlatformWriter :=
  ⟨store, [], [], []⟩

/-- What a flush depends on: the order of the map, and the time at which an entry is written. -/
structure PlatformFlush where
  order : HashOrder
  now : String × String → UInt64

/-- `flush_platform_writes`. A write that fails is logged. -/
def PlatformWriter.flush (w : PlatformWriter) (f : PlatformFlush) : PlatformWriter :=
  let store := (f.order.iterate w.pendingUsage).foldl (fun P entry =>
    (P.recordUsageN entry.1.1 entry.1.2 entry.2 (f.now entry.1)).1) w.store
  { w with
    store := w.pendingProfiles.foldl PlatformStore.updateProfileFromText store
    pendingUsage := []
    pendingProfiles := [] }

/-- An operation is taken out of the channel. -/
def PlatformWriter.pend (w : PlatformWriter) : PlatformWriteOp → PlatformWriter
  | .usage userId endpoint =>
    { w with pendingUsage := tallyStep w.pendingUsage ((userId, endpoint), 1) }
  | .profile update => { w with pendingProfiles := w.pendingProfiles ++ [update] }

/-- What happens to the writer. -/
inductive PlatformEvent where
  /-- `try_send` of a request. -/
  | trySend (op : PlatformWriteOp)
  /-- The task receives an operation. -/
  | received (f : PlatformFlush)
  /-- The timer ticks. -/
  | ticked (f : PlatformFlush)

/-- The writer after an event. A receive waits while the channel is empty. -/
def PlatformWriter.step (w : PlatformWriter) : PlatformEvent → PlatformWriter
  | .trySend op =>
    if w.channel.length < platformChannelCapacity then { w with channel := w.channel ++ [op] }
    else w
  | .received f =>
    match w.channel with
    | [] => w
    | op :: channel =>
      let pending := PlatformWriter.pend { w with channel } op
      if pending.pendingUsage.length + pending.pendingProfiles.length ≥ platformFlushThreshold then
        pending.flush f
      else pending
  | .ticked f =>
    if w.pendingUsage.isEmpty && w.pendingProfiles.isEmpty then w else w.flush f

/-- The end of the task, when the channel is closed and empty. -/
def PlatformWriter.close (w : PlatformWriter) (f : PlatformFlush) : PlatformWriter :=
  if w.pendingUsage.isEmpty && w.pendingProfiles.isEmpty then w else w.flush f

/-- The operation that the channel takes at an event. -/
def PlatformWriter.accepts (w : PlatformWriter) : PlatformEvent → List PlatformWriteOp
  | .trySend op => if w.channel.length < platformChannelCapacity then [op] else []
  | _ => []

/-- The operations that the channel takes during a run. -/
def PlatformWriter.accepted (w : PlatformWriter) : List PlatformEvent → List PlatformWriteOp
  | [] => []
  | event :: rest => w.accepts event ++ (w.step event).accepted rest

/-! ## Counters -/

/-- The counters of a row of `usage`. -/
inductive UsageCounter where
  | request
  | ingest
  | query
  | temporalQuery
  | reset
  | health
  | version
  deriving DecidableEq

/-- What a counter says. -/
def UsageRow.counter (row : UsageRow) : UsageCounter → ℕ
  | .request => row.requestCount
  | .ingest => row.ingestCount
  | .query => row.queryCount
  | .temporalQuery => row.temporalQueryCount
  | .reset => row.resetCount
  | .health => row.healthCount
  | .version => row.versionCount

/-- Whether a counter counts the requests to an endpoint. -/
def UsageCounter.counts (counter : UsageCounter) (endpoint : String) : Bool :=
  match counter with
  | .request => true
  | .ingest => endpoint = "ingest"
  | .query => endpoint = "query"
  | .temporalQuery => endpoint = "temporal_query"
  | .reset => endpoint = "reset"
  | .health => endpoint = "health"
  | .version => endpoint = "version"

/-- A counter grows by the number of requests to its endpoints. -/
theorem UsageRow.counter_count (endpoint : String) (n : ℕ) (now : UInt64) (row : UsageRow)
    (counter : UsageCounter) : (row.count endpoint n now).counter counter =
      row.counter counter + if counter.counts endpoint then n else 0 := by
  unfold UsageRow.count
  dsimp only
  cases counter <;> split_ifs <;> simp_all [UsageRow.counter, UsageCounter.counts]

/-- The row of a user is there before it is counted up, and that changes no counter. -/
theorem PlatformStore.usageStats_insertOrIgnore (P : PlatformStore) (userId v : String) :
    ({ P with usage := P.usage.insertOrIgnore (UsageRow.initial userId) } :
      PlatformStore).usageStats v = P.usageStats v := by
  unfold PlatformStore.usageStats
  dsimp only
  cases hfound : P.usage.find? v with
  | some row => rw [Table.find?_insertOrIgnore hfound]
  | none =>
    by_cases htaken : ∃ row ∈ P.usage.rows, row.userId = userId
    · obtain ⟨row, hrow, hid⟩ := htaken
      rw [Table.insertOrIgnore_of_mem hrow hid, hfound]
    · have hfree : ∀ row ∈ P.usage.rows, row.userId ≠ (UsageRow.initial userId).userId :=
        fun row hrow hid => htaken ⟨row, hrow, hid⟩
      rw [Table.find?_of_rows_append (Table.insertOrIgnore_rows hfree)]
      by_cases hv : userId = v
      · rw [if_pos (show (UsageRow.initial userId).userId = v from hv), ← hv]
        rfl
      · rw [if_neg (show ¬ (UsageRow.initial userId).userId = v from hv), hfound]

/-- A write of usage counts up the counters of its user that count the endpoint. -/
theorem PlatformStore.usageStats_recordUsageN (P : PlatformStore) (userId endpoint : String)
    (n : ℕ) {now : UInt64} (hnow : Storable now) (v : String) (counter : UsageCounter) :
    ((P.recordUsageN userId endpoint n now).1.usageStats v).counter counter =
      (P.usageStats v).counter counter +
        if userId = v ∧ isSafeUserId v = true ∧ counter.counts endpoint = true then n else 0 := by
  have hthere := P.usageStats_insertOrIgnore userId v
  unfold PlatformStore.recordUsageN
  -- To count nothing writes nothing.
  by_cases hzero : n = 0
  · rw [if_pos hzero, hzero, ite_self, Nat.add_zero]
  rw [if_neg hzero]
  dsimp only
  by_cases hsafe : isSafeUserId userId = true
  · rw [if_neg (not_not.mpr hsafe), if_neg (not_not.mpr hnow)]
    rw [← hthere]
    unfold PlatformStore.usageStats
    dsimp only
    rw [Table.find?_updateWhere]
    -- The row of the user grows, and no other does.
    by_cases hv : userId = v
    · subst hv
      obtain ⟨row, hrow⟩ := P.usage.exists_find?_insertOrIgnore (UsageRow.initial userId)
      change (P.usage.insertOrIgnore (UsageRow.initial userId)).find? userId = some row at hrow
      have hid : row.userId = userId := (Table.find?_eq_some.mp hrow).2
      rw [hrow, Option.map_some, Option.getD_some, Option.getD_some]
      unfold Assignment.on
      rw [if_pos (decide_eq_true hid)]
      refine (UsageRow.counter_count endpoint n now row counter).trans ?_
      simp only [hsafe, true_and]
    · rw [if_neg fun h => hv h.1, Nat.add_zero]
      cases hfound : (P.usage.insertOrIgnore (UsageRow.initial userId)).find? v with
      | none => rfl
      | some row =>
        have hid : row.userId = v := (Table.find?_eq_some.mp hfound).2
        rw [Option.map_some, Option.getD_some, Option.getD_some]
        unfold Assignment.on
        rw [if_neg (by simpa [hid] using fun h => hv h.symm)]
  -- An unsafe user id is refused, which the rule leaves out as well.
  · rw [if_pos hsafe]
    refine (congrArg (UsageRow.counter · counter) hthere).trans ?_
    have hcounted : ¬ (userId = v ∧ isSafeUserId v = true ∧ counter.counts endpoint = true) :=
      fun h => hsafe (h.1 ▸ h.2.1)
    rw [if_neg hcounted, Nat.add_zero]

/-! ## What is under way -/

/-- What a pending entry adds to a counter of a user. -/
def usageWeight (v : String) (counter : UsageCounter) (entry : (String × String) × ℕ) : ℕ :=
  if entry.1.1 = v ∧ isSafeUserId v = true ∧ counter.counts entry.1.2 = true then entry.2 else 0

/-- What an operation adds to a counter of a user. -/
def PlatformWriteOp.weight (v : String) (counter : UsageCounter) : PlatformWriteOp → ℕ
  | .usage userId endpoint => usageWeight v counter ((userId, endpoint), 1)
  | .profile _ => 0

/-- What a counter of a user will say when all that is under way is written. -/
def PlatformWriter.due (w : PlatformWriter) (v : String) (counter : UsageCounter) : ℕ :=
  (w.store.usageStats v).counter counter + weigh (usageWeight v counter) w.pendingUsage +
    weigh (PlatformWriteOp.weight v counter) w.channel

/-- The updates of profiles among operations. -/
def profileUpdates (ops : List PlatformWriteOp) : List ProfileUpdate :=
  ops.filterMap fun op =>
    match op with
    | .usage _ _ => none
    | .profile update => some update

/-- The profiles when all that is under way is written. -/
def PlatformWriter.profilesDue (w : PlatformWriter) : UserProfiles :=
  (w.pendingProfiles ++ profileUpdates w.channel).foldl UserProfiles.update w.store.userProfiles

/-- An entry that is counted up weighs what it did and what comes on top. -/
theorem weigh_tallyStep (v : String) (counter : UsageCounter)
    (pending : List ((String × String) × ℕ)) (entry : (String × String) × ℕ) :
    weigh (usageWeight v counter) (tallyStep pending entry) =
      weigh (usageWeight v counter) pending + usageWeight v counter entry := by
  induction pending with
  | nil =>
    unfold tallyStep
    rw [weigh_cons, weigh_nil, Nat.zero_add, Nat.zero_add, Nat.add_zero]
  | cons first rest ih =>
    unfold tallyStep
    by_cases hkey : first.1 = entry.1
    · rw [if_pos hkey, weigh_cons, weigh_cons]
      unfold usageWeight
      rw [hkey]
      split_ifs <;> omega
    · rw [if_neg hkey, weigh_cons, weigh_cons, ih]
      omega

/-- The times at which a flush writes are ones that SQLite takes. -/
def PlatformFlush.InRange (f : PlatformFlush) : Prop :=
  ∀ key, Storable (f.now key)

/-- The flushes of an event write at such times. -/
def PlatformEvent.InRange : PlatformEvent → Prop
  | .trySend _ => True
  | .received f => f.InRange
  | .ticked f => f.InRange

/-- What no operation of the writer is about. -/
def PlatformStore.SameAccounts (P Q : PlatformStore) : Prop :=
  P.users = Q.users ∧ P.sessions = Q.sessions ∧ P.apiKeys = Q.apiKeys ∧
    P.keyTouched = Q.keyTouched

/-- Recording usage changes neither the profiles nor the accounts. -/
theorem PlatformStore.recordUsageN_frame (P : PlatformStore) (userId endpoint : String) (n : ℕ)
    (now : UInt64) : (P.recordUsageN userId endpoint n now).1.userProfiles = P.userProfiles ∧
      (P.recordUsageN userId endpoint n now).1.SameAccounts P := by
  unfold PlatformStore.recordUsageN
  dsimp only
  split_ifs <;> exact ⟨rfl, rfl, rfl, rfl, rfl⟩

/-- Entries that are written, one after the other, count up what they weigh. -/
theorem PlatformStore.usageStats_writeUsage (entries : List ((String × String) × ℕ))
    {now : String × String → UInt64} (hnow : ∀ key, Storable (now key)) (P : PlatformStore) :
    let written := entries.foldl (fun P entry =>
      (P.recordUsageN entry.1.1 entry.1.2 entry.2 (now entry.1)).1) P
    (∀ v counter, (written.usageStats v).counter counter =
      (P.usageStats v).counter counter + weigh (usageWeight v counter) entries) ∧
      written.userProfiles = P.userProfiles ∧ written.SameAccounts P := by
  induction entries generalizing P with
  | nil => exact ⟨fun _ _ => rfl, rfl, rfl, rfl, rfl, rfl⟩
  | cons entry rest ih =>
    obtain ⟨hcounters, hprofiles, haccounts⟩ :=
      ih (P.recordUsageN entry.1.1 entry.1.2 entry.2 (now entry.1)).1
    obtain ⟨hsame, hfirst⟩ := P.recordUsageN_frame entry.1.1 entry.1.2 entry.2 (now entry.1)
    refine ⟨fun v counter => ?_, hprofiles.trans hsame, ?_⟩
    · refine (hcounters v counter).trans ?_
      rw [PlatformStore.usageStats_recordUsageN P _ _ _ (hnow entry.1), weigh_cons]
      unfold usageWeight
      omega
    · obtain ⟨h1, h2, h3, h4⟩ := haccounts
      obtain ⟨k1, k2, k3, k4⟩ := hfirst
      exact ⟨h1.trans k1, h2.trans k2, h3.trans k3, h4.trans k4⟩

/-- Profiles that are updated, one after the other, are what they are without the rest. -/
theorem PlatformStore.updateProfiles_eq (updates : List ProfileUpdate) (P : PlatformStore) :
    updates.foldl PlatformStore.updateProfileFromText P =
      { P with userProfiles := updates.foldl UserProfiles.update P.userProfiles } := by
  induction updates generalizing P with
  | nil => rfl
  | cons update rest ih => exact ih _

/-- A flush writes what is pending, in any order of the map. -/
theorem PlatformWriter.flush_spec (w : PlatformWriter) {f : PlatformFlush} (hf : f.InRange) :
    (∀ v counter, (w.flush f).due v counter = w.due v counter) ∧
      (w.flush f).profilesDue = w.profilesDue ∧ (w.flush f).store.SameAccounts w.store := by
  obtain ⟨hcounters, hprofiles, haccounts⟩ :=
    PlatformStore.usageStats_writeUsage (f.order.iterate w.pendingUsage) hf w.store
  refine ⟨fun v counter => ?_, ?_, ?_⟩
  · have hwritten : ((w.flush f).store.usageStats v).counter counter =
        (w.store.usageStats v).counter counter +
          weigh (usageWeight v counter) w.pendingUsage := by
      unfold PlatformWriter.flush
      dsimp only
      rw [PlatformStore.updateProfiles_eq]
      refine (hcounters v counter).trans ?_
      rw [weigh_perm _ (f.order.iterate_perm w.pendingUsage)]
    unfold PlatformWriter.due
    rw [hwritten]
    rfl
  · unfold PlatformWriter.profilesDue PlatformWriter.flush
    dsimp only
    rw [PlatformStore.updateProfiles_eq, hprofiles, List.nil_append, List.foldl_append]
  · unfold PlatformWriter.flush
    dsimp only
    rw [PlatformStore.updateProfiles_eq]
    exact haccounts

/-- An operation that is taken out of the channel is pending. -/
theorem PlatformWriter.pend_spec (w : PlatformWriter) (op : PlatformWriteOp)
    (channel : List PlatformWriteOp) :
    (∀ v counter, (PlatformWriter.pend { w with channel } op).due v counter =
      ({ w with channel := op :: channel } : PlatformWriter).due v counter) ∧
      (PlatformWriter.pend { w with channel } op).profilesDue =
        ({ w with channel := op :: channel } : PlatformWriter).profilesDue ∧
      (PlatformWriter.pend { w with channel } op).store = w.store := by
  cases op with
  | usage userId endpoint =>
    refine ⟨fun v counter => ?_, rfl, rfl⟩
    unfold PlatformWriter.pend PlatformWriter.due
    dsimp only
    have hweight : PlatformWriteOp.weight v counter (.usage userId endpoint) =
        -- The counter moves from the queue to what is pending.
        usageWeight v counter ((userId, endpoint), 1) := rfl
    rw [weigh_tallyStep, weigh_cons, hweight]
    omega
  | profile update =>
    refine ⟨fun v counter => ?_, ?_, rfl⟩
    · unfold PlatformWriter.pend PlatformWriter.due
      -- A profile update counts nothing.
      have hweight : PlatformWriteOp.weight v counter (.profile update) = 0 := rfl
      dsimp only
      rw [weigh_cons, hweight, Nat.zero_add]
    · unfold PlatformWriter.pend PlatformWriter.profilesDue
      dsimp only
      rw [List.append_assoc, List.singleton_append]
      rfl

/-- An event adds what the channel takes to what is under way, and nothing is lost. -/
theorem PlatformWriter.step_spec (w : PlatformWriter) {event : PlatformEvent}
    (hevent : event.InRange) :
    (∀ v counter, (w.step event).due v counter =
      w.due v counter + weigh (PlatformWriteOp.weight v counter) (w.accepts event)) ∧
      (w.step event).profilesDue =
        (profileUpdates (w.accepts event)).foldl UserProfiles.update w.profilesDue ∧
      (w.step event).store.SameAccounts w.store := by
  cases event with
  | trySend op =>
    unfold PlatformWriter.step PlatformWriter.accepts
    dsimp only
    -- What is sent is due unless the channel is full.
    by_cases hroom : w.channel.length < platformChannelCapacity
    · rw [if_pos hroom, if_pos hroom]
      refine ⟨fun v counter => ?_, ?_, rfl, rfl, rfl, rfl⟩
      · unfold PlatformWriter.due
        dsimp only
        rw [weigh_append]
        omega
      · unfold PlatformWriter.profilesDue profileUpdates
        dsimp only
        rw [List.filterMap_append, ← List.append_assoc, List.foldl_append]
    · rw [if_neg hroom, if_neg hroom]
      exact ⟨fun _ _ => rfl, rfl, rfl, rfl, rfl, rfl⟩
  | received f =>
    change (∀ v counter, _ = w.due v counter + weigh _ []) ∧ _ = w.profilesDue ∧ _
    unfold PlatformWriter.step
    dsimp only
    cases hchannel : w.channel with
    | nil => exact ⟨fun _ _ => rfl, rfl, rfl, rfl, rfl, rfl⟩
    | cons op channel =>
      dsimp only
      obtain ⟨hdue, hprofiles, hstore⟩ := w.pend_spec op channel
      rw [← hchannel] at hdue hprofiles
      -- The writer flushes when enough is pending.
      split
      · obtain ⟨hflush, hflushed, haccounts⟩ :=
          (PlatformWriter.pend { w with channel } op).flush_spec hevent
        rw [hstore] at haccounts
        exact ⟨fun v counter => (hflush v counter).trans (hdue v counter),
          hflushed.trans hprofiles, haccounts⟩
      · rw [hstore]
        exact ⟨hdue, hprofiles, rfl, rfl, rfl, rfl⟩
  | ticked f =>
    change (∀ v counter, _ = w.due v counter + weigh _ []) ∧ _ = w.profilesDue ∧ _
    unfold PlatformWriter.step
    dsimp only
    split
    · exact ⟨fun _ _ => rfl, rfl, rfl, rfl, rfl, rfl⟩
    · exact w.flush_spec hevent

/-- What is under way after a run is what was, and what the channel has taken. -/
theorem PlatformWriter.run_spec (events : List PlatformEvent)
    (hevents : ∀ event ∈ events, event.InRange) (w : PlatformWriter) :
    (∀ v counter, (events.foldl PlatformWriter.step w).due v counter =
      w.due v counter + weigh (PlatformWriteOp.weight v counter) (w.accepted events)) ∧
      (events.foldl PlatformWriter.step w).profilesDue =
        (profileUpdates (w.accepted events)).foldl UserProfiles.update w.profilesDue ∧
      (events.foldl PlatformWriter.step w).store.SameAccounts w.store := by
  induction events generalizing w with
  | nil => exact ⟨fun _ _ => rfl, rfl, rfl, rfl, rfl, rfl⟩
  | cons event rest ih =>
    obtain ⟨hdue, hprofiles, haccounts⟩ := w.step_spec (hevents event List.mem_cons_self)
    obtain ⟨hrest, hrestProfiles, hrestAccounts⟩ :=
      ih (fun e he => hevents e (List.mem_cons_of_mem _ he)) (w.step event)
    rw [List.foldl_cons]
    refine ⟨fun v counter => ?_, ?_, ?_⟩
    · rw [hrest v counter, hdue v counter, PlatformWriter.accepted, weigh_append]
      omega
    · rw [hrestProfiles, hprofiles, PlatformWriter.accepted]
      unfold profileUpdates
      rw [List.filterMap_append, List.foldl_append]
    · obtain ⟨h1, h2, h3, h4⟩ := hrestAccounts
      obtain ⟨k1, k2, k3, k4⟩ := haccounts
      exact ⟨h1.trans k1, h2.trans k2, h3.trans k3, h4.trans k4⟩

/-- When the channel is empty and the task has ended, nothing is under way. -/
theorem PlatformWriter.close_spec (w : PlatformWriter) {f : PlatformFlush} (hf : f.InRange)
    (hempty : w.channel = []) :
    (∀ v counter, ((w.close f).store.usageStats v).counter counter = w.due v counter) ∧
      (w.close f).store.userProfiles = w.profilesDue ∧
      (w.close f).store.SameAccounts w.store := by
  unfold PlatformWriter.close
  -- With nothing pending there is nothing to flush.
  by_cases hnothing : (w.pendingUsage.isEmpty && w.pendingProfiles.isEmpty) = true
  · rw [if_pos hnothing]
    obtain ⟨husage, hprofiles⟩ := Bool.and_eq_true_iff.mp hnothing
    unfold PlatformWriter.due PlatformWriter.profilesDue
    rw [hempty, List.isEmpty_iff.mp husage, List.isEmpty_iff.mp hprofiles]
    exact ⟨fun _ _ => rfl, rfl, rfl, rfl, rfl, rfl⟩
  · rw [if_neg hnothing]
    obtain ⟨hdue, hprofiles, haccounts⟩ := w.flush_spec hf
    refine ⟨fun v counter => ?_, ?_, haccounts⟩
    · rw [← hdue v counter]
      -- After the last flush nothing is pending and the channel is empty.
      have hnone : (w.flush f).due v counter =
          ((w.flush f).store.usageStats v).counter counter + 0 +
            weigh (PlatformWriteOp.weight v counter) w.channel := rfl
      rw [hnone, hempty]
      rfl
    · rw [← hprofiles]
      have hnone : (w.flush f).profilesDue = (profileUpdates w.channel).foldl UserProfiles.update
          (w.flush f).store.userProfiles := rfl
      rw [hnone, hempty]
      rfl

/-- However sends, receives, ticks and flushes follow each other, when the channel is drained and
the task has ended every counter of a user with a safe identifier has gone up by the operations that
the channel took and the counter counts, every profile is that of the updates it took, one after the
other, and the rest of the store is as it was. -/
theorem writer_exact (store : PlatformStore) (events : List PlatformEvent) (f : PlatformFlush)
    (hevents : ∀ event ∈ events, event.InRange) (hf : f.InRange)
    (hdrained : (events.foldl PlatformWriter.step (.start store)).channel = []) :
    let final := ((events.foldl PlatformWriter.step (.start store)).close f).store
    let taken := (PlatformWriter.start store).accepted events
    (∀ userId counter, (final.usageStats userId).counter counter =
      (store.usageStats userId).counter counter +
        weigh (PlatformWriteOp.weight userId counter) taken) ∧
      final.userProfiles =
        (profileUpdates taken).foldl UserProfiles.update store.userProfiles ∧
      final.SameAccounts store := by
  obtain ⟨hdue, hprofiles, haccounts⟩ :=
    PlatformWriter.run_spec events hevents (.start store)
  obtain ⟨hclosed, hclosedProfiles, hclosedAccounts⟩ :=
    (events.foldl PlatformWriter.step (.start store)).close_spec hf hdrained
  refine ⟨fun userId counter => ?_, hclosedProfiles.trans hprofiles, ?_⟩
  · exact (hclosed userId counter).trans (hdue userId counter)
  · obtain ⟨h1, h2, h3, h4⟩ := hclosedAccounts
    obtain ⟨k1, k2, k3, k4⟩ := haccounts
    exact ⟨h1.trans k1, h2.trans k2, h3.trans k3, h4.trans k4⟩

/-- Two queries, of which one is still in the channel at the first tick. -/
theorem writer_exact_two :
    (((([.trySend (.usage "usr_ada1" "query"), .received ⟨.insertion, fun _ => 10⟩,
      .trySend (.usage "usr_ada1" "query"), .ticked ⟨.insertion, fun _ => 20⟩,
      .received ⟨.insertion, fun _ => 30⟩] : List PlatformEvent).foldl PlatformWriter.step
        (.start .new)).close ⟨.insertion, fun _ => 40⟩).store.usageStats "usr_ada1").counter .query =
      2 :=
  ((writer_exact .new
    [.trySend (.usage "usr_ada1" "query"), .received ⟨.insertion, fun _ => 10⟩,
      .trySend (.usage "usr_ada1" "query"), .ticked ⟨.insertion, fun _ => 20⟩,
      .received ⟨.insertion, fun _ => 30⟩] ⟨.insertion, fun _ => 40⟩
    (by
      intro event hevent
      simp only [List.mem_cons, List.not_mem_nil, or_false] at hevent
      rcases hevent with rfl | rfl | rfl | rfl | rfl
      · trivial
      · exact fun _ => (by decide : Storable 10)
      · trivial
      · exact fun _ => (by decide : Storable 20)
      · exact fun _ => (by decide : Storable 30))
    (fun _ => (by decide : Storable 40)) rfl).1 "usr_ada1" .query).trans (by decide +kernel)

end Tellodb
