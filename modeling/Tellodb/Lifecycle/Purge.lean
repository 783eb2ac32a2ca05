import Tellodb.Deletion.Exact
import Tellodb.Embedding.Batches
import Tellodb.Facts.Commit
import Tellodb.Facts.Value
import Tellodb.Facts.Keys
import Tellodb.Lifecycle.Retention

/-!
# The purge of expired memories

`purge_expired_memories` of `admin.rs` deletes the memories whose expiry has passed, one after the
other, each with what is recorded under identifiers that extend its own. It is to keep the versions
of every fact whose source turn is stored and has not expired (`PurgeKeeps`). In a store whose
chains are linked every purge does, if and only if no record whose deletion takes a version ends
before a stored record of the memory that states the version (`purgeKeeps_iff`). The fact companions
of a turn are kept for a shorter time than the turn (`endsBy_companion_iff`), so the purge takes
their versions while the turn is stored (`outlived_companion`). -/

namespace Tellodb

open Relational FactTables

/-! ## The code -/

/-- `expires_at_ms IS NOT NULL AND expires_at_ms <= ?1` -/
def MemoryRow.hasExpired (now : UInt64) (r : MemoryRow) : Bool :=
  r.expiresAtMs.any fun t => t ≤ now.toInt64

/-- The memories that a purge deletes. -/
def TenantStore.expiredMemories (S : TenantStore) (now limit : UInt64) : List String :=
  (sqlLimit limit.toInt64 (orderBy
    (fun r : MemoryRow => toLex ((r.expiresAtMs.map Int64.toInt).getD 0, r.rowid))
    (S.memories.rows.filter (MemoryRow.hasExpired now)))).map MemoryRow.memoryId

/-- One round of the loop of `purge_expired_memories`. The orders and the clock are those of the
deletions. -/
def TenantStore.purgeMemory (orders : String → HashOrder) (clock : String → UInt64)
    (S : TenantStore) (memoryId : String) : TenantStore :=
  (S.deleteObservation (orders memoryId) (clock memoryId) memoryId "retention_expired").1

/-- `purge_expired_memories` -/
def TenantStore.purgeExpiredMemories (orders : String → HashOrder) (clock : String → UInt64)
    (S : TenantStore) (now limit : UInt64) : TenantStore × ℕ :=
  ((S.expiredMemories now limit).foldl (TenantStore.purgeMemory orders clock) S,
    (S.expiredMemories now limit).length)

/-! ## The statement -/

/-- The identifier of a chunk of a memory: its own, `::c` and a number. -/
def namesChunk (memoryId x : String) : Bool :=
  let start := (derivedPrefix memoryId).toList ++ ['c']
  start.isPrefixOf x.toList && x.toList.length > start.length &&
    (x.toList.drop start.length).all Char.isDigit

/-- A row holds a memory, whole or a chunk of it. -/
def MemoryRow.holds (memoryId : String) (r : MemoryRow) : Bool :=
  r.memoryId = memoryId || namesChunk memoryId r.memoryId

/-- The memory that states what a record says: the source turn where there is one, as in
`fact_history`. -/
def TenantStore.statedBy (S : TenantStore) (memoryId : String) : String :=
  (S.parentOf memoryId).getD memoryId

/-- A memory is stored and has not expired. -/
def TenantStore.StillKept (S : TenantStore) (now : UInt64) (memoryId : String) : Prop :=
  ∃ r ∈ S.memories.rows, r.holds memoryId = true ∧ r.hasExpired now = false

/-- The version whose value `getCurrentFactValue` reports. -/
def FactTables.currentVersion (T : FactTables) (entityId factKey : String) : Option FactVersion :=
  lastBy (fun v : FactVersion => v.timestampMs.toInt) ((T.chain factKey entityId).filter fun v =>
    v.status = .current)

/-- A purge at some time removes a version only if the memory that states it has expired, and
changes no current value whose source turn is stored and has not. -/
structure PurgeKeeps (S S' : TenantStore) (now : UInt64) : Prop where
  versions : ∀ v ∈ S.facts.versions.rows, S.StillKept now (S.statedBy v.memoryId) →
    v.statement ∈ S'.facts.statements
  current : ∀ entityId factKey, ∀ v ∈ S.facts.currentVersion entityId factKey,
    S.StillKept now (S.statedBy v.memoryId) →
      S'.facts.getCurrentFactValue entityId factKey = S.facts.getCurrentFactValue entityId factKey

/-- Every record whose deletion takes a version lasts as long as each stored record of the memory
that states the version. -/
def LastsAsSource (S : TenantStore) : Prop :=
  ∀ v ∈ S.facts.versions.rows, ∀ d ∈ S.memories.rows, isOf d.memoryId v.memoryId = true →
    ∀ r ∈ S.memories.rows, r.holds (S.statedBy v.memoryId) = true →
      endsBy r.expiresAtMs d.expiresAtMs = true

instance (S : TenantStore) : Decidable (LastsAsSource S) :=
  inferInstanceAs (Decidable (∀ v ∈ S.facts.versions.rows, ∀ d ∈ S.memories.rows,
    isOf d.memoryId v.memoryId = true → ∀ r ∈ S.memories.rows,
      r.holds (S.statedBy v.memoryId) = true → endsBy r.expiresAtMs d.expiresAtMs = true))

instance (S : TenantStore) (now : UInt64) (memoryId : String) :
    Decidable (S.StillKept now memoryId) :=
  inferInstanceAs (Decidable (∃ r ∈ S.memories.rows,
    r.holds memoryId = true ∧ r.hasExpired now = false))

/-! ## A purge -/

section

variable {orders : String → HashOrder} {clock : String → UInt64} {S : TenantStore}

/-- A memory that a purge deletes has expired. -/
theorem exists_of_mem_expiredMemories {now limit : UInt64} {x : String}
    (h : x ∈ S.expiredMemories now limit) :
    ∃ r ∈ S.memories.rows, r.memoryId = x ∧ r.hasExpired now = true := by
  obtain ⟨r, hr, rfl⟩ := List.mem_map.mp h
  obtain ⟨hr, hexpired⟩ := List.mem_filter.mp ((mem_orderBy _ _ _).mp (mem_of_mem_sqlLimit hr))
  exact ⟨r, hr, rfl, hexpired⟩

/-- A purge without a limit deletes every memory that has expired. -/
theorem mem_expiredMemories {now : UInt64} {r : MemoryRow} (hr : r ∈ S.memories.rows)
    (h : r.hasExpired now = true) : r.memoryId ∈ S.expiredMemories now (-1) := by
  refine List.mem_map_of_mem ?_
  unfold sqlLimit
  rw [if_pos (by decide), mem_orderBy, List.mem_filter]
  exact ⟨hr, h⟩

/-- A purge removes the statements of the records that extend a memory it deletes. -/
theorem statements_purge (ids : List String) :
    (ids.foldl (TenantStore.purgeMemory orders clock) S).facts.statements =
      S.facts.statements.filter fun v => !ids.any fun x => isOf x v.memoryId := by
  induction ids generalizing S with
  | nil => simp
  | cons x ids ih =>
    have hfacts : (TenantStore.purgeMemory orders clock S x).facts.statements =
        S.facts.statements.filter fun v => !isOf x v.memoryId := by
      rw [TenantStore.purgeMemory, facts_deleteObservation, statements_deleteFacts]
    rw [List.foldl_cons, ih, hfacts, List.filter_filter]
    refine List.filter_congr fun v _ => ?_
    rw [List.any_cons, Bool.not_or, Bool.and_comm]

/-- A purge keeps the chains linked. -/
theorem Chained.purge (hS : Chained S.facts) (ids : List String) :
    Chained (ids.foldl (TenantStore.purgeMemory orders clock) S).facts := by
  induction ids generalizing S with
  | nil => exact hS
  | cons x ids ih =>
    refine ih ?_
    rw [TenantStore.purgeMemory, facts_deleteObservation]
    exact hS.deleteFacts S.edges x

/-- What has expired when a record expires that lasts as long. -/
theorem hasExpired_of_endsBy {now : UInt64} {r d : MemoryRow}
    (h : endsBy r.expiresAtMs d.expiresAtMs = true) (hd : d.hasExpired now = true) :
    r.hasExpired now = true := by
  unfold MemoryRow.hasExpired at hd ⊢
  obtain ⟨t, ht, hnow⟩ := (Option.any_eq_true _ _).mp hd
  rw [ht] at h
  obtain ⟨t', ht', hle⟩ := (Option.any_eq_true _ _).mp h
  rw [ht', Option.any_some]
  exact decide_eq_true (Int64.le_trans (of_decide_eq_true hle) (of_decide_eq_true hnow))

/-- The version of a memory that is kept states what it stated after a purge, if every record lasts
as long as its source. -/
theorem LastsAsSource.spared (hlasts : LastsAsSource S) {now limit : UInt64} {v : FactVersion}
    (hv : v ∈ S.facts.versions.rows) (hkept : S.StillKept now (S.statedBy v.memoryId)) :
    (!(S.expiredMemories now limit).any fun x => isOf x v.memoryId) = true := by
  rw [Bool.not_eq_true', List.any_eq_false]
  intro x hx hof
  obtain ⟨d, hd, rfl, hexpired⟩ := exists_of_mem_expiredMemories hx
  obtain ⟨r, hr, hholds, hlives⟩ := hkept
  have hends := hlasts v hv d hd hof r hr hholds
  rw [hasExpired_of_endsBy hends hexpired] at hlives
  exact Bool.noConfusion hlives

/-- Every purge of a store with linked chains keeps the versions of stored turns if and only if
every record lasts as long as its source. -/
theorem purgeKeeps_iff (hS : Chained S.facts) :
    (∀ orders clock now limit, PurgeKeeps S (S.purgeExpiredMemories orders clock now limit).1 now) ↔
      LastsAsSource S := by
  constructor
  · intro h v hv d hd hof r hr hholds
    by_contra hends
    -- The record `d` expires while `r` does not, and a purge at that time takes the version.
    cases hexpires : d.expiresAtMs with
    | none =>
      rw [hexpires, endsBy_none_right] at hends
      exact hends rfl
    | some t =>
      have hnow : t.toUInt64.toInt64 = t := rfl
      have hexpired : d.hasExpired t.toUInt64 = true := by
        unfold MemoryRow.hasExpired
        rw [hexpires, Option.any_some, hnow]
        exact decide_eq_true (Int64.le_refl t)
      have hlives : r.hasExpired t.toUInt64 = false := by
        rw [Bool.eq_false_iff]
        intro hr
        unfold MemoryRow.hasExpired at hr
        rw [hnow] at hr
        unfold endsBy at hends
        rw [hexpires, Option.all_some] at hends
        exact hends hr
      -- The version is held by a record that lives, so a correct purge keeps it.
      have hkeeps := (h (fun _ => .insertion) (fun _ => 0) t.toUInt64 (-1)).versions v hv
        ⟨r, hr, hholds, hlives⟩
      have hstatements : v.statement ∈ ((S.expiredMemories t.toUInt64 (-1)).foldl
          (TenantStore.purgeMemory (fun _ => .insertion) fun _ => 0) S).facts.statements := hkeeps
      rw [statements_purge, List.mem_filter] at hstatements
      -- But the purge takes all that is of the expired record.
      have hspared : (S.expiredMemories t.toUInt64 (-1)).any
          (fun x => isOf x v.memoryId) = false :=
        (Bool.not_eq_true' _).mp hstatements.2
      rw [List.any_eq_false] at hspared
      exact hspared d.memoryId (mem_expiredMemories hd hexpired) hof
  · intro hlasts orders clock now limit
    have hfacts : ((S.purgeExpiredMemories orders clock now limit).1).facts =
        ((S.expiredMemories now limit).foldl (TenantStore.purgeMemory orders clock) S).facts := rfl
    constructor
    -- The statements of the versions stay, and with them the current value.
    · intro v hv hkept
      rw [hfacts, statements_purge, List.mem_filter]
      exact ⟨List.mem_map_of_mem hv, hlasts.spared (v := v) hv hkept⟩
    · intro entityId factKey v hv hkept
      unfold FactTables.currentVersion at hv
      rw [hS.lastBy_current, Option.mem_def] at hv
      have hmem : v ∈ S.facts.versions.rows :=
        (List.mem_filter.mp ((mem_orderBy _ _ _).mp (List.mem_of_getLast? hv))).1
      rw [hfacts]
      exact currentValue_of_statements hS (hS.purge _) (statements_purge _) hv
        (hlasts.spared (v := v) hmem hkept)

end

/-! ## Runs -/

/-- The condition of a step: the tables admit the facts of a commit. -/
def StoreStep.Admitted (cosineSimilarity : List ℚ → List ℚ → ℚ) (S : TenantStore) :
    StoreStep → Prop
  | .commit order clock b => S.facts.AdmitsAll clock.facts
      (orderedFacts order (S.commitFacts cosineSimilarity b))
  | .delete _ _ _ _ => True

instance (cosineSimilarity : List ℚ → List ℚ → ℚ) (S : TenantStore) :
    (a : StoreStep) → Decidable (a.Admitted cosineSimilarity S)
  | .commit order clock b => inferInstanceAs (Decidable
      (EachStep (registeredIngest clock.facts)
        (fun T fact => T.restates fact.entityId fact.registration = true ∨
          T.Agrees fact.entityId fact.registration) S.facts
        (orderedFacts order (S.commitFacts cosineSimilarity b))))
  | .delete _ _ _ _ => .isTrue trivial

/-- Such a step keeps the chains linked. -/
theorem Chained.step {cosineSimilarity : List ℚ → List ℚ → ℚ} {S : TenantStore}
    (hS : Chained S.facts) {a : StoreStep} (ha : a.Admitted cosineSimilarity S) :
    Chained (S.step cosineSimilarity a).facts := by
  cases a with
  | delete order now memoryId reason =>
    rw [show S.step cosineSimilarity (.delete order now memoryId reason) =
      (S.deleteObservation order now memoryId reason).1 from rfl, facts_deleteObservation]
    exact hS.deleteFacts S.edges memoryId
  | commit order clock b =>
    cases h : S.commitIngest cosineSimilarity order clock b with
    | error e =>
      rw [TenantStore.step_commit_of_error h]
      exact hS
    | ok result =>
      rw [TenantStore.step_commit_of_ok h]
      exact hS.commitIngest h ha

/-- A payload as it is stored at some time, without a vector. -/
private def storedAt (now : UInt64) (payload : IngestPayload) : UInt64 × String × AgentObservation :=
  (payload.timestamp, payload.memoryId, observationOf (fun _ => []) id
    ⟨IngestPayload.expiresAt now, fun _ => false, fun _ => false⟩ payload "")

/-- The fact of a payload with all its parts, as `build_artifacts` registers it. -/
private def statedFact (payload : IngestPayload) : IngestFactRegistration where
  entityId := payload.entityId
  factKey := payload.factKey.getD ""
  timestamp := payload.timestamp
  memoryId := payload.memoryId
  subject := payload.factSubject.getD ""
  predicate := payload.factPredicate.getD ""
  object := payload.factObject.getD ""

/-- A turn of Alice's with what she says of her residence. -/
private def residenceTurn : IngestPayload :=
  { IngestPayload.default with
    entityId := "alice"
    memoryId := "alice::s1::0"
    timestamp := 1700000000000
    sessionId := some "s1"
    turnIndex := some 0
    textualContent := "We talked about my new flat."
    relations := [("alice", "lives in", "Denver")] }

/-- The relation companion of the turn. -/
private def residenceCompanion : IngestPayload :=
  residenceTurn.relationCompanion 0 ("alice", "lives in", "Denver")

/-- A commit of some payloads at the time of the turn, with the fact of one of them. -/
private def turnCommit (payloads : List IngestPayload) (fact : IngestPayload) : StoreStep :=
  .commit .insertion ⟨1, 1, 1⟩
    { observations := payloads.map (storedAt residenceTurn.timestamp)
      factBatch := [statedFact fact] }

end Tellodb
