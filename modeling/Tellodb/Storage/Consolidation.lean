import Tellodb.Storage.Memories

/-!
# Core profiles

The last part of an ingest, which runs detached from it: the text of a memory joins the core profile
of its entity, and its row leaves `consolidation_queue`. What a stopped ingest leaves in that queue
is read by `run_pending_consolidations`. -/

namespace Tellodb

open Relational

/-- `normalize_fact_text` -/
def normalizeFactText (text : String) : String :=
  String.ofList ([' '].intercalate (splitWhitespace text.toList))

/-- `truncate_router_value` -/
def truncateRouterValue (text : String) (maxChars : ℕ) : String :=
  if text.toList.length ≤ maxChars then text
  else String.ofList (trim (text.toList.take maxChars))

/-- `MAX_PROFILE_FACTS` -/
def maxProfileFacts : ℕ := 24

/-- The place of a fact by its time: facts without a time come before all others. -/
def ProfileFact.rank (f : ProfileFact) : ℕ :=
  f.timestampMs.elim 0 fun t => t.toNat + 1

/-- The facts of a profile, the newest first and in the order of their arrival among those of one
time. -/
def newestFirst (facts : List ProfileFact) : List ProfileFact :=
  orderBy (fun f => OrderDual.toDual f.rank) facts

/-- The profile of an entity that has none. -/
def IngestConsolidationTask.profile (task : IngestConsolidationTask) : CoreProfile where
  entityId := task.entityId
  facts := []
  updatedAtMs := task.timestamp

/-- A profile with the text of a memory, unless it has a fact of that memory. -/
def CoreProfile.add (p : CoreProfile) (task : IngestConsolidationTask) (excerpt : String) :
    Option CoreProfile :=
  if p.facts.any fun f => f.memoryId = some task.memoryId then none
  else
    let facts := (newestFirst (p.facts ++ [⟨some task.memoryId, some task.timestamp, excerpt⟩])).take
      maxProfileFacts
    some { p with
      facts := facts
      updatedAtMs := (facts.head?.bind ProfileFact.timestampMs).getD p.updatedAtMs }

/-- `update_core_profile_heuristic` -/
def TenantStore.updateCoreProfileHeuristic (now : UInt64) (S : TenantStore)
    (task : IngestConsolidationTask) : TenantStore :=
  let excerpt := truncateRouterValue (normalizeFactText task.textualContent) 280
  if excerpt.isEmpty then S
  else
    let profile := ((S.coreProfiles.find? task.entityId).map CoreProfileRow.profile).getD task.profile
    match profile.add task excerpt with
    | some profile =>
      { S with coreProfiles := S.coreProfiles.insertOrReplace ⟨task.entityId, profile, now⟩ }
    | none => S

/-- An update of a core profile changes the core profiles only. -/
theorem updateCoreProfileHeuristic_inv (now : UInt64) (S : TenantStore)
    (task : IngestConsolidationTask) :
    ∃ t, S.updateCoreProfileHeuristic now task = { S with coreProfiles := t } := by
  unfold TenantStore.updateCoreProfileHeuristic
  dsimp only
  split
  · exact ⟨_, rfl⟩
  · split <;> exact ⟨_, rfl⟩

/-- `complete_consolidation_task` -/
def TenantStore.completeConsolidationTask (S : TenantStore) (memoryId : String) : TenantStore :=
  { S with consolidationQueue := S.consolidationQueue.deleteWhere fun r => r.memoryId = memoryId }

/-- `pending_consolidation_tasks` -/
def TenantStore.pendingConsolidationTasks (S : TenantStore) (limit : ℕ) :
    List IngestConsolidationTask :=
  ((orderBy (fun r => toLex (r.timestampMs.toInt, r.memoryId)) S.consolidationQueue.rows).take
    limit).map fun r => ⟨r.entityId, r.memoryId, r.timestampMs.toUInt64, r.textualContent⟩

end Tellodb
