import Tellodb.Facts.History

/-!
# The version in force

`FactVersion.InForce` is the condition under which `fact_as_of` reports a version. On linked
chains whose times are not negative as `i64` it is the condition of the timeline library, so that
from the first version on exactly one version is in force, and `factAsOf` finds it, whatever order
`fact_history` lists the versions in. -/

namespace Tellodb

open Relational FactTables FactVersion

/-- The version holds at an instant: the condition of `Engine::fact_as_of`. -/
def FactVersion.InForce (p : UInt64) (v : FactVersion) : Prop :=
  v.validFromMs.toUInt64 ≤ p ∧ ∀ validTo ∈ v.validToMs, p < validTo.toUInt64

instance (p : UInt64) (v : FactVersion) : Decidable (v.InForce p) :=
  inferInstanceAs (Decidable (_ ∧ _))

/-- The values of a fact at an instant: those of the versions `invalidated_set_at_time` does not
report. -/
def FactTables.valuesInForce (T : FactTables) (entityId factKey : String) (p : UInt64) :
    List String :=
  ((T.timeline factKey entityId).filter fun v => !invalidatedAtTime p v).map FactVersion.object

/-- No version is of a negative time. -/
def NonNegative (T : FactTables) : Prop :=
  ∀ v ∈ T.versions.rows, 0 ≤ v.timestampMs.toInt

/-- The versions of a consistent history are of times that are not negative. -/
theorem Recorded.nonNegative {S : List (String × FactRegistration)} {T : FactTables}
    (hT : Recorded S T) (hS : Consistent S) : NonNegative T := by
  intro v hv
  obtain ⟨a, ha, hstates⟩ := hT.states v hv
  rw [hstates.timestampMs, Machine.toInt_toInt64 (hS.bounded a ha)]
  exact Int.natCast_nonneg _

/-- The chain ascends in the starts of its entries. -/
theorem Chained.starts_ascend {T : FactTables} (hT : Chained T) (factKey entityId : String) :
    (T.timeline factKey entityId).Pairwise fun v w => v.entry.start ≤ w.entry.start := by
  refine (T.timeline_pairwise factKey entityId).imp_of_mem fun {v w} hv hw hvw => ?_
  have hkey : v.timestampMs.toInt ≤ w.timestampMs.toInt := by
    rcases Prod.Lex.toLex_lt_toLex.mp hvw with h | ⟨h, -⟩
    · exact le_of_lt h
    · exact le_of_eq h
  simpa [entry, hT.validFrom v (mem_timeline.mp hv).1, hT.validFrom w (mem_timeline.mp hw).1]
    using hkey

/-- Every version stops where the next one in its chain starts. -/
theorem Chained.columns {T : FactTables} (hT : Chained T) {factKey entityId : String}
    {before after : List FactVersion} {v : FactVersion}
    (hsplit : T.timeline factKey entityId = before ++ v :: after) :
    v.supersedes = before.getLast?.map FactVersion.memoryId ∧
      v.supersededBy = after.head?.map FactVersion.memoryId ∧
      v.validToMs = after.head?.map FactVersion.validFromMs := by
  have hlinked := hT.linked factKey entityId
  rw [hsplit] at hlinked
  obtain ⟨hprevious, hnext, hstop, -⟩ := hlinked.columns
  refine ⟨hprevious, hnext, ?_⟩
  have hinj : Function.Injective (Option.map Int64.toInt) :=
    Option.map_injective fun a b h => Int64.toInt_inj.mp h
  refine hinj (hstop.trans ?_)
  rw [Option.map_map]
  rfl

/-- On times that are not negative the two notions of being in force agree. -/
theorem Chained.inForce_iff {T : FactTables} (hT : Chained T) (hpos : NonNegative T)
    {factKey entityId : String} {v : FactVersion} (hv : v ∈ T.timeline factKey entityId)
    (p : UInt64) : v.entry.InForce (p.toNat : ℤ) ↔ v.InForce p := by
  -- The times are not negative, so they are the same in both widths.
  have hstart : ∀ w ∈ T.timeline factKey entityId,
      (w.validFromMs.toUInt64.toNat : ℤ) = w.validFromMs.toInt := by
    intro w hw
    have hw := (mem_timeline.mp hw).1
    refine toNat_toUInt64 ?_
    rw [hT.validFrom w hw]
    exact hpos w hw
  obtain ⟨before, after, hsplit⟩ := List.append_of_mem hv
  have hto := (hT.columns hsplit).2.2
  unfold Entry.InForce FactVersion.InForce
  refine and_congr ?_ ?_
  · rw [UInt64.le_iff_toNat_le]
    simp only [entry]
    rw [← hstart v hv]
    exact Int.ofNat_le
  · simp only [entry]
    -- The end of a version is the start of the next one.
    rw [hto]
    cases after with
    | nil => simp
    | cons w rest =>
      have hw : w ∈ T.timeline factKey entityId := by
        rw [hsplit]
        exact List.mem_append_right _ (List.mem_cons_of_mem _ List.mem_cons_self)
      simp only [List.head?_cons, Option.map_some, Option.mem_def, Option.some.injEq, forall_eq']
      rw [← hstart w hw, UInt64.lt_iff_toNat_lt]
      exact Int.ofNat_lt

/-- A version is not invalidated at an instant exactly when its entry is in force then. -/
theorem not_invalidatedAtTime (p : UInt64) (v : FactVersion) :
    (!invalidatedAtTime p v) = decide (v.entry.InForce p.toInt64.toInt) := by
  rw [Bool.eq_iff_iff, decide_eq_true_eq]
  unfold invalidatedAtTime Entry.InForce
  cases h : v.validToMs with
  | none => simp [entry, h, Int64.lt_iff_toInt_lt]
  | some validTo => simp [entry, h, Int64.lt_iff_toInt_lt, Int64.le_iff_toInt_le, and_comm]

/-- The versions in force at an instant: the last one that has started. -/
theorem Chained.filter_inForce {T : FactTables} (hT : Chained T) (hpos : NonNegative T)
    (factKey entityId : String) (p : UInt64) :
    (T.timeline factKey entityId).filter (fun v => v.InForce p) =
      ((T.timeline factKey entityId).filter fun v =>
        v.entry.start ≤ (p.toNat : ℤ)).getLast?.toList := by
  rw [← (hT.linked factKey entityId).filter_inForce (hT.starts_ascend factKey entityId)]
  refine List.filter_congr fun v hv => ?_
  rw [decide_eq_decide]
  exact (hT.inForce_iff hpos hv p).symm

/-- Where one version is in force, `fact_as_of` reports it. -/
theorem factAsOf_of_unique {T : FactTables} {factKey entityId : String} {p : UInt64}
    {v : FactVersion} (h : (T.timeline factKey entityId).filter (fun v => v.InForce p) = [v])
    (parentOf : String → Option String) :
    T.factAsOf parentOf entityId factKey p = some (T.historyEntry parentOf entityId factKey v) := by
  have hmem : ∀ w, w ∈ T.timeline factKey entityId ∧ w.InForce p ↔ w = v := by
    intro w
    rw [← List.mem_singleton, ← h, List.mem_filter, decide_eq_true_eq]
  -- The condition of the search reads back as being in force.
  have hcond : ∀ w, ((T.historyEntry parentOf entityId factKey w).validFromMs ≤ p &&
      (T.historyEntry parentOf entityId factKey w).validToMs.all fun validTo => p < validTo) =
        decide (w.InForce p) := by
    intro w
    rw [Bool.eq_iff_iff, Bool.and_eq_true, decide_eq_true_eq, decide_eq_true_eq]
    unfold historyEntry FactVersion.InForce
    simp [Option.all_eq_true]
  have hlisted : ∀ w, w ∈ orderBy (fun v : FactVersion => toLex (v.validFromMs.toInt, v.memoryId))
      (T.chain factKey entityId) ↔ w ∈ T.timeline factKey entityId := by
    intro w
    unfold timeline
    rw [mem_orderBy, mem_orderBy]
  unfold factAsOf factHistory
  obtain ⟨hv, hforce⟩ := (hmem v).mpr rfl
  obtain ⟨e, he⟩ : ∃ e, List.find? (fun e : FactHistoryEntry => e.validFromMs ≤ p &&
      e.validToMs.all fun validTo => p < validTo)
      ((orderBy (fun v : FactVersion => toLex (v.validFromMs.toInt, v.memoryId))
        (T.chain factKey entityId)).map (T.historyEntry parentOf entityId factKey)).reverse =
          some e := by
    refine Option.isSome_iff_exists.mp (List.find?_isSome.mpr ?_)
    refine ⟨_, List.mem_reverse.mpr (List.mem_map_of_mem ((hlisted v).mpr hv)), ?_⟩
    rw [hcond]
    exact decide_eq_true hforce
  rw [he]
  obtain ⟨w, hw, rfl⟩ := List.mem_map.mp (List.mem_reverse.mp (List.mem_of_find?_eq_some he))
  have hwforce := List.find?_some he
  rw [hcond, decide_eq_true_eq] at hwforce
  rw [(hmem w).mp ⟨(hlisted w).mp hw, hwforce⟩]

/-- A consistent history leaves every chain with exactly one current version, its last; with
versions that name their neighbours and stop where the next one starts; and from the first
version on with exactly one version in force, the one `fact_as_of` reports. -/
theorem registerBatches_chained (H : List FactBatch)
    (hH : Consistent (H.flatMap FactBatch.statements)) :
    ∃ T, registerBatches FactTables.empty H = .ok T ∧
      ∀ factKey entityId, T.timeline factKey entityId ≠ [] →
        (∃ last, (T.timeline factKey entityId).getLast? = some last ∧
          (T.timeline factKey entityId).filter (fun v => v.status = .current) = [last]) ∧
        (∀ before v after, T.timeline factKey entityId = before ++ v :: after →
          v.supersedes = before.getLast?.map FactVersion.memoryId ∧
            v.supersededBy = after.head?.map FactVersion.memoryId ∧
            v.validToMs = after.head?.map FactVersion.validFromMs) ∧
        ∀ p : UInt64, (∃ first ∈ (T.timeline factKey entityId).head?,
            first.validFromMs.toUInt64 ≤ p) →
          ∃ v, (T.timeline factKey entityId).filter (fun v => v.InForce p) = [v] ∧
            ∀ parentOf, T.factAsOf parentOf entityId factKey p =
              some (T.historyEntry parentOf entityId factKey v) := by
  obtain ⟨T, hrun, hT⟩ := registerBatches_recorded hH
  refine ⟨T, hrun, fun factKey entityId hversions => ⟨?_,
    fun before v after hsplit => hT.chained.columns hsplit, ?_⟩⟩
  -- The last version of a history is the only current one.
  · have hcurrent := hT.chained.filter_current factKey entityId
    rw [List.getLast?_eq_some_getLast hversions] at hcurrent ⊢
    exact ⟨_, rfl, hcurrent⟩
  rintro p ⟨first, hfirst, hstart⟩
  have hmem := List.mem_of_head? hfirst
  have hpos := hT.nonNegative hH
  -- The first version has started, so there is a last one that has.
  have hstarted : first.entry.start ≤ (p.toNat : ℤ) := by
    have hnonneg : 0 ≤ first.validFromMs.toInt := by
      rw [hT.chained.validFrom first (mem_timeline.mp hmem).1]
      exact hpos first (mem_timeline.mp hmem).1
    change first.validFromMs.toInt ≤ _
    rw [← toNat_toUInt64 hnonneg]
    exact Int.ofNat_le.mpr (UInt64.le_iff_toNat_le.mp hstart)
  have hne : ((T.timeline factKey entityId).filter fun v =>
      v.entry.start ≤ (p.toNat : ℤ)) ≠ [] :=
    List.ne_nil_of_mem (List.mem_filter.mpr ⟨hmem, decide_eq_true hstarted⟩)
  have hforce := hT.chained.filter_inForce hpos factKey entityId p
  rw [List.getLast?_eq_some_getLast hne] at hforce
  exact ⟨_, hforce, factAsOf_of_unique hforce⟩

/-- The theorem at a history with a late arrival and a restatement. -/
theorem registerBatches_chained_residence :
    ∃ T, registerBatches FactTables.empty
        [⟨"alice", [⟨"residence", 100, "m1", "alice", "lives_in", "Austin"⟩,
            ⟨"residence", 300, "m3", "alice", "lives_in", "Denver"⟩], 10⟩,
          ⟨"alice", [⟨"residence", 200, "m2", "alice", "lives_in", "Boston"⟩,
            ⟨"residence", 350, "m4", "alice", "lives_in", "denver."⟩], 11⟩] = .ok T ∧
      ∀ factKey entityId, T.timeline factKey entityId ≠ [] →
        (∃ last, (T.timeline factKey entityId).getLast? = some last ∧
          (T.timeline factKey entityId).filter (fun v => v.status = .current) = [last]) ∧
        (∀ before v after, T.timeline factKey entityId = before ++ v :: after →
          v.supersedes = before.getLast?.map FactVersion.memoryId ∧
            v.supersededBy = after.head?.map FactVersion.memoryId ∧
            v.validToMs = after.head?.map FactVersion.validFromMs) ∧
        ∀ p : UInt64, (∃ first ∈ (T.timeline factKey entityId).head?,
            first.validFromMs.toUInt64 ≤ p) →
          ∃ v, (T.timeline factKey entityId).filter (fun v => v.InForce p) = [v] ∧
            ∀ parentOf, T.factAsOf parentOf entityId factKey p =
              some (T.historyEntry parentOf entityId factKey v) :=
  registerBatches_chained _ ⟨by decide, by decide, by decide⟩

end Tellodb
