import Tellodb.Collections.Grouped
import Tellodb.Storage.Tenant
import Mathlib.Algebra.Order.Field.Rat
import Mathlib.Algebra.BigOperators.Group.List.Basic
import Mathlib.Data.UInt

/-!
# Aggregates of metrics

`aggregate_range` and `aggregate_bucketed` of `analytics.rs` over a table of metrics, with exact
values. The first one covers the rows from the start to the end. The second one counts the buckets
from the start of the bucket that the start is in, and it has that start as its lower bound too, so
rows before the range are in the first bucket; the buckets are the covered rows exactly if there are
none of them (`buckets_partition_iff`).

Timestamps are integers here: the rows that are selected are not before the aligned start, which is
not negative, so that nothing overflows. -/

namespace Tellodb

open Collections Relational

/-! ## The two queries -/

/-- `TemporalBucket` -/
inductive TemporalBucket
  | hour | day | week | month | year

/-- `TemporalBucket::duration_ms` -/
def TemporalBucket.durationMs : TemporalBucket → ℤ
  | hour => 3600000
  | day => 86400000
  | week => 604800000
  | month => 2592000000
  | year => 31536000000

/-- `MAX_BUCKETS` -/
def maxBuckets : Int64 := 10000

/-- `clamp_ms` -/
def clampMs (ms : UInt64) : ℤ := min (ms.toNat : ℤ) (2 ^ 63 - 1)

/-- `AggregateResult` -/
structure AggregateResult where
  sum : ℚ
  count : ℕ
  avg : ℚ
  min : ℚ
  max : ℚ
  stddev : ℚ
  deriving DecidableEq

/-- `BucketedAggregate` -/
structure BucketedAggregate where
  bucketStartMs : ℤ
  bucketEndMs : ℤ
  result : AggregateResult
  deriving DecidableEq

/-- What is aggregated: the metrics of an entity under a label, from the start to the end. -/
structure MetricRange where
  entityId : String
  label : String
  startMs : UInt64
  endMs : UInt64

/-- The rows of the entity under the label, up to the end. -/
def MetricRange.rowsFrom (q : MetricRange) (lower : ℤ) (metrics : Table MetricRow.primaryKey) :
    List MetricRow :=
  metrics.rows.filter fun r => r.entityId = q.entityId ∧ r.label = q.label ∧
    lower ≤ r.timestampMs.toInt ∧ r.timestampMs.toInt ≤ clampMs q.endMs

section

-- `f64::sqrt`
variable (sqrt : ℚ → ℚ)

/-- `aggregate_from`, of the aggregates `SUM(value)`, `COUNT(*)`, `MIN(value)`, `MAX(value)` and
`SUM(value * value)` of some rows, those of no rows being zero. -/
def aggregateFrom (rows : List MetricRow) : AggregateResult :=
  let values := rows.map MetricRow.value
  let sum := values.sum
  let n := rows.length
  let sumSq := (values.map fun value => value * value).sum
  let avg := if n > 0 then sum / n else 0
  let variance := if n > 1 then max (sumSq / n - avg * avg) 0 else 0
  { sum := sum
    count := n
    avg := avg
    min := values.min?.getD 0
    max := values.max?.getD 0
    stddev := sqrt variance }

/-- `aggregate_range` -/
def aggregateRange (metrics : Table MetricRow.primaryKey) (q : MetricRange) : AggregateResult :=
  aggregateFrom sqrt (q.rowsFrom (clampMs q.startMs) metrics)

/-- `aligned_start` -/
def alignedStart (q : MetricRange) (bucket : TemporalBucket) : ℤ :=
  clampMs q.startMs / bucket.durationMs * bucket.durationMs

/-- `(timestamp_ms - ?3) / ?5 AS bucket` -/
def bucketOf (q : MetricRange) (bucket : TemporalBucket) (r : MetricRow) : ℤ :=
  (r.timestampMs.toInt - alignedStart q bucket) / bucket.durationMs

/-- The rows of `aggregate_bucketed`: `GROUP BY bucket ORDER BY bucket LIMIT ?6`. -/
def bucketRows (metrics : Table MetricRow.primaryKey) (q : MetricRange) (bucket : TemporalBucket) :
    List (MetricRow × List MetricRow) :=
  sqlLimit maxBuckets (orderBy (fun g => bucketOf q bucket g.1)
    (grouped (bucketOf q bucket) (q.rowsFrom (alignedStart q bucket) metrics)))

/-- The aggregate of a bucket. -/
def bucketAggregate (q : MetricRange) (bucket : TemporalBucket) (g : MetricRow × List MetricRow) :
    BucketedAggregate :=
  let start := alignedStart q bucket + bucketOf q bucket g.1 * bucket.durationMs
  { bucketStartMs := start
    bucketEndMs := start + bucket.durationMs
    result := aggregateFrom sqrt (g.1 :: g.2) }

/-- `aggregate_bucketed` -/
def aggregateBucketed (metrics : Table MetricRow.primaryKey) (q : MetricRange)
    (bucket : TemporalBucket) : List BucketedAggregate :=
  (bucketRows metrics q bucket).map (bucketAggregate sqrt q bucket)

/-! ## Buckets of the covered rows -/

/-- The buckets partition the rows that `aggregate_range` covers. -/
structure BucketsPartition (metrics : Table MetricRow.primaryKey) (q : MetricRange)
    (bucket : TemporalBucket) : Prop where
  rows : ((bucketRows metrics q bucket).flatMap fun g => g.1 :: g.2).Perm
    (q.rowsFrom (clampMs q.startMs) metrics)
  counts : ((aggregateBucketed sqrt metrics q bucket).map fun b => b.result.count).sum =
    (aggregateRange sqrt metrics q).count
  sums : ((aggregateBucketed sqrt metrics q bucket).map fun b => b.result.sum).sum =
    (aggregateRange sqrt metrics q).sum
  within : ∀ g ∈ bucketRows metrics q bucket, ∀ r ∈ g.1 :: g.2,
    ((bucketAggregate sqrt q bucket g).bucketStartMs ≤ r.timestampMs.toInt ∧
      r.timestampMs.toInt < (bucketAggregate sqrt q bucket g).bucketEndMs) ∧
    (q.startMs.toNat : ℤ) ≤ r.timestampMs.toInt ∧ r.timestampMs.toInt ≤ q.endMs.toNat

end

variable {metrics : Table MetricRow.primaryKey} {q : MetricRange} {bucket : TemporalBucket}

/-- A bucket lasts. -/
theorem TemporalBucket.durationMs_pos (bucket : TemporalBucket) : 0 < bucket.durationMs := by
  cases bucket <;> decide

/-- The rows from a bound on are those of the entity and label between it and the end. -/
theorem MetricRange.mem_rowsFrom {lower : ℤ} {r : MetricRow} :
    r ∈ q.rowsFrom lower metrics ↔ r ∈ metrics.rows ∧ r.entityId = q.entityId ∧
      r.label = q.label ∧ lower ≤ r.timestampMs.toInt ∧
      r.timestampMs.toInt ≤ clampMs q.endMs := by
  unfold MetricRange.rowsFrom
  rw [List.mem_filter, decide_eq_true_eq]

/-- Clamping does not raise a time. -/
theorem clampMs_le (ms : UInt64) : clampMs ms ≤ ms.toNat := min_le_left _ _

/-- The aligned start is in the bucket before the start. -/
theorem alignedStart_spec (q : MetricRange) (bucket : TemporalBucket) :
    alignedStart q bucket ≤ clampMs q.startMs ∧
      clampMs q.startMs < alignedStart q bucket + bucket.durationMs := by
  have hpos := bucket.durationMs_pos
  have hdiv := Int.emod_add_mul_ediv (clampMs q.startMs) bucket.durationMs
  have hnonneg := Int.emod_nonneg (clampMs q.startMs) hpos.ne'
  have hlt := Int.emod_lt_of_pos (clampMs q.startMs) hpos
  unfold alignedStart
  rw [mul_comm]
  omega

/-- A row is in the window of its bucket. -/
theorem bucketOf_spec (q : MetricRange) (bucket : TemporalBucket) (r : MetricRow) :
    alignedStart q bucket + bucketOf q bucket r * bucket.durationMs ≤ r.timestampMs.toInt ∧
      r.timestampMs.toInt <
        alignedStart q bucket + bucketOf q bucket r * bucket.durationMs + bucket.durationMs := by
  have hpos := bucket.durationMs_pos
  have hdiv := Int.emod_add_mul_ediv (r.timestampMs.toInt - alignedStart q bucket) bucket.durationMs
  have hnonneg := Int.emod_nonneg (r.timestampMs.toInt - alignedStart q bucket) hpos.ne'
  have hlt := Int.emod_lt_of_pos (r.timestampMs.toInt - alignedStart q bucket) hpos
  unfold bucketOf
  rw [mul_comm]
  omega

/-- A row before the start that is selected is in the first bucket. -/
theorem bucketOf_eq_zero {r : MetricRow} (hlower : alignedStart q bucket ≤ r.timestampMs.toInt)
    (hstart : r.timestampMs.toInt < q.startMs.toNat) : bucketOf q bucket r = 0 := by
  have hspec := alignedStart_spec q bucket
  have hmax := r.timestampMs.toInt_lt
  have hclamp : r.timestampMs.toInt ≤ clampMs q.startMs := le_min hstart.le (by omega)
  exact Int.ediv_eq_zero_of_lt (by omega) (by omega)

/-- A row behind the aligned start falls into a bucket. -/
theorem bucketOf_nonneg {r : MetricRow} (hlower : alignedStart q bucket ≤ r.timestampMs.toInt) :
    0 ≤ bucketOf q bucket r :=
  Int.ediv_nonneg (by omega) bucket.durationMs_pos.le

/-- The groups have distinct buckets. -/
theorem keyed_grouped (rows : List MetricRow) :
    Keyed (fun g : MetricRow × List MetricRow => bucketOf q bucket g.1)
      (grouped (bucketOf q bucket) rows) :=
  keys_nodup (bucketOf q bucket) rows

/-- The first bucket is not cut off. -/
theorem mem_bucketRows {r : MetricRow} (hr : r ∈ q.rowsFrom (alignedStart q bucket) metrics)
    (hzero : bucketOf q bucket r = 0) :
    ∃ g ∈ bucketRows metrics q bucket, r ∈ g.1 :: g.2 := by
  obtain ⟨g, hg, hkey⟩ := exists_group (bucketOf q bucket) hr
  refine ⟨g, ?_, ?_⟩
  · unfold bucketRows sqlLimit
    rw [if_neg (by decide), (keyed_grouped _).mem_take_orderBy_iff hg,
      List.filter_eq_nil_iff.mpr]
    · decide
    · intro h hh hlt
      have hfirst := (heads_sublist (bucketOf q bucket) _).subset (List.mem_map_of_mem hh)
      have hnonneg := bucketOf_nonneg (MetricRange.mem_rowsFrom.mp hfirst).2.2.2.1
      have hbefore : bucketOf q bucket h.1 < bucketOf q bucket g.1 := of_decide_eq_true hlt
      omega
  · rw [cons_of_mem_grouped (bucketOf q bucket) hg]
    exact List.mem_filter.mpr ⟨hr, decide_eq_true hkey.symm⟩

/-- The windows of the buckets have their rows. -/
theorem window_of_mem {g : MetricRow × List MetricRow} (hg : g ∈ bucketRows metrics q bucket)
    {r : MetricRow} (hr : r ∈ g.1 :: g.2) (sqrt : ℚ → ℚ) :
    ((bucketAggregate sqrt q bucket g).bucketStartMs ≤ r.timestampMs.toInt ∧
      r.timestampMs.toInt < (bucketAggregate sqrt q bucket g).bucketEndMs) ∧
    r ∈ q.rowsFrom (alignedStart q bucket) metrics := by
  have hgroup := (mem_orderBy _ _ _).mp (mem_of_mem_sqlLimit hg)
  rw [cons_of_mem_grouped (bucketOf q bucket) hgroup] at hr
  obtain ⟨hrow, hkey⟩ := List.mem_filter.mp hr
  have hspec := bucketOf_spec q bucket r
  rw [of_decide_eq_true hkey] at hspec
  exact ⟨hspec, hrow⟩

/-- If the buckets are not too many, they have all rows that are selected. -/
theorem perm_bucketRows
    (hfew : ((q.rowsFrom (alignedStart q bucket) metrics).map (bucketOf q bucket)).dedup.length ≤
      maxBuckets.toInt.toNat) :
    ((bucketRows metrics q bucket).flatMap fun g => g.1 :: g.2).Perm
      (q.rowsFrom (alignedStart q bucket) metrics) := by
  unfold bucketRows sqlLimit
  rw [if_neg (by decide), List.take_of_length_le]
  · exact ((orderBy_perm _ _).flatMap_right _).trans (perm_flatMap_grouped _ _)
  · rw [(orderBy_perm _ _).length_eq, length_grouped]
    exact hfew

/-- The counts and the sums of the buckets are those of all their rows. -/
theorem sums_aggregateBucketed (sqrt : ℚ → ℚ) (metrics : Table MetricRow.primaryKey)
    (q : MetricRange) (bucket : TemporalBucket) :
    ((aggregateBucketed sqrt metrics q bucket).map fun b => b.result.count).sum =
        ((bucketRows metrics q bucket).flatMap fun g => g.1 :: g.2).length ∧
      ((aggregateBucketed sqrt metrics q bucket).map fun b => b.result.sum).sum =
        (((bucketRows metrics q bucket).flatMap fun g => g.1 :: g.2).map MetricRow.value).sum := by
  unfold aggregateBucketed
  constructor
  · rw [List.map_map, List.length_flatMap]
    rfl
  · rw [List.map_map, List.map_flatMap, List.flatMap_def, List.sum_flatten, List.map_map]
    rfl

/-- For every table and every range whose rows are in 10000 buckets at most: the buckets partition
the rows that `aggregate_range` covers, their counts and sums add up to its count and sum, and their
rows are in their windows and in the range, exactly if no row of the entity under the label is
before the start and in the bucket of the start. -/
theorem buckets_partition_iff (sqrt : ℚ → ℚ) (metrics : Table MetricRow.primaryKey)
    (q : MetricRange) (bucket : TemporalBucket)
    (hfew : ((q.rowsFrom (clampMs q.startMs) metrics).map (bucketOf q bucket)).dedup.length ≤
      maxBuckets.toInt.toNat) :
    BucketsPartition sqrt metrics q bucket ↔
      ∀ r ∈ q.rowsFrom (alignedStart q bucket) metrics,
        (q.startMs.toNat : ℤ) ≤ r.timestampMs.toInt := by
  constructor
  -- A row before the start would fall into the first bucket, outside of the window.
  · intro h r hr
    by_contra hbefore
    have hlower := (MetricRange.mem_rowsFrom.mp hr).2.2.2.1
    obtain ⟨g, hg, hrow⟩ := mem_bucketRows hr (bucketOf_eq_zero hlower (by omega))
    exact hbefore (h.within g hg r hrow).2.1
  · intro h
    -- No row is between the aligned start and the start.
    have hsame : q.rowsFrom (clampMs q.startMs) metrics =
        q.rowsFrom (alignedStart q bucket) metrics := by
      unfold MetricRange.rowsFrom
      refine List.filter_congr fun r hr => decide_eq_decide.mpr ?_
      have hspec := alignedStart_spec q bucket
      have hclamp := clampMs_le q.startMs
      constructor
      · rintro ⟨hentity, hlabel, hlower, hupper⟩
        exact ⟨hentity, hlabel, by omega, hupper⟩
      · rintro ⟨hentity, hlabel, hlower, hupper⟩
        have hstart := h r (MetricRange.mem_rowsFrom.mpr ⟨hr, hentity, hlabel, hlower, hupper⟩)
        exact ⟨hentity, hlabel, by omega, hupper⟩
    rw [hsame] at hfew
    have hperm := perm_bucketRows hfew
    obtain ⟨hcounts, hsums⟩ := sums_aggregateBucketed sqrt metrics q bucket
    refine ⟨by rw [hsame]; exact hperm, ?_, ?_, fun g hg r hr => ?_⟩
    · rw [hcounts, hperm.length_eq, ← hsame]
      rfl
    · rw [hsums, (hperm.map _).sum_eq, ← hsame]
      rfl
    -- The row is within the bucket and within the range.
    · obtain ⟨hwindow, hrow⟩ := window_of_mem hg hr sqrt
      have hupper := (MetricRange.mem_rowsFrom.mp hrow).2.2.2.2
      exact ⟨hwindow, h r hrow, hupper.trans (clampMs_le _)⟩

section

/-- A metric of one hour after the epoch, and one of a day after it. -/
private def spent : Table MetricRow.primaryKey :=
  ((Table.empty _).insertOrIgnore
    ⟨"m1", 0, "u", 3600000, "money", 10, "USD", "$10"⟩).insertOrIgnore
    ⟨"m2", 0, "u", 86400000, "money", 5, "USD", "$5"⟩

/-- The theorem for a range that starts at a day. -/
theorem buckets_partition_iff_aligned :
    BucketsPartition id spent ⟨"u", "money", 86400000, 2 ^ 64 - 1⟩ .day :=
  (buckets_partition_iff id spent ⟨"u", "money", 86400000, 2 ^ 64 - 1⟩ .day
    (by decide +kernel)).mpr (by decide +kernel)

/-- From two hours after the epoch on there is one metric, and the buckets of the days have two. -/
theorem buckets_outside :
    (aggregateRange id spent ⟨"u", "money", 7200000, 2 ^ 64 - 1⟩).count = 1 ∧
      (aggregateBucketed id spent ⟨"u", "money", 7200000, 2 ^ 64 - 1⟩ .day).map
          (fun b => (b.bucketStartMs, b.result.count)) = [(0, 1), (86400000, 1)] ∧
      ¬ BucketsPartition id spent ⟨"u", "money", 7200000, 2 ^ 64 - 1⟩ .day := by
  refine ⟨by decide +kernel, by decide +kernel, fun h => ?_⟩
  have hcounts := h.counts
  revert hcounts
  decide +kernel

end

end Tellodb
