import Tellodb.Collections.Words
import Tellodb.Embedding.Observations
import Tellodb.Expansion.Payloads

/-!
# Metrics of the memories as sent

`execute_ingest_pipeline` of `api/handlers/ingest.rs`, from the payloads of a request to the store,
with the metrics that are extracted from them. These come from the payloads as they are sent, and
not from what is stored of them: chunks and companions have no metrics of their own, and neither
have synthetic queries. A memory that is cut into chunks has metrics and is not stored under its
identifier (`metrics_of_chunks`). What holds of each identifier is `metrics_as_sent`. -/

namespace Tellodb

open Relational Collections

/-! ## The pipeline -/

/-- `ExtractedMetric` -/
structure ExtractedMetric where
  label : String
  value : ℚ
  unit : String
  sourceText : String
  deriving DecidableEq

/-- A server, as far as it stores the memories of a request and their metrics. -/
structure IngestServer {γ : Type} (V : Type) (H : Hnsw γ) extends ObservationRules V H where
  mining : MiningRules
  enabled : Feature → Bool
  /-- `Feature::Metrics` -/
  metrics : Bool
  /-- `MetricExtractor::extract` -/
  extract : String → List ExtractedMetric

/-- A request, with what is around when it is handled. -/
structure IngestRequest {γ : Type} (H : Hnsw γ) where
  payloads : List IngestPayload
  order : HashOrder
  clock : IngestClock
  /-- The other records that `build_artifacts` makes of the batch. -/
  artifacts : IngestBatches
  faults : VectorFaults
  index : VectorIndex H

/-- `metric_sources` -/
def metricSources (enabled : Bool) (payloads : List IngestPayload) : List IngestPayload :=
  payloads.filter fun p => p.kind ≠ some "synthetic_query" ∧ enabled = true

/-- A metric of a payload. -/
def metricOf (p : IngestPayload) (metric : ExtractedMetric) : IngestMetric where
  entityId := p.entityId
  memoryId := p.memoryId
  timestamp := p.timestamp
  label := metric.label
  value := metric.value
  unit := metric.unit
  sourceText := metric.sourceText

/-- A store with the payloads of the requests that were committed, in their order. -/
abbrev Ingested := TenantStore × List IngestPayload

namespace IngestServer

variable {γ V : Type} {H : Hnsw γ} (server : IngestServer V H)

/-- The payloads with their chunks and companions. -/
def expanded (payloads : List IngestPayload) : List IngestPayload :=
  IngestPayload.expandPayloads server.mining server.enabled payloads

/-- The metrics of a payload. -/
def metricsOf (p : IngestPayload) : List IngestMetric :=
  (server.extract p.textualContent).map (metricOf p)

/-- The batch that is committed. -/
def batchOf (q : IngestRequest H) (records : List PreparedRecord) : IngestBatches :=
  { q.artifacts with
    observations := observationsOf records
    metricMemoryIds := (metricSources server.metrics q.payloads).map IngestPayload.memoryId
    metricBatch := (metricSources server.metrics q.payloads).flatMap server.metricsOf }

variable [LinearOrder V]

/-- `execute_ingest_pipeline`, with what follows the commit. -/
def ingest (S : TenantStore) (q : IngestRequest H) : Except String TenantStore :=
  if q.payloads.isEmpty then .ok S
  else match prepareRecords server.toObservationRules q.order S q.index
      (server.expanded q.payloads) with
    | .error e => .error e
    | .ok prepared => match S.commitIngest server.cosineSimilarity q.order q.clock
        (server.batchOf q prepared.1) with
      | .error e => .error e
      | .ok committed => .ok (committed.1.indexCommitted q.order q.faults committed.2)

/-- A request that fails changes nothing. -/
def step (s : Ingested) (q : IngestRequest H) : Ingested :=
  match server.ingest s.1 q with
  | .error _ => s
  | .ok S => (S, s.2 ++ q.payloads)

end IngestServer

/-! ## What is stored and what is extracted -/

/-- The metrics of an identifier. -/
def TenantStore.metricsUnder (S : TenantStore) (memoryId : String) : List MetricRow :=
  S.metrics.rows.filter fun r => r.memoryId = memoryId

/-- The text of a memory. -/
def TenantStore.contentOf (S : TenantStore) (memoryId : String) : Option String :=
  (S.memories.find? memoryId).map MemoryRow.content

/-- The row of a metric. -/
def metricRow (metric : IngestMetric) (ordinal : ℕ) : MetricRow where
  memoryId := metric.memoryId
  ordinal := ordinal
  entityId := metric.entityId
  timestampMs := metric.timestamp.toInt64
  label := metric.label
  value := metric.value
  unit := metric.unit
  sourceText := metric.sourceText

/-- What a row has of a metric. -/
def MetricRow.extracted (r : MetricRow) : ExtractedMetric :=
  ⟨r.label, r.value, r.unit, r.sourceText⟩

namespace IngestServer

variable {γ V : Type} {H : Hnsw γ} (server : IngestServer V H)

/-- The metrics of a payload, as rows. -/
def metricRowsOf (p : IngestPayload) : List MetricRow :=
  (server.metricsOf p).zipIdx.map fun x => metricRow x.1 x.2

/-- The payload that was sent last under an identifier, synthetic queries apart. -/
def lastSent (sent : List IngestPayload) (memoryId : String) : Option IngestPayload :=
  ((metricSources server.metrics sent).filter fun p => p.memoryId = memoryId).getLast?

/-- What was to be stored last under an identifier: a payload, a chunk of one or a companion. -/
def lastWritten (sent : List IngestPayload) (memoryId : String) : Option IngestPayload :=
  ((server.expanded sent).filter fun p => p.memoryId = memoryId).getLast?

/-- The metrics of each identifier are those of the text that is stored under it. -/
def MetricsCurrent (S : TenantStore) : Prop :=
  ∀ memoryId, (S.metricsUnder memoryId).map MetricRow.extracted =
    (S.contentOf memoryId).elim [] server.extract

/-- The payloads of a request that are not skipped as sent again. -/
def kept (S : TenantStore) (payloads : List IngestPayload) : List IngestPayload :=
  retain (keepFlags server.toObservationRules S (server.expanded payloads))
    (server.expanded payloads)

variable [LinearOrder V]

/-- A request sends and writes no identifier twice, has each under the entity that it is stored
with, and no payload of it is dropped as a duplicate. -/
structure Plain (s : Ingested) (q : IngestRequest H) : Prop where
  sent : (q.payloads.map IngestPayload.memoryId).Nodup
  written : ((server.expanded q.payloads).map IngestPayload.memoryId).Nodup
  entities : ∀ p ∈ server.expanded q.payloads, ∀ r ∈ s.1.memories.rows,
    r.memoryId = p.memoryId → r.entityId = p.entityId
  kept : ∀ records o, prepareRecords server.toObservationRules q.order s.1 q.index
    (server.expanded q.payloads) = .ok (records, o) →
      records.length = (server.kept s.1 q.payloads).length

end IngestServer

/-! ## Rows of metrics -/

/-- Each metric of a list is numbered after those of its memory before it. -/
theorem metricRows_concat (metrics : List IngestMetric) (metric : IngestMetric) :
    metricRows (metrics ++ [metric]) = metricRows metrics ++
      [metricRow metric (metrics.filter fun m => m.memoryId = metric.memoryId).length] := by
  unfold metricRows
  rw [List.zipIdx_append, List.map_append]
  refine congrArg₂ _ ?_ ?_
  · refine List.map_congr_left fun x hx => ?_
    have hlt : x.2 ≤ metrics.length := by
      have := List.snd_lt_of_mem_zipIdx hx
      omega
    dsimp only
    rw [List.take_append_of_le_length hlt]
  · simp [metricRow]

/-- The rows of an identifier are those of its metrics. -/
theorem filter_metricRows (metrics : List IngestMetric) (memoryId : String) :
    ((metricRows metrics).filter fun r => r.memoryId = memoryId) =
      ((metrics.filter fun m => m.memoryId = memoryId).zipIdx).map fun x => metricRow x.1 x.2 := by
  induction metrics using List.reverseRecOn with
  | nil => rfl
  | append_singleton metrics metric ih =>
    rw [metricRows_concat, List.filter_append, List.filter_append, ih]
    by_cases hid : metric.memoryId = memoryId
    · have hrow : ∀ n, (metricRow metric n).memoryId = memoryId := fun _ => hid
      rw [List.filter_cons_of_pos (by simp [hrow]), List.filter_cons_of_pos (by simp [hid]),
        List.filter_nil, List.filter_nil, List.zipIdx_append, List.map_append, hid]
      simp
    · have hrow : ∀ n, (metricRow metric n).memoryId ≠ memoryId := fun _ => hid
      rw [List.filter_cons_of_neg (by simp [hrow]), List.filter_cons_of_neg (by simp [hid])]
      simp

/-- Of elements with distinct keys there is one of a key at most. -/
theorem filter_eq_toList {α κ : Type} [DecidableEq κ] {key : α → κ} {l : List α}
    (h : (l.map key).Nodup) (k : κ) :
    (l.filter fun a => key a = k) = ((l.filter fun a => key a = k).getLast?).toList := by
  have hsame : ∀ a ∈ l.filter fun a => key a = k, ∀ b ∈ l.filter fun a => key a = k, a = b := by
    intro a ha b hb
    obtain ⟨ha, hka⟩ := List.mem_filter.mp ha
    obtain ⟨hb, hkb⟩ := List.mem_filter.mp hb
    exact List.inj_on_of_nodup_map h ha hb
      ((of_decide_eq_true hka).trans (of_decide_eq_true hkb).symm)
  have hnodup : (l.filter fun a => key a = k).Nodup := (List.Nodup.of_map _ h).filter _
  revert hsame hnodup
  generalize (l.filter fun a => key a = k) = found
  intro hsame hnodup
  cases found with
  | nil => rfl
  | cons a rest =>
    cases rest with
    | nil => rfl
    | cons b rest =>
      have hab : a = b := hsame a List.mem_cons_self b (List.mem_cons_of_mem _ List.mem_cons_self)
      exact absurd (hab ▸ List.mem_cons_self) (List.nodup_cons.mp hnodup).1

/-! ## One request -/

section

variable {γ V : Type} {H : Hnsw γ} {server : IngestServer V H} {S S' : TenantStore}

/-- The metrics of a batch that are of an identifier. -/
theorem filter_flatMap_metricsOf (sources : List IngestPayload) (memoryId : String) :
    ((sources.flatMap server.metricsOf).filter fun m => m.memoryId = memoryId) =
      (sources.filter fun p => p.memoryId = memoryId).flatMap server.metricsOf := by
  induction sources with
  | nil => rfl
  | cons p sources ih =>
    rw [List.flatMap_cons, List.filter_append, ih]
    by_cases hid : p.memoryId = memoryId
    · rw [List.filter_cons_of_pos (by simp [hid]), List.flatMap_cons, List.filter_eq_self.mpr]
      intro m hm
      obtain ⟨metric, -, rfl⟩ := List.mem_map.mp hm
      exact decide_eq_true hid
    · rw [List.filter_cons_of_neg (by simp [hid]), List.filter_eq_nil_iff.mpr, List.nil_append]
      intro m hm
      obtain ⟨metric, -, rfl⟩ := List.mem_map.mp hm
      exact fun h => hid (of_decide_eq_true h)

/-- After a commit, the metrics of an identifier are those of the payload that is sent under it, or
those from before. -/
theorem metricsUnder_commitIngest {cosineSimilarity : List ℚ → List ℚ → ℚ} {q : IngestRequest H}
    {records : List PreparedRecord} {outcome : CommitOutcome}
    (h : S.commitIngest cosineSimilarity q.order q.clock (server.batchOf q records) =
      .ok (S', outcome)) (hsent : (q.payloads.map IngestPayload.memoryId).Nodup)
    (memoryId : String) :
    S'.metricsUnder memoryId =
      (server.lastSent q.payloads memoryId).elim (S.metricsUnder memoryId)
        server.metricRowsOf := by
  have hnodup : ((metricSources server.metrics q.payloads).map IngestPayload.memoryId).Nodup :=
    hsent.sublist (List.filter_sublist.map _)
  have hrows := rows_foldlM_insertMetric (commitIngest_metrics h)
  -- The old rows of a memory go if it is of the request.
  have hold : ((S.metrics.deleteWhere fun row => row.memoryId ∈
      (server.batchOf q records).metricMemoryIds).rows.filter fun r => r.memoryId = memoryId) =
        if memoryId ∈ (server.batchOf q records).metricMemoryIds then []
        else S.metricsUnder memoryId := by
    unfold TenantStore.metricsUnder Table.deleteWhere
    dsimp only
    rw [List.filter_filter]
    split
    · rename_i hmem
      refine List.filter_eq_nil_iff.mpr fun r _ hr => ?_
      obtain ⟨hid, hkept⟩ := Bool.and_eq_true_iff.mp hr
      rw [of_decide_eq_true hid] at hkept
      simp only [hmem, decide_true, Bool.not_true, Bool.false_eq_true] at hkept
    · rename_i hmem
      refine List.filter_congr fun r _ => ?_
      by_cases hid : r.memoryId = memoryId
      · rw [hid]
        simpa using hmem
      · simp [hid]
  -- The new rows are those of its payload.
  have hnew : ((metricRows (server.batchOf q records).metricBatch).filter
      fun r => r.memoryId = memoryId) =
        (((metricSources server.metrics q.payloads).filter
          fun p => p.memoryId = memoryId).flatMap server.metricsOf).zipIdx.map
            fun x => metricRow x.1 x.2 := by
    rw [filter_metricRows]
    exact congrArg (fun l => (List.zipIdx l).map fun x => metricRow x.1 x.2)
      (filter_flatMap_metricsOf _ _)
  unfold TenantStore.metricsUnder
  rw [hrows, List.filter_append, hold, hnew, filter_eq_toList hnodup memoryId]
  cases hlast : ((metricSources server.metrics q.payloads).filter
      fun p => p.memoryId = memoryId).getLast? with
  | none =>
    have hnone : memoryId ∉ (server.batchOf q records).metricMemoryIds := by
      intro hmem
      obtain ⟨p, hp, hid⟩ := List.mem_map.mp hmem
      rw [List.getLast?_eq_none_iff, List.filter_eq_nil_iff] at hlast
      exact hlast p hp (decide_eq_true hid)
    -- The request says nothing about the memory.
    rw [if_neg hnone, show server.lastSent q.payloads memoryId = none from hlast]
    exact List.append_nil _
  | some p =>
    obtain ⟨hp, hid⟩ := List.mem_filter.mp (List.mem_of_getLast? hlast)
    have hmem : memoryId ∈ (server.batchOf q records).metricMemoryIds :=
      List.mem_map.mpr ⟨p, hp, of_decide_eq_true hid⟩
    -- It says what its metrics are.
    rw [if_pos hmem, show server.lastSent q.payloads memoryId = some p from hlast]
    simp [IngestServer.metricRowsOf]

/-- The text of a memory after its marks are set or cleared. -/
theorem contentOf_of_unmarked
    (h : S'.memories.rows.map unmarked = S.memories.rows.map unmarked) (memoryId : String) :
    S'.contentOf memoryId = S.contentOf memoryId :=
  column_of_unmarked (fun _ => rfl) h memoryId

/-- After a commit, the text of an identifier is that of its last memory in the batch, or the one
from before. -/
theorem contentOf_commitIngest {cosineSimilarity : List ℚ → List ℚ → ℚ} {order : HashOrder}
    {clock : IngestClock} {b : IngestBatches} {outcome : CommitOutcome}
    (h : S.commitIngest cosineSimilarity order clock b = .ok (S', outcome)) (memoryId : String) :
    S'.contentOf memoryId = (lastItem b.observations memoryId).elim (S.contentOf memoryId)
      fun item => some item.2.2.textualContent :=
  column_commitIngest (fun _ => rfl) (fun _ _ => rfl) h memoryId

/-- A text with its entity and its kind has one hash. -/
theorem text_of_contentHash {sha256 : String → String} (hsha : Function.Injective sha256)
    {text text' entityId : String} {kind kind' : MemoryKind}
    (h : contentHash sha256 text entityId kind = contentHash sha256 text' entityId kind') :
    text = text' := by
  have hkind : ∀ kind : MemoryKind, ':' ∉ kind.asStr.toList.reverse := by
    intro kind
    cases kind <;> decide
  have hlist : ∀ (text : String) (kind : MemoryKind),
      (text ++ "::" ++ entityId ++ "::" ++ kind.asStr).toList.reverse =
        kind.asStr.toList.reverse ++ ':' :: ':' :: (text ++ "::" ++ entityId).toList.reverse := by
    intro text kind
    simp
  have hreverse := congrArg (fun s => s.toList.reverse) (hsha h)
  rw [hlist, hlist] at hreverse
  obtain ⟨-, hrest⟩ := append_cons_inj_of_end (hkind kind) (hkind kind') hreverse
  have hfront := List.reverse_injective (List.cons.inj hrest).2
  rw [String.toList_append, String.toList_append, String.toList_append, String.toList_append] at hfront
  exact String.toList_injective (List.append_cancel_right (List.append_cancel_right hfront))

/-! ## Records and payloads -/

/-- What is sent last is sent last in the last request that has it. -/
theorem lastSent_append (sent more : List IngestPayload) (memoryId : String) :
    server.lastSent (sent ++ more) memoryId =
      (server.lastSent more memoryId).or (server.lastSent sent memoryId) := by
  unfold IngestServer.lastSent metricSources
  rw [List.filter_append, List.filter_append, List.getLast?_append]

/-- The last write of a memory is in the later payloads, if one of them is about it. -/
theorem lastWritten_append (sent more : List IngestPayload) (memoryId : String) :
    server.lastWritten (sent ++ more) memoryId =
      (server.lastWritten more memoryId).or (server.lastWritten sent memoryId) := by
  unfold IngestServer.lastWritten IngestServer.expanded IngestPayload.expandPayloads
  rw [List.flatMap_append, List.filter_append, List.getLast?_append]

section

variable [LinearOrder V] {q : IngestRequest H} {records : List PreparedRecord}
  {o : ObservationState H} {memoryId : String}

/-- A record that is committed last under an identifier is that of a payload that is kept. -/
theorem exists_of_lastItem {item : UInt64 × String × AgentObservation}
    (h : prepareRecords server.toObservationRules q.order S q.index (server.expanded q.payloads) =
      .ok (records, o)) (hlast : lastItem (observationsOf records) memoryId = some item) :
    ∃ p ∈ server.kept S q.payloads, p.memoryId = memoryId ∧
      item.2.2 = observation server.toObservationRules p item.2.2.embedding := by
  obtain ⟨hitem, hid⟩ := mem_of_lastItem hlast
  obtain ⟨r, hr, rfl⟩ := List.mem_map.mp hitem
  obtain ⟨rows, hsub, hrows⟩ := areOf_prepareRecords h
  obtain ⟨x, hx, hof⟩ := exists_of_forall₂ hrows hr
  have hmem := hsub.subset hx
  rw [← zip_retain (length_recordTexts (R := server.toObservationRules) q.order S
    (server.expanded q.payloads)).symm] at hmem
  refine ⟨x.1, (List.of_mem_zip hmem).1, ?_, hof.obs⟩
  rw [← hid]
  dsimp only
  rw [hof.payload, memoryId_withFactKey]

/-- If no payload is dropped as a duplicate, each that is kept is committed. -/
theorem isSome_lastItem
    (h : prepareRecords server.toObservationRules q.order S q.index (server.expanded q.payloads) =
      .ok (records, o)) (hlength : records.length = (server.kept S q.payloads).length)
    {p : IngestPayload} (hp : p ∈ server.kept S q.payloads) :
    (lastItem (observationsOf records) p.memoryId).isSome = true := by
  have htexts := (length_recordTexts (R := server.toObservationRules) q.order S
    (server.expanded q.payloads)).symm
  obtain ⟨rows, hsub, hrows⟩ := areOf_prepareRecords h
  rw [← zip_retain htexts] at hsub
  have hlengths := length_retain
    (keepFlags server.toObservationRules S (server.expanded q.payloads)) htexts
  have hall := hsub.eq_of_length (by
    rw [← hrows.length_eq, hlength, List.length_zip, ← hlengths, Nat.min_self]
    rfl)
  have hfirst : rows.map Prod.fst = server.kept S q.payloads := by
    rw [hall, List.map_fst_zip (Nat.le_of_eq hlengths)]
    rfl
  rw [← hfirst] at hp
  obtain ⟨x, hx, rfl⟩ := List.mem_map.mp hp
  obtain ⟨r, hr, hof⟩ := exists_of_forall₂ hrows.flip hx
  rw [Option.isSome_iff_ne_none, Ne, lastItem_eq_none]
  intro hnone
  refine hnone _ (List.mem_map_of_mem hr) ?_
  dsimp only
  rw [hof.payload, memoryId_withFactKey]

/-- After a commit, the text of an identifier is what the request writes last under it, or the one
from before. -/
theorem contentOf_plain {sent : List IngestPayload} (hsha : Function.Injective server.sha256)
    (hhashed : ∀ r ∈ S.memories.rows,
      r.contentHash = contentHash server.sha256 r.content r.entityId r.kind)
    (hq : server.Plain (S, sent) q)
    (h : prepareRecords server.toObservationRules q.order S q.index (server.expanded q.payloads) =
      .ok (records, o)) (memoryId : String) :
    ((lastItem (observationsOf records) memoryId).elim (S.contentOf memoryId)
      fun item => some item.2.2.textualContent) =
        ((server.lastWritten q.payloads memoryId).map IngestPayload.textualContent).or
          (S.contentOf memoryId) := by
  have hkept : server.kept S q.payloads = (server.expanded q.payloads).filter fun p =>
      shouldKeepPayload (S.storedContentState p.memoryId)
        (contentHash server.sha256 p.textualContent p.entityId p.memoryKind) := retain_map _ _
  -- The payload that was written last is the only one under the identifier.
  have hwritten := filter_eq_toList hq.written memoryId
  cases hlast : lastItem (observationsOf records) memoryId with
  | some item =>
    obtain ⟨p, hp, hid, hobs⟩ := exists_of_lastItem h hlast
    rw [hkept] at hp
    have hmem : p ∈ ((server.expanded q.payloads).filter fun p => p.memoryId = memoryId) :=
      List.mem_filter.mpr ⟨(List.mem_filter.mp hp).1, decide_eq_true hid⟩
    rw [hwritten, Option.mem_toList] at hmem
    rw [show server.lastWritten q.payloads memoryId = some p from hmem]
    dsimp only [Option.elim_some]
    rw [hobs]
    rfl
  | none =>
    cases hsome : server.lastWritten q.payloads memoryId with
    | none => rfl
    | some p =>
      obtain ⟨hp, hid⟩ := List.mem_filter.mp (List.mem_of_getLast? hsome)
      have hname : p.memoryId = memoryId := of_decide_eq_true hid
      -- The payload is skipped, since it is stored with the same hash.
      cases hkeep : shouldKeepPayload (S.storedContentState p.memoryId)
          (contentHash server.sha256 p.textualContent p.entityId p.memoryKind) with
      | true =>
        have hmem : p ∈ server.kept S q.payloads := by
          rw [hkept]
          exact List.mem_filter.mpr ⟨hp, hkeep⟩
        have hitem := isSome_lastItem h (hq.kept records o h) hmem
        rw [hname, hlast] at hitem
        exact absurd hitem Bool.false_ne_true
      | false =>
        unfold TenantStore.storedContentState at hkeep
        rw [hname] at hkeep
        cases hfind : S.memories.find? memoryId with
        | none =>
          rw [hfind] at hkeep
          exact absurd hkeep (by simp [shouldKeepPayload])
        | some r =>
          obtain ⟨hr, hrid⟩ := Table.find?_eq_some.mp hfind
          rw [hfind] at hkeep
          have hsame : r.contentHash =
              contentHash server.sha256 p.textualContent p.entityId p.memoryKind := by
            simp only [shouldKeepPayload, Option.map_some, Bool.or_eq_false_iff,
              decide_eq_false_iff_not, not_not] at hkeep
            exact hkeep.1
          rw [hhashed r hr, hq.entities p hp r hr (hrid.trans hname.symm)] at hsame
          -- The same hash means the same text.
          unfold TenantStore.contentOf
          rw [hfind]
          exact congrArg some (text_of_contentHash hsha hsame)

end

/-! ## Runs -/

/-- What holds after some requests. -/
structure IngestServer.Matches (server : IngestServer V H) (s : Ingested) : Prop where
  hashed : ∀ r ∈ s.1.memories.rows,
    r.contentHash = contentHash server.sha256 r.content r.entityId r.kind
  metrics : ∀ memoryId, s.1.metricsUnder memoryId =
    (server.lastSent s.2 memoryId).elim [] server.metricRowsOf
  contents : ∀ memoryId, s.1.contentOf memoryId =
    (server.lastWritten s.2 memoryId).map IngestPayload.textualContent

/-- A request keeps it. -/
theorem IngestServer.Matches.step [LinearOrder V] {s : Ingested} {q : IngestRequest H}
    (h : server.Matches s) (hsha : Function.Injective server.sha256) (hq : server.Plain s q) :
    server.Matches (server.step s q) := by
  unfold IngestServer.step IngestServer.ingest
  by_cases hempty : q.payloads.isEmpty
  · rw [if_pos hempty]
    dsimp only
    rw [List.isEmpty_iff.mp hempty, List.append_nil]
    exact h
  rw [if_neg hempty]
  cases hprepare : prepareRecords server.toObservationRules q.order s.1 q.index
      (server.expanded q.payloads) with
  | error e => exact h
  | ok prepared =>
    dsimp only
    cases hcommit : s.1.commitIngest server.cosineSimilarity q.order q.clock
        (server.batchOf q prepared.1) with
    | error e => exact h
    | ok committed =>
      dsimp only
      obtain ⟨docs, memories, hindexed, hmarks⟩ :=
        indexCommitted_inv q.order q.faults committed.1 committed.2
      rw [hindexed]
      -- The three parts: the hashes of the rows, the metrics and the contents.
      refine ⟨fun r hr => ?_, fun memoryId => ?_, fun memoryId => ?_⟩
      · obtain ⟨c, hc, hsame⟩ := List.mem_map.mp (hmarks ▸ List.mem_map_of_mem hr :
          unmarked r ∈ committed.1.memories.rows.map unmarked)
        rw [eq_of_unmarked hsame.symm]
        dsimp only
        rcases mem_memories_commitIngest hcommit hc with ⟨item, hlast, hrow⟩ | ⟨-, old, hold, hrow⟩
        · obtain ⟨p, -, -, hobs⟩ := exists_of_lastItem hprepare hlast
          rw [hrow]
          dsimp only [memoryRow, newMemory]
          rw [hobs]
          rfl
        · have hhash := h.hashed old hold
          rw [hrow]
          split <;> exact hhash
      · have hcommitted := metricsUnder_commitIngest hcommit hq.sent memoryId
        rw [h.metrics] at hcommitted
        refine hcommitted.trans ?_
        rw [lastSent_append]
        cases server.lastSent q.payloads memoryId <;> rfl
      · rw [contentOf_of_unmarked hmarks, contentOf_commitIngest hcommit,
          show (server.batchOf q prepared.1).observations = observationsOf prepared.1 from rfl,
          contentOf_plain hsha h.hashed hq hprepare, h.contents, lastWritten_append]
        cases server.lastWritten q.payloads memoryId <;> rfl

/-- A new store. -/
theorem IngestServer.matches_empty : server.Matches (TenantStore.empty, []) where
  hashed _ hr := absurd hr List.not_mem_nil
  metrics _ := rfl
  contents _ := rfl

end

/-- In every run of requests that send and write no identifier twice and have each under one entity,
and whose payloads are not dropped as duplicates, the metrics of an identifier are those of the text
that was sent last under it, other than as a synthetic query, and there are none if there is no such
text. If what was to be stored last under the identifier has that text, it is the one that is
stored. -/
theorem metrics_as_sent {γ V : Type} [LinearOrder V] {H : Hnsw γ} (server : IngestServer V H)
    (hsha : Function.Injective server.sha256) (requests : List (IngestRequest H))
    (hplain : EachStep server.step server.Plain (TenantStore.empty, []) requests)
    (memoryId : String) :
    (requests.foldl server.step (TenantStore.empty, [])).1.metricsUnder memoryId =
        (server.lastSent (requests.foldl server.step (TenantStore.empty, [])).2 memoryId).elim []
          server.metricRowsOf ∧
      ∀ p, server.lastSent (requests.foldl server.step (TenantStore.empty, [])).2 memoryId =
          some p →
        (server.lastWritten (requests.foldl server.step (TenantStore.empty, [])).2
          memoryId).map IngestPayload.textualContent = some p.textualContent →
        (requests.foldl server.step (TenantStore.empty, [])).1.contentOf memoryId =
          some p.textualContent := by
  have hrun := hplain.invariant (I := server.Matches) (fun s q h hq => h.step hsha hq)
    IngestServer.matches_empty
  refine ⟨hrun.metrics memoryId, fun p _ hwritten => ?_⟩
  rw [hrun.contents, hwritten]

/-! ## Two requests -/

/-- A server that mines nothing and extracts one amount of money. -/
private def moneyServer : IngestServer ℚ (Hnsw.exact (List ℚ)) where
  toObservationRules := plainRules
  mining :=
    { companionTexts := fun _ => (none, [])
      keywordText := fun _ => none
      inferFactKey := fun _ => none
      eventText := fun _ => none
      extract := fun _ _ _ _ => [] }
  enabled := fun _ => true
  metrics := true
  extract := fun text =>
    (if containsText text "$10" then [⟨"money", 10, "USD", "$10"⟩] else []) ++
      if containsText text "$20" then [⟨"money", 20, "USD", "$20"⟩] else []

/-- A request with one payload. -/
private def one (payload : IngestPayload) : IngestRequest (Hnsw.exact (List ℚ)) where
  payloads := [payload]
  order := .insertion
  clock := ⟨1, 1, 1⟩
  artifacts := {}
  faults := ⟨false, false⟩
  index := .new _

/-- A condition that can be checked for a request whose records can be computed. -/
private theorem plain_of {s : Ingested} {q : IngestRequest (Hnsw.exact (List ℚ))}
    (hsent : (q.payloads.map IngestPayload.memoryId).Nodup)
    (hwritten : ((moneyServer.expanded q.payloads).map IngestPayload.memoryId).Nodup)
    (hentities : ∀ p ∈ moneyServer.expanded q.payloads, ∀ r ∈ s.1.memories.rows,
      r.memoryId = p.memoryId → r.entityId = p.entityId)
    (hkept : (prepareRecords moneyServer.toObservationRules q.order s.1 q.index
      (moneyServer.expanded q.payloads)).toOption.map (fun x => x.1.length) =
        some (moneyServer.kept s.1 q.payloads).length) : moneyServer.Plain s q where
  sent := hsent
  written := hwritten
  entities := hentities
  kept := fun records o h => by
    rw [h] at hkept
    exact Option.some.inj hkept

/-- The theorem for a memory that is edited. -/
theorem metrics_as_sent_edited :
    ([one (said "e::s::0" "fact" "rent was $10" none),
        one (said "e::s::0" "fact" "rent was $20 after all" (some false))].foldl moneyServer.step
        (TenantStore.empty, [])).1.metricsUnder "e::s::0" =
      [⟨"e::s::0", 0, "e", 0, "money", 20, "USD", "$20"⟩] := by
  have hplain : EachStep moneyServer.step moneyServer.Plain (TenantStore.empty, [])
      [one (said "e::s::0" "fact" "rent was $10" none),
        one (said "e::s::0" "fact" "rent was $20 after all" (some false))] := by
    refine EachStep.cons_iff.mpr ⟨?_, EachStep.cons_iff.mpr ⟨?_, EachStep.nil⟩⟩
    · exact plain_of (by decide +kernel) (by decide +kernel) (by decide +kernel)
        (by decide +kernel)
    · exact plain_of (by decide +kernel) (by decide +kernel) (by decide +kernel)
        (by decide +kernel)
  rw [(metrics_as_sent moneyServer Function.injective_id _ hplain "e::s::0").1]
  decide +kernel

/-- A mail is stored as two chunks; its metrics are under its identifier, and the chunk with the
amount has none. -/
theorem metrics_of_chunks :
    ¬ ∀ (server : IngestServer ℚ (Hnsw.exact (List ℚ)))
      (requests : List (IngestRequest (Hnsw.exact (List ℚ)))), server.metrics = true →
        server.MetricsCurrent (requests.foldl server.step (TenantStore.empty, [])).1 := by
  intro hclaim
  have hmail := hclaim moneyServer [one { said "e::s::0" "fact" "From: bob\nSubject: you owe $10"
    none with contentType := some "email" }] rfl "e::s::0"
  revert hmail
  decide +kernel

end Tellodb
