import Tellodb.Facts.Commit
import Tellodb.Facts.Delete
import Tellodb.Storage.Steps

/-!
# The edges of fact versions

Every fact version is mirrored by an edge of the graph under
`edge::{memory}::{subject}::{predicate}` (`Mirrors`). Two writers maintain the edges: an ingest
writes them from the fact that arrives, the rebuild of a chain after a deletion from the stored
versions. The rebuild restores every edge of its chain (`Graphed.deleteObservation`). An ingest that
replaces a version writes that version's edge with the value, subject and predicate of the fact that
replaced it (`replaced_residence`), and one that puts a version between two others leaves its
neighbours' edges as they were. So the edges agree as long as no fact is placed next to a version of
another memory (`edgesAgree_of_run`). -/

namespace Tellodb

open Relational FactTables FactVersion

/-- The identifier of the edge of a version. -/
def FactVersion.edgeId (v : FactVersion) : String :=
  factEdgeId v.memoryId v.subject v.predicate

/-- The version has an edge: neither writer writes one for a version without its parts. -/
def FactVersion.hasEdge (v : FactVersion) : Bool :=
  !(trim v.subject.toList).isEmpty && !v.predicate.isEmpty && !(trim v.object.toList).isEmpty

/-- The edge shows the version: its value, its status and the version it replaced or was replaced
by. -/
structure Mirrors (e : EdgeRow) (v : FactVersion) : Prop where
  target : e.target = v.object
  status : e.status = v.status
  /-- A current version refers to the one it replaced, a stale one to the one that replaced it. -/
  refTarget : e.refTarget = if v.status = .current then v.supersedes else v.supersededBy
  refSource : e.refSource = if v.status = .current then
      v.supersedes.map fun _ => EdgeType.supersedes.asStr
    else v.supersededBy.map fun _ => EdgeType.supersededBy.asStr
  memoryId : e.memoryId = v.memoryId

/-- Every version is mirrored by its edge. -/
def EdgesAgree (T : FactTables) (t : Table EdgeRow.edgeId) : Prop :=
  ∀ v ∈ T.versions.rows, v.hasEdge = true → ∃ e, t.find? v.edgeId = some e ∧ Mirrors e v

/-- No two versions share an edge. -/
def EdgesApart (T : FactTables) : Prop :=
  ∀ v ∈ T.versions.rows, ∀ w ∈ T.versions.rows, v.edgeId = w.edgeId →
    v.primaryKey = w.primaryKey

/-- The invariant of facts and graph: linked chains, each version with an edge of its own that
mirrors it. -/
structure Graphed (T : FactTables) (t : Table EdgeRow.edgeId) : Prop where
  chained : Chained T
  apart : EdgesApart T
  agree : EdgesAgree T t

/-- The tables of a new store. -/
theorem graphed_empty : Graphed FactTables.empty (Table.empty _) where
  chained := chained_empty
  apart _ hv := absurd hv List.not_mem_nil
  agree _ hv := absurd hv List.not_mem_nil

/-- A fact finds no version in its chain but its own, and has an edge of its own. -/
structure Alone (T : FactTables) (fact : IngestFactRegistration) : Prop where
  /-- Its chain has no version of another memory. -/
  chain : ∀ v ∈ T.timeline fact.factKey fact.entityId, v.memoryId = fact.memoryId
  /-- The version stored under its key and memory, if there is one, states the same. -/
  resent : ∀ v ∈ T.versions.rows, v.primaryKey = (fact.factKey, fact.memoryId) →
    v.stated = (fact.entityId, fact.registration)
  /-- No other version has its edge. -/
  apart : ∀ v ∈ T.versions.rows, v.primaryKey ≠ (fact.factKey, fact.memoryId) →
    v.edgeId ≠ factEdgeId fact.memoryId fact.subject fact.predicate

/-- A fact that restates, or is alone in its chain. -/
def Lone (T : FactTables) (fact : IngestFactRegistration) : Prop :=
  T.restates fact.entityId fact.registration = true ∨ Alone T fact

instance (T : FactTables) (fact : IngestFactRegistration) : Decidable (Lone T fact) :=
  decidable_of_iff (T.restates fact.entityId fact.registration = true ∨
      (∀ v ∈ T.timeline fact.factKey fact.entityId, v.memoryId = fact.memoryId) ∧
      (∀ v ∈ T.versions.rows, v.primaryKey = (fact.factKey, fact.memoryId) →
        v.stated = (fact.entityId, fact.registration)) ∧
      ∀ v ∈ T.versions.rows, v.primaryKey ≠ (fact.factKey, fact.memoryId) →
        v.edgeId ≠ factEdgeId fact.memoryId fact.subject fact.predicate)
    (or_congr_right ⟨fun h => ⟨h.1, h.2.1, h.2.2⟩, fun h => ⟨h.chain, h.resent, h.apart⟩⟩)

/-! ## An ingest -/

section Ingest

variable {T : FactTables} {fact : IngestFactRegistration} (recordedAt : UInt64)

/-- A lone fact is admitted. -/
theorem Lone.admits (h : Lone T fact) : T.Admits fact := by
  refine h.imp id fun halone v hv hkey => ?_
  have hstated := halone.resent v hv hkey
  simp only [FactVersion.stated, IngestFactRegistration.registration, Prod.mk.injEq,
    FactRegistration.mk.injEq] at hstated
  refine ⟨hstated.1, ?_⟩
  change v.timestampMs = fact.timestamp.toInt64
  rw [← hstated.2.2.1, Int64.toInt64_toUInt64]

/-- A version of the chain after the inserts of a lone fact is of its memory. -/
theorem Lone.memoryId_inserted (h : Lone T fact)
    (hr : T.restates fact.entityId fact.registration = false) {v : FactVersion}
    (hv : v ∈ (T.inserted fact.entityId recordedAt fact.registration).timeline fact.factKey
      fact.entityId) : v.memoryId = fact.memoryId := by
  have halone := (h.resolve_left (by simp [hr])).chain
  obtain ⟨hv, hfact⟩ := mem_timeline.mp hv
  rcases T.inserted_cases fact.entityId recordedAt fact.registration with
    ⟨-, -, -, hsame⟩ | ⟨-, hrows⟩
  · rw [hsame] at hv
    exact halone v (mem_timeline.mpr ⟨hv, hfact⟩)
  · rw [hrows] at hv
    rcases List.mem_append.mp hv with hv | hv
    · exact halone v (mem_timeline.mpr ⟨hv, hfact⟩)
    · rw [List.mem_singleton.mp hv]
      rfl

/-- A lone fact is placed without neighbours. -/
theorem Lone.rows (h : Lone T fact)
    (hr : T.restates fact.entityId fact.registration = false) :
    (registeredIngest recordedAt T fact).versions.rows =
      (T.inserted fact.entityId recordedAt fact.registration).versions.rows.map
        (linkRow fact.registration none none) := by
  obtain ⟨n, hn, htables⟩ := registeredFact_of_not_restates hr recordedAt
  have hagrees : T.Agrees fact.entityId fact.registration := h.admits.resolve_left (by simp [hr])
  have hmemory := fun v hv => h.memoryId_inserted recordedAt hr (v := v) hv
  have hstored := hagrees.stored hn
  obtain ⟨before, after, hsplit, hneighbours, -⟩ := placeVersion_timeline hn hstored.1 hstored.2
  -- The memory has one version in the chain, so nothing is around it.
  have hids := (T.inserted fact.entityId recordedAt fact.registration).timeline_memoryId_nodup
    fact.factKey fact.entityId
  have hall : ((T.inserted fact.entityId recordedAt fact.registration).timeline fact.factKey
      fact.entityId).map FactVersion.memoryId = List.replicate (before ++ n :: after).length
        fact.memoryId := by
    refine List.eq_replicate_iff.mpr ⟨by rw [List.length_map, ← hsplit]; rfl, fun m hm => ?_⟩
    obtain ⟨v, hv, rfl⟩ := List.mem_map.mp hm
    exact hmemory v hv
  rw [hall, List.nodup_replicate] at hids
  simp only [List.length_append, List.length_cons] at hids
  have hbefore : before = [] := List.length_eq_zero_iff.mp (by omega)
  have hafter : after = [] := List.length_eq_zero_iff.mp (by omega)
  unfold registeredIngest
  rw [htables]
  unfold placeVersion
  rw [linkVersion_rows, hneighbours, hbefore, hafter]
  rfl

/-- A lone fact that is placed is current and replaces nothing. -/
theorem Lone.status (h : Lone T fact)
    (hr : T.restates fact.entityId fact.registration = false) {status : FactVersionStatus}
    (hstatus : T.Reports fact.entityId recordedAt fact.registration status) :
    status = .current none := by
  have halone := h.resolve_left (by simp [hr])
  cases hstatus with
  | confirmed _ hrestates => exact absurd hrestates (by simp [hr])
  | current =>
    have hreplaced : T.replaced fact.entityId fact.registration = none := by
      unfold replaced
      rw [Option.filter_eq_none_iff]
      intro p hp
      obtain ⟨v, hv, rfl⟩ := Option.map_eq_some_iff.mp hp
      have hv : v ∈ T.chain fact.factKey fact.entityId :=
        (List.mem_filter.mp ((mem_orderBy _ _ _).mp (List.mem_of_getLast? hv))).1
      have hmemory := halone.chain v ((mem_orderBy _ _ _).mpr hv)
      rw [decide_eq_true_eq, not_not]
      exact hmemory
    rw [hreplaced]
    rfl
  | stale _ _ hlater =>
    -- The version after its place would be the memory's own, which is not after itself.
    obtain ⟨v, hv, hafter⟩ := List.any_eq_true.mp hlater
    have hkey : v.primaryKey = (fact.factKey, fact.memoryId) := by
      have hmemory := halone.chain v hv
      have hfactKey := (mem_timeline.mp hv).2.1
      simp only [primaryKey, hmemory]
      rw [hfactKey]
      rfl
    have hfind : T.versions.find? (fact.registration.factKey, fact.registration.memoryId) =
        some v := Table.find?_eq_some.mpr ⟨(mem_timeline.mp hv).1, hkey⟩
    unfold standing at hafter
    rw [hfind] at hafter
    exact absurd (of_decide_eq_true hafter) (lt_irrefl _)

/-- A version after a lone fact has been placed is the fact's own, current and without
neighbours, or a version of before that is not. -/
theorem Lone.cases (h : Lone T fact)
    (hr : T.restates fact.entityId fact.registration = false) {v : FactVersion}
    (hv : v ∈ (registeredIngest recordedAt T fact).versions.rows) :
    (v.stated = (fact.entityId, fact.registration) ∧ v.status = .current ∧
        v.supersedes = none ∧ v.supersededBy = none) ∨
      (v ∈ T.versions.rows ∧ v.primaryKey ≠ (fact.factKey, fact.memoryId)) := by
  have halone := h.resolve_left (by simp [hr])
  rw [h.rows recordedAt hr] at hv
  obtain ⟨w, hw, rfl⟩ := List.mem_map.mp hv
  -- The row is the one that the fact is placed on, or it is left alone.
  by_cases hkey : w.primaryKey = (fact.factKey, fact.memoryId)
  · have hset : linkRow fact.registration none none w =
        (setPlace fact.registration none none).set w :=
      linkRow_self hkey (by simp) (by simp)
    refine .inl ⟨?_, by rw [hset]; exact ⟨rfl, rfl, rfl⟩⟩
    have hstated : w.stated = (fact.entityId, fact.registration) := by
      rcases T.inserted_cases fact.entityId recordedAt fact.registration with
        ⟨-, -, -, hsame⟩ | ⟨-, hrows⟩
      · exact halone.resent w (hsame ▸ hw) hkey
      · rw [hrows] at hw
        rcases List.mem_append.mp hw with hw | hw
        · exact halone.resent w hw hkey
        · rw [List.mem_singleton.mp hw]
          rfl
    rw [← hstated, hset]
    rfl
  · have hne : linkRow fact.registration none none w = w :=
      linkRow_of_ne hkey (by simp) (by simp)
    rw [hne]
    refine .inr ⟨?_, hkey⟩
    -- A row that is not the fact's was there before.
    rcases T.inserted_cases fact.entityId recordedAt fact.registration with
      ⟨-, -, -, hsame⟩ | ⟨-, hrows⟩
    · exact hsame ▸ hw
    · rw [hrows] at hw
      rcases List.mem_append.mp hw with hw | hw
      · exact hw
      · exact absurd (by rw [List.mem_singleton.mp hw]; rfl) hkey

/-- The identifier of a version's edge, read off what it states. -/
theorem edgeId_of_stated {v : FactVersion} {a : String × FactRegistration} (h : v.stated = a) :
    v.edgeId = factEdgeId a.2.memoryId a.2.subject a.2.predicate := by
  rw [← h]
  rfl

/-- The key of a version, read off what it states. -/
theorem primaryKey_of_stated {v : FactVersion} {a : String × FactRegistration} (h : v.stated = a) :
    v.primaryKey = (a.2.factKey, a.2.memoryId) := by
  rw [← h]
  rfl

/-- A lone fact and the edges it writes keep facts and graph in agreement. -/
theorem Graphed.registered {t : Table EdgeRow.edgeId} (hT : Graphed T t) (h : Lone T fact)
    {status : FactVersionStatus}
    (hstatus : T.Reports fact.entityId recordedAt fact.registration status) :
    Graphed (registeredIngest recordedAt T fact)
      (insertGraphEntriesTx t (graphEntries status fact)) := by
  have hchained : Chained (registeredIngest recordedAt T fact) :=
    hT.chained.registeredFact h.admits
  -- A restatement writes no entry.
  cases hr : T.restates fact.entityId fact.registration with
  | true =>
    have hsame : (registeredIngest recordedAt T fact).versions = T.versions :=
      registeredFact_versions_of_restates hr recordedAt
    have hentries : graphEntries status fact = [] := by
      cases hstatus with
      | confirmed => rfl
      | current hrestates => exact absurd hr (by simp [hrestates])
      | stale _ hrestates => exact absurd hr (by simp [hrestates])
    refine ⟨hchained, ?_, ?_⟩
    · unfold EdgesApart
      rw [hsame]
      exact hT.apart
    · rw [hentries]
      unfold EdgesAgree
      rw [hsame]
      exact hT.agree
  | false =>
    have halone := h.resolve_left (by simp [hr])
    rw [h.status recordedAt hr hstatus]
    -- The fact has no neighbours on its chain, so its entry is the only one.
    constructor
    · exact hchained
    · -- The fact's own version has its edge to itself.
      intro v hv w hw hedge
      rcases h.cases recordedAt hr hv with ⟨hv, -⟩ | ⟨hv, hvkey⟩ <;>
        rcases h.cases recordedAt hr hw with ⟨hw, -⟩ | ⟨hw, hwkey⟩
      · rw [primaryKey_of_stated hv, primaryKey_of_stated hw]
      · rw [edgeId_of_stated hv] at hedge
        exact absurd hedge.symm (halone.apart w hw hwkey)
      · rw [edgeId_of_stated hw] at hedge
        exact absurd hedge (halone.apart v hv hvkey)
      · exact hT.apart v hv w hw hedge
    · intro v hv hedge
      rcases h.cases recordedAt hr hv with ⟨hv, hstatus, hsupersedes, hsupersededBy⟩ | ⟨hv, hvkey⟩
      · simp only [FactVersion.stated, IngestFactRegistration.registration, Prod.mk.injEq,
          FactRegistration.mk.injEq] at hv
        obtain ⟨-, -, -, hmemory, hsubject, hpredicate, hobject⟩ := hv
        -- The fact has an edge of its own, written from itself.
        unfold FactVersion.hasEdge at hedge
        rw [hsubject, hpredicate, hobject] at hedge
        unfold FactVersion.edgeId insertGraphEntriesTx
        rw [hmemory, hsubject, hpredicate]
        have hparts : (!(trim fact.subject.toList).isEmpty && !(trim fact.object.toList).isEmpty) =
            true := by
          simp only [Bool.and_eq_true] at hedge ⊢
          exact ⟨hedge.1.1, hedge.2⟩
        refine ⟨IngestGraphEdge.row ⟨fact.memoryId, fact.subject, fact.predicate, fact.object,
          .current, none, fact.timestamp⟩, ?_, ?_⟩
        · simp only [graphEntries, List.filter_cons, hparts, if_true, List.filter_nil,
            List.foldl_cons, List.foldl_nil, Table.find?_insertOrReplace]
          exact if_pos rfl
        · constructor <;> simp [IngestGraphEdge.row, hmemory, hobject, hstatus, hsupersedes]
      · obtain ⟨e, he, hmirrors⟩ := hT.agree v hv hedge
        -- The entry goes to another edge.
        refine ⟨e, ?_, hmirrors⟩
        unfold insertGraphEntriesTx
        rw [Table.find?_foldl_insertOrReplace_of_ne, he]
        intro entry hentry
        have hentry := List.mem_singleton.mp (List.mem_filter.mp hentry).1
        rw [hentry]
        exact (halone.apart v hv hvkey).symm

/-- The edges of a list of entries are those of its parts, one after the other. -/
theorem insertGraphEntriesTx_append (t : Table EdgeRow.edgeId)
    (first second : List IngestGraphEdge) :
    insertGraphEntriesTx t (first ++ second) =
      insertGraphEntriesTx (insertGraphEntriesTx t first) second := by
  unfold insertGraphEntriesTx
  rw [List.filter_append, List.foldl_append]

variable {recordedAt}

/-- A run of lone facts and the edges they write keep facts and graph in agreement. -/
theorem Graphed.reported {T' : FactTables}
    {outcomes : List (FactVersionStatus × IngestFactRegistration)}
    (hrun : Reported recordedAt T outcomes T') {t : Table EdgeRow.edgeId} (hT : Graphed T t)
    (hlone : EachStep (FactTables.registeredIngest recordedAt) Lone T (outcomes.map Prod.snd)) :
    Graphed T' (insertGraphEntriesTx t (outcomes.flatMap fun x => graphEntries x.1 x.2)) := by
  induction hrun generalizing t with
  | nil T => exact hT
  | cons hstatus _ ih =>
    rw [List.map_cons, EachStep.cons_iff] at hlone
    rw [List.flatMap_cons, insertGraphEntriesTx_append]
    exact ih (hT.registered recordedAt hlone.1 hstatus) hlone.2

variable {cosineSimilarity : List ℚ → List ℚ → ℚ} {order : HashOrder} {clock : IngestClock}
  {S S' : TenantStore} {b : IngestBatches} {outcome : CommitOutcome}

/-- The plain edges of cards and facts replace no edge. -/
theorem find?_insertCardEdgesTx {edgeId : String} {e : EdgeRow}
    (h : S.edges.find? edgeId = some e) (cards : List MemoryCard)
    (facts : List IngestFactRegistration) :
    (insertCardEdgesTx S cards facts).edges.find? edgeId = some e := by
  have hfold : ∀ (rows : List EdgeRow) (t : Table EdgeRow.edgeId), t.find? edgeId = some e →
      (rows.foldl Table.insertOrIgnore t).find? edgeId = some e := by
    intro rows
    induction rows with
    | nil => exact fun _ ht => ht
    | cons row rows ih => exact fun t ht => ih _ (Table.find?_insertOrIgnore ht row)
  exact hfold _ _ h

/-- A commit of lone facts keeps facts and graph in agreement. -/
theorem Graphed.commitIngest (hS : Graphed S.facts S.edges)
    (h : S.commitIngest cosineSimilarity order clock b = .ok (S', outcome))
    (hlone : EachStep (FactTables.registeredIngest clock.facts) Lone S.facts
      (orderedFacts order (S.commitFacts cosineSimilarity b))) : Graphed S'.facts S'.edges := by
  obtain ⟨outcomes, hfacts, hrun, hedges, -⟩ := commitIngest_reported hS.chained h
    (hlone.mono fun _ _ h => h.admits)
  have hregistered := hS.reported hrun (hfacts ▸ hlone)
  refine ⟨hregistered.chained, hregistered.apart, fun v hv hedge => ?_⟩
  obtain ⟨e, he, hmirrors⟩ := hregistered.agree v hv hedge
  refine ⟨e, ?_, hmirrors⟩
  -- The edges written last do not replace any.
  rw [hedges]
  exact find?_insertCardEdgesTx he _ _

end Ingest

/-! ## A deletion -/

section Delete

variable {T : FactTables}

/-- A text that is not blank is not empty. -/
theorem isEmpty_of_trim {text : String} (h : (trim text.toList).isEmpty = false) :
    text.isEmpty = false := by
  rw [Bool.eq_false_iff]
  intro hempty
  rw [String.isEmpty_iff.mp hempty] at h
  exact absurd h (by decide)

/-- The edges of a version that the rebuild writes mirror it. -/
theorem mirrors_rebuiltEdge (v : FactVersion) : Mirrors (rebuiltEdge v) v :=
  ⟨rfl, rfl, rfl, rfl, rfl⟩

/-- Edges that are apart stay so with fewer versions and other links. -/
theorem EdgesApart.of_statements {T' : FactTables} (h : EdgesApart T)
    (hsub : T'.statements ⊆ T.statements) : EdgesApart T' := by
  have hold : ∀ v ∈ T'.versions.rows, ∃ w ∈ T.versions.rows, w.edgeId = v.edgeId ∧
      w.primaryKey = v.primaryKey := by
    intro v hv
    obtain ⟨w, hw, hstatement⟩ := List.mem_map.mp (hsub (List.mem_map_of_mem hv))
    have hedge : w.statement.edgeId = v.statement.edgeId := by rw [hstatement]
    exact ⟨w, hw, hedge, primaryKey_of_statement hstatement⟩
  intro v hv w hw hedge
  obtain ⟨v', hv', hvedge, hvkey⟩ := hold v hv
  obtain ⟨w', hw', hwedge, hwkey⟩ := hold w hw
  rw [← hvkey, ← hwkey]
  exact h v' hv' w' hw' (by rw [hvedge, hwedge, hedge])

/-- The rebuild of a chain writes the edge of each of its versions, and no other. -/
theorem rebuild_edges {s : FactTables × Table EdgeRow.edgeId} (hs : EdgesApart s.1)
    (fact : String × String) {v : FactVersion}
    (hv : v ∈ (rebuildFactChainAfterDelete s fact).1.versions.rows) (hedge : v.hasEdge = true)
    (h : (v.factKey, v.entityId) ≠ fact →
      v ∈ s.1.versions.rows → ∃ e, s.2.find? v.edgeId = some e ∧ Mirrors e v) :
    ∃ e, (rebuildFactChainAfterDelete s fact).2.find? v.edgeId = some e ∧ Mirrors e v := by
  obtain ⟨factKey, entityId⟩ := fact
  have hapart : EdgesApart (rebuildFactChainAfterDelete s (factKey, entityId)).1 :=
    hs.of_statements (by rw [statements_rebuild]; exact List.Subset.refl _)
  generalize hT : (rebuildFactChainAfterDelete s (factKey, entityId)).1 = T' at hv hapart
  have hedges : (rebuildFactChainAfterDelete s (factKey, entityId)).2 =
      ((T'.chain factKey entityId).filter fun v =>
        !v.subject.isEmpty && !v.predicate.isEmpty && !v.object.isEmpty).foldl
          (fun t v => t.insertOrReplace (rebuiltEdge v)) s.2 := by
    rw [← hT]
    rfl
  rw [hedges]
  -- A version of the chain that has the edge of `v` is `v`.
  have hsame : ∀ c ∈ T'.chain factKey entityId, c.edgeId = v.edgeId → c = v := fun c hc hcv =>
    T'.versions.keyed.eq_of_mem (List.mem_filter.mp hc).1 hv
      (hapart c (List.mem_filter.mp hc).1 v hv hcv)
  -- The versions of the fact get new edges, and the others keep theirs.
  by_cases hfact : (v.factKey, v.entityId) = (factKey, entityId)
  · obtain ⟨rfl, rfl⟩ := Prod.mk.inj hfact
    refine ⟨rebuiltEdge v, ?_, mirrors_rebuiltEdge v⟩
    unfold FactVersion.hasEdge at hedge
    simp only [Bool.and_eq_true, Bool.not_eq_true'] at hedge
    obtain ⟨⟨hsubject, hpredicate⟩, hobject⟩ := hedge
    refine Table.find?_foldl_insertOrReplace s.2 (List.mem_filter.mpr ⟨?_, ?_⟩) fun c hc hcv => ?_
    · exact List.mem_filter.mpr ⟨hv, by simp⟩
    · simp [hpredicate, isEmpty_of_trim hsubject, isEmpty_of_trim hobject]
    · rw [hsame c (List.mem_filter.mp hc).1 hcv]
  · rw [Table.find?_foldl_insertOrReplace_of_ne]
    · -- The row is as it was before the rebuild.
      rw [← hT, rebuild_facts, relink_rows] at hv
      obtain ⟨w, hw, rfl⟩ := List.mem_map.mp hv
      have hstatement : (relinkRow factKey entityId ((s.1.timeline factKey entityId).map place)
          w).statement = w.statement := relinkRow_statement _ w
      have hw' : ¬ (w.factKey = factKey ∧ w.entityId = entityId) := by
        rintro ⟨rfl, rfl⟩
        exact hfact (Prod.ext (factKey_of_statement hstatement) (entityId_of_statement hstatement))
      have hrow : relinkRow factKey entityId ((s.1.timeline factKey entityId).map place) w = w :=
        relinkRow_of_ne hw'
      rw [hrow] at hfact h ⊢
      exact h hfact hw
    · intro c hc hcv
      have hc := (List.mem_filter.mp hc).1
      rw [← hsame c hc hcv] at hfact
      exact hfact (by simpa using (List.mem_filter.mp hc).2)

/-- The rebuild of chains writes the edges of all their versions, and keeps those of the others. -/
theorem rebuildAll_edges {s : FactTables × Table EdgeRow.edgeId} (hs : EdgesApart s.1)
    {facts : List (String × String)}
    (h : ∀ v ∈ s.1.versions.rows, v.hasEdge = true → (v.factKey, v.entityId) ∉ facts →
      ∃ e, s.2.find? v.edgeId = some e ∧ Mirrors e v) :
    EdgesAgree (facts.foldl rebuildFactChainAfterDelete s).1
      (facts.foldl rebuildFactChainAfterDelete s).2 := by
  induction facts generalizing s with
  | nil => exact fun v hv hedge => h v hv hedge List.not_mem_nil
  | cons fact facts ih =>
    rw [List.foldl_cons]
    refine ih ?_ fun v hv hedge hrest => rebuild_edges hs fact hv hedge fun hfact hold => ?_
    · exact hs.of_statements (by rw [statements_rebuild]; exact List.Subset.refl _)
    · exact h v hold hedge (by simp [hfact, hrest])

variable {order : HashOrder} {now : UInt64} {memoryId reason : String} {S : TenantStore}

/-- A deletion keeps facts and graph in agreement, if no edge names the memory as the source of its
reference: the edges of its chains are rebuilt, and no other is deleted. -/
theorem Graphed.deleteObservation (hS : Graphed S.facts S.edges)
    (hsource : ∀ e ∈ S.edges.rows, e.refSource.any (isOf memoryId) = false) :
    Graphed (S.deleteObservation order now memoryId reason).1.facts
      (S.deleteObservation order now memoryId reason).1.edges := by
  have hparts := (deleteObservation_parts order now S memoryId reason).1
  obtain ⟨hfacts, hedges⟩ := Prod.mk.inj (hparts.trans (Prod.mk.eta).symm)
  rw [hfacts, hedges]
  refine ⟨hS.chained.deleteFacts S.edges memoryId, hS.apart.of_statements ?_, ?_⟩
  · rw [statements_deleteFacts]
    exact List.filter_subset_self _
  refine rebuildAll_edges ?_ fun v hv hedge hfact => ?_
  · refine hS.apart.of_statements (List.map_subset _ ?_)
    exact List.filter_subset_self _
  -- The edge of a version whose chain is not rebuilt is recorded under its memory and refers to a
  -- neighbour in that chain.
  obtain ⟨hv, hof⟩ := Table.mem_deleteWhere.mp hv
  obtain ⟨e, he, hmirrors⟩ := hS.agree v hv hedge
  refine ⟨e, Table.find?_deleteWhere he ?_, hmirrors⟩
  have hchain : ∀ w ∈ S.facts.timeline v.factKey v.entityId, isOf memoryId w.memoryId = false := by
    intro w hw
    rw [Bool.eq_false_iff]
    intro hof
    obtain ⟨hw, hkey, hentity⟩ := mem_timeline.mp hw
    refine hfact (List.mem_dedup.mpr (List.mem_map.mpr ⟨w, List.mem_filter.mpr ⟨hw, hof⟩, ?_⟩))
    rw [hkey, hentity]
  obtain ⟨before, after, hsplit⟩ := List.append_of_mem (mem_timeline.mpr ⟨hv, rfl, rfl⟩)
  obtain ⟨hsupersedes, hsupersededBy, -⟩ := hS.chained.columns hsplit
  have htarget : e.refTarget.any (isOf memoryId) = false := by
    rw [hmirrors.refTarget, hsupersedes, hsupersededBy]
    split
    · cases hlast : before.getLast? with
      | none => rfl
      | some w =>
        refine hchain w ?_
        rw [hsplit]
        exact List.mem_append_left _ (List.mem_of_getLast? hlast)
    · cases hhead : after.head? with
      | none => rfl
      | some w =>
        refine hchain w ?_
        rw [hsplit]
        exact List.mem_append_right _ (List.mem_cons_of_mem _ (List.mem_of_head? hhead))
  rw [hmirrors.memoryId, hof, hsource e (Table.find?_eq_some.mp he).1, htarget]
  rfl

end Delete

/-! ## Runs -/

section Runs

variable (cosineSimilarity : List ℚ → List ℚ → ℚ)

/-- The condition of a step: each fact of a commit is lone at its turn, and a deletion takes no
memory whose identifier is what the edges call their references. -/
def PlacesAlone (S : TenantStore) : StoreStep → Prop
  | .commit order clock b =>
    EachStep (FactTables.registeredIngest clock.facts) Lone S.facts
      (orderedFacts order (S.commitFacts cosineSimilarity b))
  | .delete _ _ memoryId _ => ∀ e ∈ S.edges.rows, e.refSource.any (isOf memoryId) = false

instance (S : TenantStore) : (a : StoreStep) → Decidable (PlacesAlone cosineSimilarity S a)
  | .commit order clock b => inferInstanceAs (Decidable
      (EachStep (FactTables.registeredIngest clock.facts) Lone S.facts
        (orderedFacts order (S.commitFacts cosineSimilarity b))))
  | .delete _ _ memoryId _ =>
    inferInstanceAs (Decidable (∀ e ∈ S.edges.rows, e.refSource.any (isOf memoryId) = false))

/-- Such a step keeps facts and graph in agreement. -/
theorem Graphed.step {S : TenantStore} (hS : Graphed S.facts S.edges) {a : StoreStep}
    (ha : PlacesAlone cosineSimilarity S a) :
    Graphed (S.step cosineSimilarity a).facts (S.step cosineSimilarity a).edges := by
  cases a with
  | delete order now memoryId reason => exact hS.deleteObservation ha
  | commit order clock b =>
    cases h : S.commitIngest cosineSimilarity order clock b with
    | error e =>
      rw [TenantStore.step_commit_of_error h]
      exact hS
    | ok result =>
      rw [TenantStore.step_commit_of_ok h]
      exact hS.commitIngest h ha

/-- As long as no fact is placed next to a version of another memory, the edges of the versions
agree with the versions in every state of a run. -/
theorem edgesAgree_of_run {steps : List StoreStep}
    (h : EachStep (TenantStore.step cosineSimilarity) (PlacesAlone cosineSimilarity)
      TenantStore.empty steps) :
    let S := steps.foldl (TenantStore.step cosineSimilarity) TenantStore.empty
    EdgesAgree S.facts S.edges :=
  (h.invariant (I := fun S => Graphed S.facts S.edges)
    (fun _ _ hS ha => hS.step cosineSimilarity ha) graphed_empty).agree

end Runs

/-- A batch that states where alice lives. -/
private def residenceBatch (timestamp : UInt64) (memoryId object : String) : IngestBatches :=
  { factBatch := [⟨"alice", "residence", timestamp, memoryId, "alice", "lives_in", object⟩] }

/-- A batch that states what she does. -/
private def occupationBatch (timestamp : UInt64) (memoryId object : String) : IngestBatches :=
  { factBatch := [⟨"alice", "occupation", timestamp, memoryId, "alice", "works_as", object⟩] }

/-- The theorem at a commit of Austin by one memory, its restatement by another, an occupation that
is sent twice, and the deletion of the first memory. The version of the occupation is left in the
end, with its edge. -/
theorem edgesAgree_of_run_residence :
    let S := [StoreStep.commit .insertion ⟨1, 1, 1⟩ (residenceBatch 100 "m1" "Austin"),
      .commit .insertion ⟨2, 2, 2⟩ (residenceBatch 200 "m2" "Austin"),
      .commit .insertion ⟨3, 3, 3⟩ (occupationBatch 300 "m3" "nurse"),
      .commit .insertion ⟨4, 4, 4⟩ (occupationBatch 300 "m3" "nurse"),
      .delete .insertion 5 "m1" "test"].foldl (TenantStore.step fun _ _ => 0) TenantStore.empty
    EdgesAgree S.facts S.edges ∧ S.facts.versions.rows.map FactVersion.object = ["nurse"] ∧
      (S.edges.find? "edge::m3::alice::works_as").map EdgeRow.target = some "nurse" :=
  ⟨edgesAgree_of_run _ (by decide +kernel), by decide +kernel, by decide +kernel⟩

/-- Austin at 100 and Boston at 200 of another memory: the edge of Austin points to Boston. -/
theorem replaced_residence :
    let S := [StoreStep.commit .insertion ⟨1, 1, 1⟩ (residenceBatch 100 "m1" "Austin"),
      .commit .insertion ⟨2, 2, 2⟩ (residenceBatch 200 "m2" "Boston")].foldl
        (TenantStore.step fun _ _ => 0) TenantStore.empty
    (S.facts.versions.find? ("residence", "m1")).map FactVersion.object = some "Austin" ∧
      (S.edges.find? "edge::m1::alice::lives_in").map EdgeRow.target = some "Boston" ∧
      ¬ EdgesAgree S.facts S.edges := by
  intro S
  have hversion : ∃ v ∈ S.facts.versions.rows, v.hasEdge = true ∧
      v.edgeId = "edge::m1::alice::lives_in" ∧ v.object = "Austin" := by decide +kernel
  have hedge : (S.edges.find? "edge::m1::alice::lives_in").map EdgeRow.target = some "Boston" := by
    decide +kernel
  refine ⟨by decide +kernel, hedge, fun hagree => ?_⟩
  obtain ⟨v, hv, hparts, hid, hobject⟩ := hversion
  obtain ⟨e, he, hmirrors⟩ := hagree v hv hparts
  rw [hid] at he
  rw [he, Option.map_some, hmirrors.target, hobject] at hedge
  exact absurd hedge (by decide)

end Tellodb
