import Mathlib.Data.Rat.Floor
import Mathlib.Data.List.Dedup
import Mathlib.Order.OrderDual
import Mathlib.Tactic.Linarith
import Mathlib.Tactic.NormNum
import Tellodb.Collections.Chunks
import Tellodb.Machine.Word
import Tellodb.Storage.Ingest

/-!
# Neighbours in the graph

`get_edge_cluster_neighbors_typed` reads the neighbours of one memory in one statement,
`get_edge_cluster_neighbors_batch` those of many memories in several and joins them itself. Both
have the same candidates (`incidentTo`), whatever else is asked for; they differ in what orders them
before the limit cuts: the one orders by the stored weight and narrows it to `f32` afterwards, the
other narrows first (`neighbours_agree_iff`). -/

namespace Tellodb

open Relational Collections

section Neighbours

-- `f64 as f32`, into the numbers of `f32`.
variable {V : Type*} (narrow : ℚ → V)

/-- A neighbour: the memory, the weight of its edge as `f32`, and the type of its edge. -/
abbrev EdgeNeighbour (V : Type*) := String × V × String

/-- `?2 IS NULL OR edge_type = ?2` -/
def passesFilter (edgeTypeFilter : Option String) (e : EdgeRow) : Bool :=
  edgeTypeFilter.all fun edgeType => e.edgeType == edgeType

/-! ## One memory -/

/-- `SELECT COUNT(*) FROM (SELECT 1 FROM .. LIMIT ?4 + 1)`: a negative limit is none. -/
def countUpTo (cap : ℤ) (rows : List EdgeRow) : ℤ :=
  if cap + 1 < 0 then rows.length else min (rows.length : ℤ) (cap + 1)

/-- The nodes of a memory's edges, each once for each end of an edge. -/
def endpoints (edges : List EdgeRow) (memoryId : String) : List String :=
  ((edges.filter fun e => e.memoryId = memoryId).map EdgeRow.source ++
    (edges.filter fun e => e.memoryId = memoryId).map EdgeRow.target).filter fun node => node ≠ ""

/-- `seed_nodes`: the ends of the memory's edges that are not hubs. -/
def seedNodes (edges : List EdgeRow) (seedMemoryId : String) (cap : ℤ) : List String :=
  (endpoints edges seedMemoryId).filter fun node =>
    countUpTo cap (edges.filter fun x => x.source = node) +
      countUpTo cap (edges.filter fun y => y.target = node) ≤ cap

/-- The rows that the two joins select. -/
def joinedRows (edges : List EdgeRow) (seedMemoryId : String) (edgeTypeFilter : Option String)
    (nodes : List String) : List EdgeRow :=
  (nodes.flatMap fun node => edges.filter fun e =>
      e.source = node && (decide (e.memoryId ≠ seedMemoryId) && passesFilter edgeTypeFilter e)) ++
    nodes.flatMap fun node => edges.filter fun e =>
      e.target = node && (decide (e.memoryId ≠ seedMemoryId) && passesFilter edgeTypeFilter e)

/-- `ORDER BY weight DESC, memory_id` -/
def EdgeRow.weightKey (e : EdgeRow) : ℚᵒᵈ ×ₗ String :=
  toLex (OrderDual.toDual e.weight, e.memoryId)

/-- A neighbour as it is returned. -/
def EdgeRow.neighbour (e : EdgeRow) : EdgeNeighbour V :=
  (e.memoryId, narrow e.weight, e.edgeType)

/-- `get_edge_cluster_neighbors_typed`. With the largest cap `LIMIT ?4 + 1` is no integer any more,
and the statement fails as soon as it counts the edges of a node. -/
def edgeClusterNeighborsTyped (edges : List EdgeRow) (seedMemoryId : String)
    (edgeTypeFilter : Option String) (limit maxNodeDegree : UInt64) :
    Option (List (EdgeNeighbour V)) :=
  if maxNodeDegree.toInt64 = Int64.maxValue ∧ endpoints edges seedMemoryId ≠ [] then none
  else
    some ((sqlLimit limit.toInt64 (orderBy EdgeRow.weightKey
      (joinedRows edges seedMemoryId edgeTypeFilter
        (seedNodes edges seedMemoryId maxNodeDegree.toInt64.toInt)))).map
        (EdgeRow.neighbour narrow))

/-! ## Many memories -/

/-- `nodes_of` -/
def nodesOf (edges : List EdgeRow) (memoryIds : List String) (memoryId : String) : List String :=
  (memoryIds.toChunks inChunk).flatMap fun ids =>
    (edges.filter fun e => ids.contains e.memoryId && decide (e.memoryId = memoryId)).flatMap
      fun e => [e.source, e.target].filter fun node => node ≠ ""

/-- `unique`: the nodes of all memories, sorted, each once. -/
def uniqueNodes (edges : List EdgeRow) (memoryIds : List String) : List String :=
  (orderBy id (memoryIds.flatMap (nodesOf edges memoryIds))).dedup

/-- `degree`: the edges with the node as source and as target. -/
def degreeOf (edges : List EdgeRow) (unique : List String) (node : String) : ℕ :=
  ((unique.toChunks inChunk).map fun nodes =>
      if nodes.contains node then (edges.filter fun e => e.source = node).length else 0).sum +
    ((unique.toChunks inChunk).map fun nodes =>
      if nodes.contains node then (edges.filter fun e => e.target = node).length else 0).sum

/-- `traversable` -/
def traversableNodes (edges : List EdgeRow) (unique : List String) (maxNodeDegree : UInt64) :
    List String :=
  unique.filter fun node => degreeOf edges unique node ≤ maxNodeDegree.toNat

/-- `incident[slot]`: the edges at a node, as neighbours. -/
def incidentAt (edges : List EdgeRow) (traversable : List String) (edgeTypeFilter : Option String)
    (column : EdgeRow → String) (node : String) : List (EdgeNeighbour V) :=
  (traversable.toChunks inChunk).flatMap fun nodes =>
    (edges.filter fun e => nodes.contains (column e) &&
      (decide (column e = node) && passesFilter edgeTypeFilter e)).map (EdgeRow.neighbour narrow)

/-- The order of the batch: the narrowed weight descending, then the memory. -/
def neighbourKey [LinearOrder V] (n : EdgeNeighbour V) : Vᵒᵈ ×ₗ String :=
  toLex (OrderDual.toDual n.2.1, n.1)

/-- `get_edge_cluster_neighbors_batch`, by memory. -/
def edgeClusterNeighborsBatch [LinearOrder V] (edges : List EdgeRow) (memoryIds : List String)
    (edgeTypeFilter : Option String) (limit maxNodeDegree : UInt64) (memoryId : String) :
    Option (List (EdgeNeighbour V)) :=
  let unique := uniqueNodes edges memoryIds
  let traversable := traversableNodes edges unique maxNodeDegree
  if memoryIds.contains memoryId then
    let rows := (nodesOf edges memoryIds memoryId).flatMap fun node =>
      if traversable.contains node then
        (incidentAt narrow edges traversable edgeTypeFilter EdgeRow.source node ++
          incidentAt narrow edges traversable edgeTypeFilter EdgeRow.target node).filter
            fun n => n.1 ≠ memoryId
      else []
    some ((orderBy neighbourKey rows).take limit.toNat)
  else none

/-! ## The candidates -/

/-- The edges at a node, as source and as target. -/
def degree (edges : List EdgeRow) (node : String) : ℕ :=
  (edges.filter fun e => e.source = node).length + (edges.filter fun e => e.target = node).length

/-- The ends of a memory's edges with so many edges at most. -/
def traversableEnds (edges : List EdgeRow) (memoryId : String) (cap : ℕ) : List String :=
  (endpoints edges memoryId).filter fun node => degree edges node ≤ cap

/-- The edges at the traversable ends of a memory's edges: the candidates of both reads. -/
def incidentTo (edges : List EdgeRow) (memoryId : String) (edgeTypeFilter : Option String)
    (cap : ℕ) : List EdgeRow :=
  joinedRows edges memoryId edgeTypeFilter (traversableEnds edges memoryId cap)

/-- A count that stops above the cap tells a hub as a full count does. -/
theorem seedNodes_eq {edges : List EdgeRow} {memoryId : String} {cap : ℤ} (h : 0 ≤ cap) :
    seedNodes edges memoryId cap = traversableEnds edges memoryId cap.toNat := by
  refine List.filter_congr fun node _ => decide_eq_decide.mpr ?_
  unfold countUpTo degree
  rw [if_neg (by omega), if_neg (by omega)]
  omega

/-- Under a negative cap every node is a hub. -/
theorem seedNodes_of_neg {edges : List EdgeRow} {memoryId : String} {cap : ℤ} (h : cap < 0) :
    seedNodes edges memoryId cap = [] := by
  refine List.filter_eq_nil_iff.mpr fun node _ hnode => ?_
  have hle := of_decide_eq_true hnode
  unfold countUpTo at hle
  split at hle
  · omega
  · omega

section Batch

variable {edges : List EdgeRow} {memoryIds : List String} {memoryId : String}

/-- The two ends of each row are the ends of one side and those of the other. -/
theorem perm_ends {α β : Type*} (rows : List α) (f g : α → β) (p : β → Bool) :
    (rows.flatMap fun a => [f a, g a].filter p).Perm ((rows.map f ++ rows.map g).filter p) := by
  have hends : (rows.flatMap fun a => [f a, g a]).Perm (rows.map f ++ rows.map g) := by
    have happend := List.flatMap_append_perm rows (fun a => [f a]) fun a => [g a]
    rw [List.map_eq_flatMap, List.map_eq_flatMap]
    exact happend.symm
  rw [← List.filter_flatMap]
  exact hends.filter p

/-- The nodes of a memory that is asked for, whatever else is. -/
theorem nodesOf_eq (edges : List EdgeRow) (hids : memoryIds.Nodup) (h : memoryId ∈ memoryIds) :
    nodesOf edges memoryIds memoryId = (edges.filter fun e => e.memoryId = memoryId).flatMap
      fun e => [e.source, e.target].filter fun node => node ≠ "" := by
  rw [← flatMap_toChunks inChunk hids h ((edges.filter fun e => e.memoryId = memoryId).flatMap
    fun e => [e.source, e.target].filter fun node => node ≠ "")]
  unfold nodesOf
  refine List.flatMap_congr fun ids _ => ?_
  by_cases hin : ids.contains memoryId = true
  · rw [if_pos hin]
    refine congrArg (List.flatMap _) (List.filter_congr fun e _ => ?_)
    by_cases he : e.memoryId = memoryId
    · simpa [he] using hin
    · simp [he]
  · rw [if_neg hin, List.filter_eq_nil_iff.mpr]
    · rfl
    · intro e _ hboth
      obtain ⟨hcontains, hsame⟩ := Bool.and_eq_true_iff.mp hboth
      rw [of_decide_eq_true hsame] at hcontains
      exact hin hcontains

/-- A node is listed once, -/
theorem nodup_uniqueNodes (edges : List EdgeRow) (memoryIds : List String) :
    (uniqueNodes edges memoryIds).Nodup :=
  List.nodup_dedup _

/-- and every node of a memory that is asked for is listed. -/
theorem mem_uniqueNodes (h : memoryId ∈ memoryIds) {node : String}
    (hnode : node ∈ nodesOf edges memoryIds memoryId) : node ∈ uniqueNodes edges memoryIds := by
  unfold uniqueNodes
  rw [List.mem_dedup, mem_orderBy]
  exact List.mem_flatMap.mpr ⟨memoryId, h, hnode⟩

/-- The degree of a node does not depend on the other nodes. -/
theorem degreeOf_eq {unique : List String} (hunique : unique.Nodup) {node : String}
    (h : node ∈ unique) : degreeOf edges unique node = degree edges node := by
  unfold degreeOf degree
  rw [sum_toChunks inChunk hunique h, sum_toChunks inChunk hunique h]

/-- A node is traversed if its degree is within the cap. -/
theorem mem_traversableNodes {unique : List String} (hunique : unique.Nodup) {node : String}
    (h : node ∈ unique) (maxNodeDegree : UInt64) :
    node ∈ traversableNodes edges unique maxNodeDegree ↔
      degree edges node ≤ maxNodeDegree.toNat := by
  unfold traversableNodes
  rw [List.mem_filter, degreeOf_eq hunique h]
  simp [h]

/-- Nor do the edges at it. -/
theorem incidentAt_eq {traversable : List String} (htraversable : traversable.Nodup)
    (edgeTypeFilter : Option String) (column : EdgeRow → String) {node : String}
    (h : node ∈ traversable) :
    incidentAt narrow edges traversable edgeTypeFilter column node =
      (edges.filter fun e => decide (column e = node) && passesFilter edgeTypeFilter e).map
        (EdgeRow.neighbour narrow) := by
  rw [← flatMap_toChunks inChunk htraversable h ((edges.filter fun e =>
    decide (column e = node) && passesFilter edgeTypeFilter e).map (EdgeRow.neighbour narrow))]
  unfold incidentAt
  refine List.flatMap_congr fun nodes _ => ?_
  by_cases hin : nodes.contains node = true
  · rw [if_pos hin]
    refine congrArg (List.map _) (List.filter_congr fun e _ => ?_)
    by_cases he : column e = node
    · simpa [he] using fun _ => List.contains_iff_mem.mp hin
    · simp [he]
  · rw [if_neg hin, List.filter_eq_nil_iff.mpr]
    · rfl
    · intro e _ hboth
      obtain ⟨hcontains, hsame⟩ := Bool.and_eq_true_iff.mp hboth
      rw [of_decide_eq_true (Bool.and_eq_true_iff.mp hsame).1] at hcontains
      exact hin hcontains

/-- The edges of one side of a node that lead to other memories. -/
def sideOf (edges : List EdgeRow) (memoryId : String) (edgeTypeFilter : Option String)
    (column : EdgeRow → String) (node : String) : List EdgeRow :=
  edges.filter fun e =>
    column e = node && (decide (e.memoryId ≠ memoryId) && passesFilter edgeTypeFilter e)

/-- What is left of the edges at a node without the memory's own. -/
theorem filter_incidentAt {traversable : List String} (htraversable : traversable.Nodup)
    (edgeTypeFilter : Option String) (column : EdgeRow → String) {node : String}
    (h : node ∈ traversable) :
    ((incidentAt narrow edges traversable edgeTypeFilter column node).filter
        fun n => decide (n.1 ≠ memoryId)) =
      (sideOf edges memoryId edgeTypeFilter column node).map (EdgeRow.neighbour narrow) := by
  rw [incidentAt_eq narrow htraversable edgeTypeFilter column h, List.filter_map,
    List.filter_filter]
  refine congrArg (List.map _) (List.filter_congr fun e _ => ?_)
  exact Bool.and_left_comm _ _ _

/-- The rows of the batch for a memory, whatever else is asked for. -/
theorem batchRows_eq (hids : memoryIds.Nodup) (h : memoryId ∈ memoryIds)
    (edgeTypeFilter : Option String) (maxNodeDegree : UInt64) :
    ((nodesOf edges memoryIds memoryId).flatMap fun node =>
        if (traversableNodes edges (uniqueNodes edges memoryIds) maxNodeDegree).contains node then
          (incidentAt narrow edges
              (traversableNodes edges (uniqueNodes edges memoryIds) maxNodeDegree) edgeTypeFilter
              EdgeRow.source node ++
            incidentAt narrow edges
              (traversableNodes edges (uniqueNodes edges memoryIds) maxNodeDegree) edgeTypeFilter
              EdgeRow.target node).filter fun n => decide (n.1 ≠ memoryId)
        else []) =
      ((((edges.filter fun e => e.memoryId = memoryId).flatMap
        fun e => [e.source, e.target].filter fun node => node ≠ "").filter fun node =>
          decide (degree edges node ≤ maxNodeDegree.toNat)).flatMap fun node =>
            (sideOf edges memoryId edgeTypeFilter EdgeRow.source node ++
              sideOf edges memoryId edgeTypeFilter EdgeRow.target node)).map
                (EdgeRow.neighbour narrow) := by
  have hunique := nodup_uniqueNodes edges memoryIds
  obtain ⟨traversable, htraversable⟩ : ∃ traversable, traversable =
    traversableNodes edges (uniqueNodes edges memoryIds) maxNodeDegree := ⟨_, rfl⟩
  have hnodup : traversable.Nodup := by
    rw [htraversable]
    exact hunique.filter _
  -- A node of the memory is counted, so its degree decides.
  have hmem : ∀ node ∈ nodesOf edges memoryIds memoryId,
      (node ∈ traversable ↔ degree edges node ≤ maxNodeDegree.toNat) := by
    intro node hnode
    rw [htraversable]
    exact mem_traversableNodes hunique (mem_uniqueNodes h hnode) maxNodeDegree
  rw [← htraversable, ← nodesOf_eq edges hids h, List.map_flatMap]
  revert hmem
  generalize nodesOf edges memoryIds memoryId = nodes
  intro hmem
  -- The induction is on the ends of the memory's edges.
  induction nodes with
  | nil => rfl
  | cons node rest ih =>
    have hrest := ih fun other hother => hmem other (List.mem_cons_of_mem _ hother)
    have hnode := hmem node List.mem_cons_self
    rw [List.flatMap_cons, List.filter_cons, hrest]
    by_cases hin : node ∈ traversable
    · rw [if_pos (List.contains_iff_mem.mpr hin), if_pos (decide_eq_true (hnode.mp hin)),
        List.flatMap_cons, List.filter_append,
        filter_incidentAt narrow hnodup edgeTypeFilter EdgeRow.source hin,
        filter_incidentAt narrow hnodup edgeTypeFilter EdgeRow.target hin, List.map_append]
    · rw [if_neg fun hcontains => hin (List.contains_iff_mem.mp hcontains),
        if_neg fun hle => hin (hnode.mpr (of_decide_eq_true hle)), List.nil_append]

/-- The rows of the batch are the candidates, narrowed. -/
theorem perm_batchRows (hids : memoryIds.Nodup) (h : memoryId ∈ memoryIds)
    (edgeTypeFilter : Option String) (maxNodeDegree : UInt64) :
    ((nodesOf edges memoryIds memoryId).flatMap fun node =>
        if (traversableNodes edges (uniqueNodes edges memoryIds) maxNodeDegree).contains node then
          (incidentAt narrow edges
              (traversableNodes edges (uniqueNodes edges memoryIds) maxNodeDegree) edgeTypeFilter
              EdgeRow.source node ++
            incidentAt narrow edges
              (traversableNodes edges (uniqueNodes edges memoryIds) maxNodeDegree) edgeTypeFilter
              EdgeRow.target node).filter fun n => decide (n.1 ≠ memoryId)
        else []).Perm
      ((incidentTo edges memoryId edgeTypeFilter maxNodeDegree.toNat).map
        (EdgeRow.neighbour narrow)) := by
  rw [batchRows_eq narrow hids h]
  refine List.Perm.map _ ?_
  have hends := (perm_ends (edges.filter fun e => e.memoryId = memoryId) EdgeRow.source
    EdgeRow.target fun node => node ≠ "").filter fun node =>
      decide (degree edges node ≤ maxNodeDegree.toNat)
  refine (hends.flatMap_right _).trans ?_
  exact (List.flatMap_append_perm _ _ _).symm

/-- What the batch returns for a memory does not depend on what else is asked for. -/
theorem batch_eq_alone [LinearOrder V] (hids : memoryIds.Nodup) (h : memoryId ∈ memoryIds)
    (edgeTypeFilter : Option String) (limit maxNodeDegree : UInt64) :
    edgeClusterNeighborsBatch narrow edges memoryIds edgeTypeFilter limit maxNodeDegree memoryId =
      edgeClusterNeighborsBatch narrow edges [memoryId] edgeTypeFilter limit maxNodeDegree
        memoryId := by
  unfold edgeClusterNeighborsBatch
  rw [if_pos (List.contains_iff_mem.mpr h),
    if_pos (List.contains_iff_mem.mpr (List.mem_singleton_self memoryId)),
    batchRows_eq narrow hids h,
    batchRows_eq narrow (List.nodup_singleton memoryId) (List.mem_singleton_self memoryId)]

/-- It returns something for every memory that is asked for, and for no other. -/
theorem isSome_batch [LinearOrder V] (edgeTypeFilter : Option String)
    (limit maxNodeDegree : UInt64) :
    (edgeClusterNeighborsBatch narrow edges memoryIds edgeTypeFilter limit maxNodeDegree
      memoryId).isSome = true ↔ memoryId ∈ memoryIds := by
  unfold edgeClusterNeighborsBatch
  by_cases h : memoryIds.contains memoryId = true
  · rw [if_pos h]
    exact iff_of_true rfl (List.contains_iff_mem.mp h)
  · rw [if_neg h]
    exact iff_of_false Bool.false_ne_true fun hmem => h (List.contains_iff_mem.mpr hmem)

end Batch

/-! ## What both return -/

/-- What is compared: the memory and the weight. -/
def pairOf (n : EdgeNeighbour V) : String × V := (n.1, n.2.1)

/-- Both reads answer, with the same memories and weights, as often. -/
def SameNeighbours (one many : Option (List (EdgeNeighbour V))) : Prop :=
  ∃ rows rows', one = some rows ∧ many = some rows' ∧ (rows.map pairOf).Perm (rows'.map pairOf)

/-- The order key of a neighbour says as much as its memory and its weight. -/
theorem perm_pairOf_iff [LinearOrder V] {rows rows' : List (EdgeNeighbour V)} :
    (rows.map pairOf).Perm (rows'.map pairOf) ↔
      (rows.map neighbourKey).Perm (rows'.map neighbourKey) := by
  have hkeys : ∀ rows : List (EdgeNeighbour V), rows.map neighbourKey =
      (rows.map pairOf).map fun pair => toLex (OrderDual.toDual pair.2, pair.1) := by
    intro rows
    rw [List.map_map]
    rfl
  have hpairs : ∀ rows : List (EdgeNeighbour V), rows.map pairOf =
      (rows.map neighbourKey).map fun key =>
        ((ofLex key).2, OrderDual.ofDual (ofLex key).1) := by
    intro rows
    rw [List.map_map]
    rfl
  constructor
  · intro h
    rw [hkeys, hkeys rows']
    exact h.map _
  · intro h
    rw [hpairs, hpairs rows']
    exact h.map _

/-- The limit does not part candidates whose weights `f32` cannot tell apart, against the order of
their memories. A limit that SQLite reads as none must be as large as the list is long. -/
structure CutAlike (edges : List EdgeRow) (memoryId : String) (edgeTypeFilter : Option String)
    (limit maxNodeDegree : UInt64) : Prop where
  order : ∀ a ∈ (orderBy EdgeRow.weightKey
      (incidentTo edges memoryId edgeTypeFilter maxNodeDegree.toNat)).take limit.toNat,
    ∀ b ∈ (orderBy EdgeRow.weightKey
      (incidentTo edges memoryId edgeTypeFilter maxNodeDegree.toNat)).drop limit.toNat,
    narrow a.weight = narrow b.weight → a.memoryId ≤ b.memoryId
  length : 2 ^ 63 ≤ limit.toNat →
    (incidentTo edges memoryId edgeTypeFilter maxNodeDegree.toNat).length ≤ limit.toNat

/-- Narrowed, a candidate comes after one of a larger weight, unless their narrowed weights are the
same and their memories are the other way round. -/
theorem neighbourKey_le_iff [LinearOrder V] {narrow : ℚ → V} (hnarrow : Monotone narrow)
    {a b : EdgeRow} (h : a.weightKey ≤ b.weightKey) :
    neighbourKey (a.neighbour narrow) ≤ neighbourKey (b.neighbour narrow) ↔
      (narrow a.weight = narrow b.weight → a.memoryId ≤ b.memoryId) := by
  have hweights : b.weight ≤ a.weight := by
    rcases Prod.Lex.le_iff.mp h with hlt | ⟨heq, -⟩
    · exact (OrderDual.toDual_lt_toDual.mp hlt).le
    · exact (OrderDual.toDual_inj.mp heq).ge
  have hle : narrow b.weight ≤ narrow a.weight := hnarrow hweights
  unfold neighbourKey
  rw [Prod.Lex.toLex_le_toLex]
  constructor
  · rintro (hlt | ⟨-, hmemory⟩) heq
    · exact absurd heq (OrderDual.toDual_lt_toDual.mp hlt).ne'
    · exact hmemory
  · intro hsame
    rcases hle.lt_or_eq with hlt | heq
    · exact .inl (OrderDual.toDual_lt_toDual.mpr hlt)
    · exact .inr ⟨OrderDual.toDual_inj.mpr heq.symm, hsame heq.symm⟩

/-- What the batch returns for a memory that it is asked for. -/
theorem batch_eq [LinearOrder V] (narrow : ℚ → V) (edges : List EdgeRow) {memoryIds : List String}
    (hids : memoryIds.Nodup) {memoryId : String} (h : memoryId ∈ memoryIds)
    (edgeTypeFilter : Option String) (limit maxNodeDegree : UInt64) :
    ∃ rows, rows.Perm ((incidentTo edges memoryId edgeTypeFilter maxNodeDegree.toNat).map
        (EdgeRow.neighbour narrow)) ∧
      edgeClusterNeighborsBatch narrow edges memoryIds edgeTypeFilter limit maxNodeDegree memoryId =
        some ((orderBy neighbourKey rows).take limit.toNat) := by
  refine ⟨_, perm_batchRows narrow hids h edgeTypeFilter maxNodeDegree, ?_⟩
  unfold edgeClusterNeighborsBatch
  exact if_pos (List.contains_iff_mem.mpr h)

/-- Below the largest caps both reads order and cut the candidates. -/
theorem sameNeighbours_iff_cutAlike [LinearOrder V] {narrow : ℚ → V} (hnarrow : Monotone narrow)
    (edges : List EdgeRow) (memoryId : String) (edgeTypeFilter : Option String)
    (limit maxNodeDegree : UInt64) {rows : List (EdgeNeighbour V)}
    (hrows : rows.Perm ((incidentTo edges memoryId edgeTypeFilter maxNodeDegree.toNat).map
      (EdgeRow.neighbour narrow))) :
    ((((sqlLimit limit.toInt64 (orderBy EdgeRow.weightKey
        (incidentTo edges memoryId edgeTypeFilter maxNodeDegree.toNat))).map
          (EdgeRow.neighbour narrow)).map pairOf).Perm
        (((orderBy neighbourKey rows).take limit.toNat).map pairOf)) ↔
      CutAlike narrow edges memoryId edgeTypeFilter limit maxNodeDegree := by
  obtain ⟨candidates, hcandidates⟩ : ∃ candidates, candidates =
    incidentTo edges memoryId edgeTypeFilter maxNodeDegree.toNat := ⟨_, rfl⟩
  have hlength : rows.length = candidates.length := by
    rw [hrows.length_eq, List.length_map, hcandidates]
  have hsigned := Machine.toInt_toInt64_eq limit
  rw [perm_pairOf_iff, List.map_map, ← hcandidates]
  have hkeys : (candidates.map (neighbourKey ∘ EdgeRow.neighbour narrow)).Perm
      (rows.map neighbourKey) := by
    rw [← List.map_map, hcandidates]
    exact (hrows.map neighbourKey).symm
  have hcut := perm_take_orderBy_iff EdgeRow.weightKey hkeys limit.toNat
  have hsorted := orderBy_pairwise_le EdgeRow.weightKey candidates
  rw [← List.take_append_drop limit.toNat (orderBy EdgeRow.weightKey candidates)] at hsorted
  -- Narrowing keeps the order of the weights, so only ties have to be compared.
  have horder : (∀ a ∈ (orderBy EdgeRow.weightKey candidates).take limit.toNat,
      ∀ b ∈ (orderBy EdgeRow.weightKey candidates).drop limit.toNat,
        (neighbourKey ∘ EdgeRow.neighbour narrow) a ≤
          (neighbourKey ∘ EdgeRow.neighbour narrow) b) ↔
      ∀ a ∈ (orderBy EdgeRow.weightKey candidates).take limit.toNat,
        ∀ b ∈ (orderBy EdgeRow.weightKey candidates).drop limit.toNat,
          narrow a.weight = narrow b.weight → a.memoryId ≤ b.memoryId :=
    forall₂_congr fun a ha => forall₂_congr fun b hb =>
      neighbourKey_le_iff hnarrow ((List.pairwise_append.mp hsorted).2.2 a ha b hb)
  unfold sqlLimit
  -- A limit of less than 2^63 is the same on both sides.
  by_cases hsmall : limit.toNat < 2 ^ 63
  · rw [if_pos hsmall] at hsigned
    have hnonneg : ¬ limit.toInt64 < 0 := by
      rw [Int64.lt_iff_toInt_lt, hsigned]
      exact not_lt.mpr (Int.natCast_nonneg _)
    rw [if_neg hnonneg, hsigned, Int.toNat_natCast, hcut, horder, hcandidates]
    exact ⟨fun halike => ⟨halike, fun hlarge => absurd hlarge (not_le.mpr hsmall)⟩,
      CutAlike.order⟩
  · -- SQLite reads the limit as none, and the batch cuts at it.
    rw [if_neg hsmall] at hsigned
    have hneg : limit.toInt64 < 0 := by
      have hlt := limit.toNat_lt
      rw [Int64.lt_iff_toInt_lt, hsigned]
      change (limit.toNat : ℤ) - 2 ^ 64 < 0
      omega
    rw [if_pos hneg]
    constructor
    · intro hperm
      have hle := hperm.length_eq
      simp only [List.length_map, List.length_take, (orderBy_perm _ _).length_eq, hlength] at hle
      have hall : candidates.length ≤ limit.toNat := by omega
      rw [hcandidates] at hall
      refine ⟨fun a _ b hb => ?_, fun _ => hall⟩
      rw [List.drop_eq_nil_of_le ((orderBy_perm _ _).length_eq.trans_le hall)] at hb
      cases hb
    · intro halike
      have hall := halike.length (not_lt.mp hsmall)
      rw [← hcandidates] at hall
      have htake := hcut.mpr (horder.mpr (by rw [hcandidates]; exact halike.order))
      rw [List.take_of_length_le ((orderBy_perm _ _).length_eq.trans_le hall)] at htake
      exact htake

/-- Under a cap below the largest `i64` the one statement orders and cuts the candidates. -/
theorem typed_of_lt (narrow : ℚ → V) (edges : List EdgeRow) (memoryId : String)
    (edgeTypeFilter : Option String) (limit : UInt64) {maxNodeDegree : UInt64}
    (h : maxNodeDegree.toNat < 2 ^ 63 - 1) :
    edgeClusterNeighborsTyped narrow edges memoryId edgeTypeFilter limit maxNodeDegree =
      some ((sqlLimit limit.toInt64 (orderBy EdgeRow.weightKey
        (incidentTo edges memoryId edgeTypeFilter maxNodeDegree.toNat))).map
          (EdgeRow.neighbour narrow)) := by
  have hsigned := Machine.toInt_toInt64_eq maxNodeDegree
  rw [if_pos (by omega)] at hsigned
  have hmax : maxNodeDegree.toInt64 ≠ Int64.maxValue := by
    intro hmax
    rw [hmax, Int64.toInt_maxValue] at hsigned
    omega
  unfold edgeClusterNeighborsTyped
  rw [if_neg fun hboth => hmax hboth.1, hsigned, seedNodes_eq (Int.natCast_nonneg _),
    Int.toNat_natCast]
  rfl

/-- Under the largest `i64` the one statement fails, unless there is no node to count for. -/
theorem typed_of_eq (narrow : ℚ → V) (edges : List EdgeRow) (memoryId : String)
    (edgeTypeFilter : Option String) (limit : UInt64) {maxNodeDegree : UInt64}
    (h : maxNodeDegree.toNat = 2 ^ 63 - 1) :
    edgeClusterNeighborsTyped narrow edges memoryId edgeTypeFilter limit maxNodeDegree =
      if endpoints edges memoryId = [] then some [] else none := by
  have hmax : maxNodeDegree.toInt64 = Int64.maxValue := by
    rw [← Int64.toInt_inj, Machine.toInt_toInt64_eq, if_pos (by omega), Int64.toInt_maxValue, h]
    rfl
  unfold edgeClusterNeighborsTyped
  by_cases hends : endpoints edges memoryId = []
  · have hseeds : seedNodes edges memoryId maxNodeDegree.toInt64.toInt = [] := by
      unfold seedNodes
      rw [hends]
      rfl
    rw [if_neg fun hboth => hboth.2 hends, if_pos hends, hseeds]
    unfold sqlLimit
    split
    · simp [joinedRows, orderBy]
    · simp [joinedRows, orderBy]
  · rw [if_pos ⟨hmax, hends⟩, if_neg hends]

/-- A larger cap is a negative number to SQLite, and leaves the one statement without nodes. -/
theorem typed_of_gt (narrow : ℚ → V) (edges : List EdgeRow) (memoryId : String)
    (edgeTypeFilter : Option String) (limit : UInt64) {maxNodeDegree : UInt64}
    (h : 2 ^ 63 - 1 < maxNodeDegree.toNat) :
    edgeClusterNeighborsTyped narrow edges memoryId edgeTypeFilter limit maxNodeDegree =
      some [] := by
  have hneg : maxNodeDegree.toInt64.toInt < 0 := by
    have hlt := maxNodeDegree.toNat_lt
    rw [Machine.toInt_toInt64_eq, if_neg (by omega)]
    omega
  have hmax : maxNodeDegree.toInt64 ≠ Int64.maxValue := by
    intro hmax
    rw [hmax, Int64.toInt_maxValue] at hneg
    omega
  unfold edgeClusterNeighborsTyped
  rw [if_neg fun hboth => hmax hboth.1, seedNodes_of_neg hneg]
  unfold sqlLimit
  split
  · rfl
  · simp [joinedRows, orderBy]

/-- The batch answers nothing if it may not answer or has nothing to answer. -/
theorem take_batch_eq_nil [LinearOrder V] {narrow : ℚ → V} {candidates : List EdgeRow}
    {rows : List (EdgeNeighbour V)} (hrows : rows.Perm (candidates.map (EdgeRow.neighbour narrow)))
    (limit : UInt64) :
    (orderBy neighbourKey rows).take limit.toNat = [] ↔ limit = 0 ∨ candidates = [] := by
  rw [List.take_eq_nil_iff, orderBy_eq_nil, ← UInt64.toNat_inj]
  refine or_congr Iff.rfl ⟨fun hnil => ?_, fun hnil => ?_⟩
  · rw [hnil] at hrows
    exact List.map_eq_nil_iff.mp hrows.nil_eq.symm
  · rw [hnil] at hrows
    exact hrows.eq_nil

/-- Both reads answer, and one of them nothing: they agree exactly if the other one does so too. -/
theorem sameNeighbours_nil {rows : List (EdgeNeighbour V)} :
    SameNeighbours (some []) (some rows) ↔ rows = [] := by
  constructor
  · rintro ⟨one, many, hone, hmany, hperm⟩
    obtain rfl := Option.some.inj hone
    obtain rfl := Option.some.inj hmany
    exact List.map_eq_nil_iff.mp hperm.nil_eq.symm
  · rintro rfl
    exact ⟨[], [], rfl, rfl, List.Perm.refl _⟩

/-- For every edge table, list of distinct memories, filter, limit and cap: both reads return the
same neighbours of a memory exactly if the cap is below the largest `i64` and the limit parts no
candidates that only `f64` tells apart, or the cap is larger and there is nothing to return. -/
theorem neighbours_agree_iff [LinearOrder V] {narrow : ℚ → V} (hnarrow : Monotone narrow)
    (edges : List EdgeRow) {memoryIds : List String} (hids : memoryIds.Nodup) {memoryId : String}
    (h : memoryId ∈ memoryIds) (edgeTypeFilter : Option String) (limit maxNodeDegree : UInt64) :
    SameNeighbours
        (edgeClusterNeighborsTyped narrow edges memoryId edgeTypeFilter limit maxNodeDegree)
        (edgeClusterNeighborsBatch narrow edges memoryIds edgeTypeFilter limit maxNodeDegree
          memoryId) ↔
      (maxNodeDegree.toNat < 2 ^ 63 - 1 ∧
        CutAlike narrow edges memoryId edgeTypeFilter limit maxNodeDegree) ∨
      (maxNodeDegree.toNat = 2 ^ 63 - 1 ∧ endpoints edges memoryId = []) ∨
      (2 ^ 63 ≤ maxNodeDegree.toNat ∧
        (limit = 0 ∨ incidentTo edges memoryId edgeTypeFilter maxNodeDegree.toNat = [])) := by
  obtain ⟨rows, hrows, hbatch⟩ := batch_eq narrow edges hids h edgeTypeFilter limit maxNodeDegree
  rw [hbatch]
  -- The cap as SQLite reads it is the cap, the largest integer or a negative number.
  rcases Nat.lt_trichotomy maxNodeDegree.toNat (2 ^ 63 - 1) with hsmall | hcap | hlarge
  · rw [typed_of_lt narrow edges memoryId edgeTypeFilter limit hsmall]
    have hcut := sameNeighbours_iff_cutAlike hnarrow edges memoryId edgeTypeFilter limit
      maxNodeDegree hrows
    constructor
    · rintro ⟨one, many, hone, hmany, hperm⟩
      obtain rfl := Option.some.inj hone
      obtain rfl := Option.some.inj hmany
      exact .inl ⟨hsmall, hcut.mp hperm⟩
    · rintro (⟨-, halike⟩ | ⟨hcap, -⟩ | ⟨hlarge, -⟩)
      · exact ⟨_, _, rfl, rfl, hcut.mpr halike⟩
      · omega
      · omega
  · rw [typed_of_eq narrow edges memoryId edgeTypeFilter limit hcap]
    by_cases hends : endpoints edges memoryId = []
    · -- Without a node there is nothing for either read.
      have hnone : incidentTo edges memoryId edgeTypeFilter maxNodeDegree.toNat = [] := by
        unfold incidentTo traversableEnds
        rw [hends]
        rfl
      rw [if_pos hends, sameNeighbours_nil, take_batch_eq_nil hrows]
      exact iff_of_true (.inr hnone) (.inr (.inl ⟨hcap, hends⟩))
    · rw [if_neg hends]
      refine iff_of_false ?_ ?_
      · rintro ⟨one, many, hone, -⟩
        cases hone
      · rintro (⟨hsmall, -⟩ | ⟨-, hnil⟩ | ⟨hlarge, -⟩)
        · omega
        · exact hends hnil
        · omega
  · rw [typed_of_gt narrow edges memoryId edgeTypeFilter limit hlarge, sameNeighbours_nil,
      take_batch_eq_nil hrows]
    constructor
    · exact fun hnothing => .inr (.inr ⟨by omega, hnothing⟩)
    · rintro (⟨hsmall, -⟩ | ⟨hcap, -⟩ | ⟨-, hnothing⟩)
      · omega
      · omega
      · exact hnothing

end Neighbours

/-- `f64 as f32` from 1 to 2, where `f32` has a number every `2^-23`: the nearest one. -/
def narrowAboveOne (w : ℚ) : ℚ := (⌊w * 2 ^ 23 + 1 / 2⌋ : ℚ) / 2 ^ 23

/-- Narrowing keeps the order of the weights. -/
theorem narrowAboveOne_mono : Monotone narrowAboveOne := by
  intro a b h
  have hshift : a * 2 ^ 23 + 1 / 2 ≤ b * 2 ^ 23 + 1 / 2 := by linarith
  have hfloor : ((⌊a * 2 ^ 23 + 1 / 2⌋ : ℤ) : ℚ) ≤ (⌊b * 2 ^ 23 + 1 / 2⌋ : ℤ) :=
    Int.cast_le.mpr (Int.floor_le_floor hshift)
  exact div_le_div_of_nonneg_right hfloor (by norm_num)

/-- An edge from a node to a leaf of its own. -/
def edgeOf (memoryId leaf : String) (weight : ℚ) : EdgeRow :=
  ⟨memoryId ++ "::e", "ann", leaf, "knows", "", weight, .current, none, none, 0, memoryId⟩

/-- Three memories that mention one node: the second one's edge is the heavier one, by less than
`f32` can tell. -/
def closeEdges : List EdgeRow :=
  [edgeOf "m0" "x" 1, edgeOf "m1" "y" 1, edgeOf "m2" "z" (1 + 1 / 2 ^ 30)]

/-- The three memories are read at once, with room for all neighbours. -/
theorem neighbours_agree_wide :
    SameNeighbours
        (edgeClusterNeighborsTyped narrowAboveOne closeEdges "m0" none 2 40)
        (edgeClusterNeighborsBatch narrowAboveOne closeEdges ["m0", "m1", "m2"] none 2 40 "m0") ↔
      ((40 : UInt64).toNat < 2 ^ 63 - 1 ∧
        CutAlike narrowAboveOne closeEdges "m0" none 2 40) ∨
      ((40 : UInt64).toNat = 2 ^ 63 - 1 ∧ endpoints closeEdges "m0" = []) ∨
      (2 ^ 63 ≤ (40 : UInt64).toNat ∧
        ((2 : UInt64) = 0 ∨ incidentTo closeEdges "m0" none (40 : UInt64).toNat = [])) :=
  neighbours_agree_iff narrowAboveOne_mono closeEdges
    (show ["m0", "m1", "m2"].Nodup by decide) (by decide) none 2 40

/-- Cut after one, the one read keeps the heavier edge and the other the first memory. -/
theorem neighbours_apart :
    ¬ SameNeighbours
        (edgeClusterNeighborsTyped narrowAboveOne closeEdges "m0" none 1 40)
        (edgeClusterNeighborsBatch narrowAboveOne closeEdges ["m0"] none 1 40 "m0") := by
  have hone : (edgeClusterNeighborsTyped narrowAboveOne closeEdges "m0" none 1 40).map
      (List.map Prod.fst) = some ["m2"] := by
    decide +kernel
  have hmany : (edgeClusterNeighborsBatch narrowAboveOne closeEdges ["m0"] none 1 40 "m0").map
      (List.map Prod.fst) = some ["m1"] := by
    decide +kernel
  rintro ⟨one, many, hone', hmany', hperm⟩
  rw [hone'] at hone
  rw [hmany'] at hmany
  have hmemories := hperm.map Prod.fst
  rw [List.map_map, List.map_map] at hmemories
  change (one.map Prod.fst).Perm (many.map Prod.fst) at hmemories
  rw [Option.some.inj hone, Option.some.inj hmany] at hmemories
  exact absurd (List.singleton_perm_singleton.mp hmemories) (by decide)

end Tellodb
