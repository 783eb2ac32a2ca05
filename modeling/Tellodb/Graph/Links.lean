import Mathlib.Algebra.Order.Ring.Rat
import Mathlib.Order.Interval.Finset.Nat
import Tellodb.Collections.Tally
import Tellodb.Relational.Recursive
import Tellodb.Storage.Tenant

/-!
# Scores over links

`get_link_cluster_scores` of `storage/repo/graph.rs` scores the memories around a seed with one
recursive query over the links, which are followed in both directions. The rows of the query carry
the depth and a weight that goes down with it; since it is a `UNION` a memory has one row for each
depth at which it is reached, however many links and ways lead to it there. So the score of a memory
is a sum over depths (`lookup_linkClusterScores`), and how the links are stored makes no
difference. -/

namespace Tellodb

open Relational Collections

/-! ## The query -/

/-- `path_weight * 0.6` -/
def linkDecay : ℚ := 3 / 5

/-- A row of `bfs`. -/
structure BfsRow where
  node : String
  depth : ℕ
  pathWeight : ℚ
  deriving DecidableEq

/-- `get_linked_memories` -/
def getLinkedMemories (links : List MemoryLinkRow) (memoryId : String) : List String :=
  ((links.filter fun link => link.sourceMemoryId = memoryId).map MemoryLinkRow.targetMemoryId) ++
    (links.filter fun link => link.targetMemoryId = memoryId).map MemoryLinkRow.sourceMemoryId

/-- The recursive select: the links of a memory, each to its other end. -/
def bfsStep (links : List MemoryLinkRow) (maxDepth : ℤ) (row : BfsRow) : List BfsRow :=
  if (row.depth : ℤ) < maxDepth then
    (links.filter fun link =>
      link.sourceMemoryId = row.node || link.targetMemoryId = row.node).map fun link =>
        { node :=
            if link.sourceMemoryId = row.node then link.targetMemoryId else link.sourceMemoryId
          depth := row.depth + 1
          pathWeight := row.pathWeight * linkDecay }
  else []

/-- The rows that `bfs` can have at most: a memory of a link, or the seed, at each depth. -/
def bfsBound (links : List MemoryLinkRow) (maxDepth : ℤ) : ℕ :=
  (maxDepth.toNat + 1) * (2 * links.length + 1)

/-- `get_link_cluster_scores` -/
def getLinkClusterScores (links : List MemoryLinkRow) (seedMemoryId : String)
    (maxDepth : UInt64) : List (String × ℚ) :=
  let depth := maxDepth.toInt64.toInt
  let rows := recursiveUnion (bfsStep links depth) (bfsBound links depth) 0
    [⟨seedMemoryId, 0, 1⟩]
  tally [] ((rows.filter fun row => 0 < row.depth).map fun row => (row.node, row.pathWeight))

/-! ## The rows -/

variable {links : List MemoryLinkRow} {maxDepth : ℤ} {seed : String}

/-- The row of a memory at a depth. -/
def bfsRow (node : String) (depth : ℕ) : BfsRow :=
  ⟨node, depth, linkDecay ^ depth⟩

/-- Below the last depth a row leads to those of the linked memories, one deeper. -/
theorem mem_bfsStep {node : String} {depth : ℕ} {row : BfsRow} :
    row ∈ bfsStep links maxDepth (bfsRow node depth) ↔ depth < maxDepth.toNat ∧
      ∃ other ∈ getLinkedMemories links node, row = bfsRow other (depth + 1) := by
  unfold bfsStep bfsRow
  dsimp only
  -- The recursion stops at the depth.
  by_cases hdepth : (depth : ℤ) < maxDepth
  · rw [if_pos hdepth, List.mem_map, and_iff_right (by omega)]
    constructor
    · rintro ⟨link, hlink, rfl⟩
      obtain ⟨hmem, hends⟩ := List.mem_filter.mp hlink
      refine ⟨_, ?_, by rw [pow_succ]⟩
      unfold getLinkedMemories
      rw [List.mem_append, List.mem_map, List.mem_map]
      -- A link leads to its other end, whichever end the node is.
      by_cases hsource : link.sourceMemoryId = node
      · rw [if_pos hsource]
        exact .inl ⟨link, List.mem_filter.mpr ⟨hmem, decide_eq_true hsource⟩, rfl⟩
      · rw [if_neg hsource]
        have htarget : link.targetMemoryId = node := by simpa [hsource] using hends
        exact .inr ⟨link, List.mem_filter.mpr ⟨hmem, decide_eq_true htarget⟩, rfl⟩
    · rintro ⟨other, hother, rfl⟩
      unfold getLinkedMemories at hother
      rw [List.mem_append, List.mem_map, List.mem_map] at hother
      rcases hother with ⟨link, hlink, rfl⟩ | ⟨link, hlink, rfl⟩
      · obtain ⟨hmem, hsource⟩ := List.mem_filter.mp hlink
        have hsource := of_decide_eq_true hsource
        refine ⟨link, List.mem_filter.mpr ⟨hmem, by simp [hsource]⟩, ?_⟩
        rw [if_pos hsource, pow_succ]
      · obtain ⟨hmem, htarget⟩ := List.mem_filter.mp hlink
        have htarget := of_decide_eq_true htarget
        refine ⟨link, List.mem_filter.mpr ⟨hmem, by simp [htarget]⟩, ?_⟩
        by_cases hsource : link.sourceMemoryId = node
        · rw [if_pos hsource, pow_succ, htarget, hsource]
        · rw [if_neg hsource, pow_succ]
  · rw [if_neg hdepth]
    exact iff_of_false List.not_mem_nil fun h => absurd h.1 (by omega)

/-- The rows that come of the seed are those of the levels around it. -/
theorem derived_bfs_iff {row : BfsRow} :
    Derived (bfsStep links maxDepth) [bfsRow seed 0] row ↔ ∃ depth ≤ maxDepth.toNat,
      ∃ node ∈ level (getLinkedMemories links) seed depth, row = bfsRow node depth := by
  constructor
  · rintro ⟨first, hfirst, hreach⟩
    obtain rfl := List.mem_singleton.mp hfirst
    induction hreach with
    | refl => exact ⟨0, Nat.zero_le _, seed, Finset.mem_singleton_self seed, rfl⟩
    | tail _ hstep ih =>
      obtain ⟨depth, -, node, hnode, rfl⟩ := ih
      obtain ⟨hdepth, other, hother, rfl⟩ := mem_bfsStep.mp hstep
      refine ⟨depth + 1, hdepth, other, ?_, rfl⟩
      exact Finset.mem_biUnion.mpr ⟨node, hnode, List.mem_toFinset.mpr hother⟩
  · rintro ⟨depth, hdepth, node, hnode, rfl⟩
    refine ⟨_, List.mem_singleton_self _, ?_⟩
    induction depth generalizing node with
    | zero =>
      rw [Finset.mem_singleton.mp hnode]
    | succ depth ih =>
      obtain ⟨before, hbefore, hlinked⟩ := Finset.mem_biUnion.mp hnode
      refine (ih (by omega) before hbefore).tail ?_
      exact mem_bfsStep.mpr ⟨hdepth, node, List.mem_toFinset.mp hlinked, rfl⟩

/-- The seed and the memories of the links. -/
def bfsNodes (links : List MemoryLinkRow) (seed : String) : List String :=
  seed :: (links.map MemoryLinkRow.targetMemoryId ++ links.map MemoryLinkRow.sourceMemoryId)

/-- What is reached at some depth is among the nodes of the search. -/
theorem mem_bfsNodes_of_mem_level {depth : ℕ} {node : String}
    (h : node ∈ level (getLinkedMemories links) seed depth) : node ∈ bfsNodes links seed := by
  cases depth with
  | zero =>
    rw [Finset.mem_singleton.mp h]
    exact List.mem_cons_self
  | succ depth =>
    obtain ⟨before, -, hlinked⟩ := Finset.mem_biUnion.mp h
    have hlinked := List.mem_toFinset.mp hlinked
    unfold getLinkedMemories at hlinked
    refine List.mem_cons_of_mem _ (List.mem_append.mpr ?_)
    refine (List.mem_append.mp hlinked).imp (fun h => ?_) fun h => ?_
    · exact (List.map_subset _ (List.filter_subset_self _)) h
    · exact (List.map_subset _ (List.filter_subset_self _)) h

/-- The query ends with the rows of the levels, each once. -/
theorem bfs_spec (links : List MemoryLinkRow) (maxDepth : ℤ) (seed : String) :
    (recursiveUnion (bfsStep links maxDepth) (bfsBound links maxDepth) 0 [⟨seed, 0, 1⟩]).Nodup ∧
      ∀ row, row ∈ recursiveUnion (bfsStep links maxDepth) (bfsBound links maxDepth) 0
          [⟨seed, 0, 1⟩] ↔ ∃ depth ≤ maxDepth.toNat,
        ∃ node ∈ level (getLinkedMemories links) seed depth, row = bfsRow node depth := by
  have hseed : (⟨seed, 0, 1⟩ : BfsRow) = bfsRow seed 0 := by
    unfold bfsRow
    rw [pow_zero]
  rw [hseed]
  -- What is derived is a node at a depth, and there are finitely many of both.
  have hspace : ∀ row, Derived (bfsStep links maxDepth) [bfsRow seed 0] row →
      row ∈ (Finset.range (maxDepth.toNat + 1) ×ˢ (bfsNodes links seed).toFinset).image
        fun place => bfsRow place.2 place.1 := by
    intro row hrow
    obtain ⟨depth, hdepth, node, hnode, rfl⟩ := derived_bfs_iff.mp hrow
    refine Finset.mem_image.mpr ⟨(depth, node), Finset.mem_product.mpr ⟨?_, ?_⟩, rfl⟩
    · exact Finset.mem_range.mpr (Nat.lt_succ_of_le hdepth)
    · exact List.mem_toFinset.mpr (mem_bfsNodes_of_mem_level hnode)
  have hcard : ((Finset.range (maxDepth.toNat + 1) ×ˢ (bfsNodes links seed).toFinset).image
      fun place => bfsRow place.2 place.1).card ≤ bfsBound links maxDepth := by
    refine Finset.card_image_le.trans ?_
    rw [Finset.card_product, Finset.card_range]
    have hnodes := List.toFinset_card_le (bfsNodes links seed)
    have hlength : (bfsNodes links seed).length = 2 * links.length + 1 := by
      unfold bfsNodes
      rw [List.length_cons, List.length_append, List.length_map, List.length_map]
      omega
    rw [hlength] at hnodes
    exact Nat.mul_le_mul_left _ hnodes
  -- The bound is large enough, so the rows are all that is derived.
  obtain ⟨hnodup, hmem⟩ := mem_recursiveUnion (List.nodup_singleton _) hspace hcard
  exact ⟨hnodup, fun row => (hmem row).trans derived_bfs_iff⟩

/-! ## The scores -/

/-- The depths, after the seed's own, at which a memory is reached. -/
def linkDepths (links : List MemoryLinkRow) (seed : String) (maxDepth : ℕ) (memoryId : String) :
    Finset ℕ :=
  (Finset.Icc 1 maxDepth).filter fun depth =>
    memoryId ∈ level (getLinkedMemories links) seed depth

/-- The rows of a memory, after the seed's own, are those of its depths. -/
theorem bfs_rows_of (links : List MemoryLinkRow) (maxDepth : ℤ) (seed x : String) :
    let rows := (recursiveUnion (bfsStep links maxDepth) (bfsBound links maxDepth) 0
      [⟨seed, 0, 1⟩]).filter fun row => 0 < row.depth && row.node = x
    (rows.map BfsRow.depth).Nodup ∧
      (rows.map BfsRow.depth).toFinset = linkDepths links seed maxDepth.toNat x ∧
      rows.map BfsRow.pathWeight = (rows.map BfsRow.depth).map (linkDecay ^ ·) := by
  obtain ⟨hnodup, hmem⟩ := bfs_spec links maxDepth seed
  generalize recursiveUnion (bfsStep links maxDepth) (bfsBound links maxDepth) 0 [⟨seed, 0, 1⟩] =
    rows at hnodup hmem
  -- A row of the node is known by its depth.
  have hrow : ∀ row ∈ rows.filter fun row => 0 < row.depth && row.node = x,
      row = bfsRow x row.depth := by
    intro row hin
    obtain ⟨hin, hof⟩ := List.mem_filter.mp hin
    obtain ⟨depth, -, node, -, rfl⟩ := (hmem row).mp hin
    have hnode : node = x := of_decide_eq_true (Bool.and_eq_true_iff.mp hof).2
    rw [hnode]
    rfl
  refine ⟨?_, ?_, ?_⟩
  · refine (hnodup.filter _).map_on fun a ha b hb hdepth => ?_
    rw [hrow a ha, hrow b hb, hdepth]
  -- The depths of the rows are the levels that the node is on.
  · ext depth
    unfold linkDepths
    rw [List.mem_toFinset, List.mem_map, Finset.mem_filter, Finset.mem_Icc]
    constructor
    · rintro ⟨row, hin, rfl⟩
      obtain ⟨hin, hof⟩ := List.mem_filter.mp hin
      obtain ⟨depth, hdepth, node, hnode, rfl⟩ := (hmem row).mp hin
      obtain ⟨hpos, hnodeEq⟩ := Bool.and_eq_true_iff.mp hof
      have hnodeEq : node = x := of_decide_eq_true hnodeEq
      exact ⟨⟨of_decide_eq_true hpos, hdepth⟩, hnodeEq ▸ hnode⟩
    · rintro ⟨⟨hpos, hdepth⟩, hlevel⟩
      refine ⟨bfsRow x depth, List.mem_filter.mpr ⟨?_, ?_⟩, rfl⟩
      · exact (hmem _).mpr ⟨depth, hdepth, x, hlevel, rfl⟩
      · exact Bool.and_eq_true_iff.mpr ⟨decide_eq_true hpos, decide_eq_true rfl⟩
  -- The weight of a row is the decay to its depth.
  · rw [List.map_map]
    refine List.map_congr_left fun row hin => ?_
    rw [hrow row hin]
    rfl

/-- The score of a memory is a sum over the depths at which it is reached from the seed, each
counted once, whatever number of links leads to it; a memory that is not reached has none. -/
theorem lookup_linkClusterScores (links : List MemoryLinkRow) (seedMemoryId : String)
    (maxDepth : UInt64) (memoryId : String) :
    (getLinkClusterScores links seedMemoryId maxDepth).lookup memoryId =
      if (linkDepths links seedMemoryId maxDepth.toInt64.toInt.toNat memoryId).Nonempty then
        some (∑ depth ∈ linkDepths links seedMemoryId maxDepth.toInt64.toInt.toNat memoryId,
          linkDecay ^ depth)
      else none := by
  obtain ⟨hnodup, hdepths, hweights⟩ :=
    bfs_rows_of links maxDepth.toInt64.toInt seedMemoryId memoryId
  unfold getLinkClusterScores
  dsimp only
  generalize recursiveUnion (bfsStep links maxDepth.toInt64.toInt)
    (bfsBound links maxDepth.toInt64.toInt) 0 [⟨seedMemoryId, 0, 1⟩] = rows at *
  rw [← hdepths]
  -- The tally adds the weights of the rows of the node.
  have hsum : sumUnder memoryId ((rows.filter fun row => 0 < row.depth).map fun row =>
      (row.node, row.pathWeight)) =
      ((rows.filter fun row => 0 < row.depth && row.node = memoryId).map
        BfsRow.pathWeight).sum := by
    unfold sumUnder
    rw [List.filter_map, List.map_map, List.filter_filter]
    refine congrArg List.sum (congrArg₂ List.map rfl (List.filter_congr fun row _ => ?_))
    exact Bool.and_comm _ _
  -- The node has an entry if there is a row of it at some depth.
  have hkeys : memoryId ∈ ((rows.filter fun row => 0 < row.depth).map fun row =>
      (row.node, row.pathWeight)).map Prod.fst ↔
      ((rows.filter fun row => 0 < row.depth && row.node = memoryId).map
        BfsRow.depth).toFinset.Nonempty := by
    rw [List.toFinset_nonempty_iff, ne_eq, List.map_eq_nil_iff, List.map_map, List.mem_map]
    constructor
    · rintro ⟨row, hrow, hnode⟩ hnil
      obtain ⟨hmem, hpos⟩ := List.mem_filter.mp hrow
      have hin : row ∈ rows.filter fun row => 0 < row.depth && row.node = memoryId :=
        List.mem_filter.mpr ⟨hmem, Bool.and_eq_true_iff.mpr ⟨hpos, decide_eq_true hnode⟩⟩
      exact absurd (hnil ▸ hin) List.not_mem_nil
    · intro hne
      obtain ⟨row, hrow⟩ := List.exists_mem_of_ne_nil _ hne
      obtain ⟨hmem, hof⟩ := List.mem_filter.mp hrow
      obtain ⟨hpos, hnode⟩ := Bool.and_eq_true_iff.mp hof
      exact ⟨row, List.mem_filter.mpr ⟨hmem, hpos⟩, of_decide_eq_true hnode⟩
  rw [lookup_tally, if_congr hkeys rfl rfl, hsum, hweights, List.sum_toFinset _ hnodup,
    List.lookup_nil, Option.getD_none, zero_add]

/-- Links that connect the same memories reach a memory at the same depths: their direction, their
type and their number make no difference. -/
theorem linkDepths_congr {links links' : List MemoryLinkRow}
    (h : ∀ a b, b ∈ getLinkedMemories links a ↔ b ∈ getLinkedMemories links' a)
    (seedMemoryId : String) (maxDepth : ℕ) (memoryId : String) :
    linkDepths links seedMemoryId maxDepth memoryId =
      linkDepths links' seedMemoryId maxDepth memoryId := by
  have hlevel : ∀ depth, level (getLinkedMemories links) seedMemoryId depth =
      level (getLinkedMemories links') seedMemoryId depth := by
    intro depth
    induction depth with
    | zero => rfl
    | succ depth ih =>
      unfold level
      rw [ih]
      refine Finset.biUnion_congr rfl fun node _ => ?_
      ext other
      rw [List.mem_toFinset, List.mem_toFinset]
      exact h node other
  unfold linkDepths
  refine Finset.filter_congr fun depth _ => ?_
  rw [hlevel]

example : (getLinkClusterScores [⟨"a", "b", "derived_from"⟩, ⟨"b", "a", "derived_variant"⟩] "a"
    1).lookup "b" = some (3 / 5) := by decide +kernel

end Tellodb
