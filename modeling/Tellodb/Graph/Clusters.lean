import Mathlib.Tactic.Ring
import Tellodb.Collections.Levels
import Tellodb.Collections.Tally
import Tellodb.Graph.Neighbours
import Tellodb.Query.Plan

/-!
# Scores around seeds

`collect_edge_cluster_scores_for_seeds` of `query/route.rs` walks the graph from several seeds at
once, level by level, with one read of the neighbours that no level had before. What it scores for a
seed is what the levels of that seed alone say (`clusterScore`), whatever the other seeds are
(`clusterScores_eq`). -/

namespace Tellodb

open Relational Collections

/-! ## The walk -/

/-- `intent_weight_for_edge` -/
def intentWeightForEdge (edgeType : EdgeType) (intent : Option QueryIntent) : ℚ :=
  match intent with
  | some .inference | some .recommendation =>
    if edgeType = .causedBy ∨ edgeType = .leadsTo ∨ edgeType = .prefers then 3 / 2 else 1
  | some .peripheralMention => if edgeType = .updates ∨ edgeType = .supports then 3 / 2 else 1
  | _ => 1

/-- `NEIGHBORS_PER_NODE` -/
def neighborsPerNode : UInt64 := 50

/-- `DEPTH_DECAY` -/
def depthDecay : ℚ := 3 / 5

/-- What the loop over the depths carries. -/
structure ClusterWalk where
  neighbours : String → Option (List (EdgeNeighbour ℚ))
  accumulated : List (List (String × ℚ))
  frontiers : List (List String)
  expanded : ℕ
  pathWeight : ℚ

section

variable (edges : List EdgeRow)
  -- Whether the read of the neighbours fails at a depth.
  (readFails : ℕ → Bool) (maxNodeDegree : UInt64) (edgeTypeFilter : Option String)
  (intent : Option QueryIntent)

/-- The neighbours of the nodes that no level had before are read. The walk, and whether it goes
on. -/
def ClusterWalk.readMissing (depth : ℕ) (s : ClusterWalk) : ClusterWalk × Bool :=
  let missing := (orderBy id (s.frontiers.flatten.filter fun node =>
    (s.neighbours node).isNone)).dedup
  if missing.isEmpty then (s, true)
  else
    let s := { s with expanded := s.expanded + missing.length }
    if readFails depth then (s, false)
    else
      let found := edgeClusterNeighborsBatch id edges missing edgeTypeFilter neighborsPerNode
        maxNodeDegree
      ({ s with neighbours := fun node => (found node).or (s.neighbours node) }, true)

/-- An edge to a neighbour adds to the neighbour's score, and the neighbour to the next level. -/
def ClusterWalk.visitLink (s : ClusterWalk) (r : List (String × ℚ) × List String)
    (link : EdgeNeighbour ℚ) : List (String × ℚ) × List String :=
  (tallyStep r.1 (link.1,
    s.pathWeight * link.2.1 * intentWeightForEdge (.fromStr link.2.2) intent),
    discover r.2 link.1)

/-- The scores of a seed after a level, and its next level. -/
def ClusterWalk.expandFrontier (s : ClusterWalk) (frontier : List String)
    (scores : List (String × ℚ)) : List (String × ℚ) × List String :=
  frontier.foldl (fun r node =>
    ((s.neighbours node).getD []).foldl (s.visitLink intent) r) (scores, [])

/-- The scores and levels of all seeds after a level. -/
def ClusterWalk.expandLevel (s : ClusterWalk) : ClusterWalk :=
  let results := List.zipWith (s.expandFrontier intent) s.frontiers s.accumulated
  { s with accumulated := results.map Prod.fst, frontiers := results.map Prod.snd }

/-- The loop over the depths. -/
def ClusterWalk.walk : ℕ → ℕ → ClusterWalk → ClusterWalk
  | 0, _, s => s
  | n + 1, depth, s =>
    let r := s.readMissing edges readFails maxNodeDegree edgeTypeFilter depth
    if !r.2 then r.1
    else
      let s := r.1.expandLevel intent
      if s.frontiers.all List.isEmpty then s
      else walk n (depth + 1) { s with pathWeight := s.pathWeight * depthDecay }

/-- `collect_edge_cluster_scores_for_seeds`: the scores of each seed, and how many nodes were
expanded. -/
def collectEdgeClusterScoresForSeeds (seeds : List String) (maxDepth : ℕ) :
    List (List (String × ℚ)) × ℕ :=
  let s := ClusterWalk.walk edges readFails maxNodeDegree edgeTypeFilter intent maxDepth 0
    ⟨fun _ => none, seeds.map fun _ => [], seeds.map fun seed => [seed], 0, 1⟩
  (s.accumulated, s.expanded)

/-! ## The statement -/

/-- The neighbours of a node, as a read for it alone has them. -/
def clusterNeighbours (node : String) : List (EdgeNeighbour ℚ) :=
  (edgeClusterNeighborsBatch id edges [node] edgeTypeFilter neighborsPerNode maxNodeDegree
    node).getD []

/-- The nodes at a depth from a seed. -/
def clusterLevel (seed : String) (d : ℕ) : Finset String :=
  level (fun node => (clusterNeighbours edges maxNodeDegree edgeTypeFilter node).map Prod.fst)
    seed d

/-- What the entries of a node add to a memory's score at a depth. -/
def nodeScore (d : ℕ) (memoryId node : String) : ℚ :=
  (((clusterNeighbours edges maxNodeDegree edgeTypeFilter node).filter fun link =>
    link.1 = memoryId).map fun link =>
      depthDecay ^ d * link.2.1 * intentWeightForEdge (.fromStr link.2.2) intent).sum

/-- The score of a memory from a seed, if an entry at some depth leads to it. -/
def clusterScore (depth : ℕ) (seed memoryId : String) : Option ℚ :=
  if ∃ d < depth, memoryId ∈ clusterLevel edges maxNodeDegree edgeTypeFilter seed (d + 1) then
    some (∑ d ∈ Finset.range depth,
      ∑ node ∈ clusterLevel edges maxNodeDegree edgeTypeFilter seed d,
        nodeScore edges maxNodeDegree edgeTypeFilter intent d memoryId node)
  else none

end

section

variable {edges : List EdgeRow} {readFails : ℕ → Bool} {maxNodeDegree : UInt64}
  {edgeTypeFilter : Option String} {intent : Option QueryIntent}

/-! ## One level -/

/-- The memories that the neighbours of a node are. -/
def successors (edges : List EdgeRow) (maxNodeDegree : UInt64) (edgeTypeFilter : Option String)
    (node : String) : List String :=
  (clusterNeighbours edges maxNodeDegree edgeTypeFilter node).map Prod.fst

/-- A neighbour with what it adds to its score at a depth. -/
def scored (intent : Option QueryIntent) (d : ℕ) (link : EdgeNeighbour ℚ) : String × ℚ :=
  (link.1, depthDecay ^ d * link.2.1 * intentWeightForEdge (.fromStr link.2.2) intent)

/-- What is read for a node, whatever else is read with it. -/
theorem batch_eq_ite {missing : List String} (hmissing : missing.Nodup) (node : String) :
    edgeClusterNeighborsBatch id edges missing edgeTypeFilter neighborsPerNode maxNodeDegree node =
      if node ∈ missing then some (clusterNeighbours edges maxNodeDegree edgeTypeFilter node)
      else none := by
  by_cases h : node ∈ missing
  · have hsome : (edgeClusterNeighborsBatch id edges [node] edgeTypeFilter neighborsPerNode
        maxNodeDegree node).isSome = true :=
      (isSome_batch id edgeTypeFilter neighborsPerNode maxNodeDegree).mpr
        (List.mem_singleton_self node)
    obtain ⟨links, hlinks⟩ := Option.isSome_iff_exists.mp hsome
    rw [if_pos h, batch_eq_alone id hmissing h]
    unfold clusterNeighbours
    rw [hlinks, Option.getD_some]
  · rw [if_neg h, ← Option.not_isSome_iff_eq_none, isSome_batch]
    exact h

/-- After a read the neighbours of every node of the level are known. -/
theorem readMissing_spec {depth : ℕ} {s : ClusterWalk}
    (hknown : ∀ node, ∀ links ∈ s.neighbours node,
      links = clusterNeighbours edges maxNodeDegree edgeTypeFilter node) :
    ∃ expanded neighbours ok,
      s.readMissing edges readFails maxNodeDegree edgeTypeFilter depth =
        ({ s with expanded := expanded, neighbours := neighbours }, ok) ∧
      (readFails depth = false → ok = true) ∧
      (∀ node, ∀ links ∈ neighbours node,
        links = clusterNeighbours edges maxNodeDegree edgeTypeFilter node) ∧
      (ok = true → ∀ frontier ∈ s.frontiers, ∀ node ∈ frontier,
        neighbours node = some (clusterNeighbours edges maxNodeDegree edgeTypeFilter node)) := by
  -- The nodes of the frontiers that are not known yet.
  obtain ⟨missing, hmissing⟩ : ∃ missing, missing =
    (orderBy id (s.frontiers.flatten.filter fun node => (s.neighbours node).isNone)).dedup :=
      ⟨_, rfl⟩
  -- Those of the frontier that are not missing are known.
  have hlooked : ∀ frontier ∈ s.frontiers, ∀ node ∈ frontier, node ∉ missing →
      s.neighbours node = some (clusterNeighbours edges maxNodeDegree edgeTypeFilter node) := by
    intro frontier hfrontier node hnode hnot
    cases hlinks : s.neighbours node with
    | none =>
      refine absurd ?_ hnot
      rw [hmissing, List.mem_dedup, mem_orderBy, List.mem_filter, hlinks]
      exact ⟨List.mem_flatten.mpr ⟨frontier, hfrontier, hnode⟩, rfl⟩
    | some links => rw [hknown node links hlinks]
  have hnodup : missing.Nodup := by
    rw [hmissing]
    exact List.nodup_dedup _
  unfold ClusterWalk.readMissing
  rw [← hmissing]
  by_cases hempty : missing.isEmpty = true
  · rw [if_pos hempty]
    refine ⟨s.expanded, s.neighbours, true, rfl, fun _ => rfl, hknown, fun _ => ?_⟩
    intro frontier hfrontier node hnode
    refine hlooked frontier hfrontier node hnode ?_
    rw [List.isEmpty_iff.mp hempty]
    exact List.not_mem_nil
  · rw [if_neg hempty]
    -- A read that fails ends the walk and leaves what is known.
    cases hfails : readFails depth with
    | true =>
      exact ⟨_, _, false, rfl, fun h => absurd h.symm Bool.false_ne_true, hknown,
        fun h => absurd h Bool.false_ne_true⟩
    | false =>
      -- The batch answers for the missing nodes only.
      refine ⟨_, _, true, rfl, fun _ => rfl, ?_, fun _ => ?_⟩
      · intro node links hlinks
        rw [batch_eq_ite hnodup] at hlinks
        by_cases hin : node ∈ missing
        · rw [if_pos hin, Option.some_or] at hlinks
          exact (Option.some.inj hlinks).symm
        · rw [if_neg hin, Option.none_or] at hlinks
          exact hknown node links hlinks
      · intro frontier hfrontier node hnode
        rw [batch_eq_ite hnodup]
        by_cases hin : node ∈ missing
        · rw [if_pos hin, Option.some_or]
        · rw [if_neg hin, Option.none_or]
          exact hlooked frontier hfrontier node hnode hin

/-- What a level adds to the scores of a seed, and the next level. -/
theorem expandFrontier_eq {s : ClusterWalk} {d : ℕ} (hweight : s.pathWeight = depthDecay ^ d)
    {frontier : List String} (hread : ∀ node ∈ frontier, s.neighbours node =
      some (clusterNeighbours edges maxNodeDegree edgeTypeFilter node))
    (scores : List (String × ℚ)) :
    s.expandFrontier intent frontier scores =
      (tally scores (frontier.flatMap fun node =>
        (clusterNeighbours edges maxNodeDegree edgeTypeFilter node).map (scored intent d)),
      (frontier.flatMap (successors edges maxNodeDegree edgeTypeFilter)).foldl discover []) := by
  -- One list of neighbours adds its scores and its nodes.
  have hlinks : ∀ (links : List (EdgeNeighbour ℚ)) (r : List (String × ℚ) × List String),
      links.foldl (s.visitLink intent) r =
        (tally r.1 (links.map (scored intent d)), (links.map Prod.fst).foldl discover r.2) := by
    intro links
    induction links with
    | nil => exact fun r => rfl
    | cons link links ih =>
      intro r
      rw [List.foldl_cons, ih]
      unfold ClusterWalk.visitLink
      rw [hweight]
      rfl
  unfold ClusterWalk.expandFrontier
  generalize ([] : List String) = found
  -- The induction is on the frontier, with the scores and the nodes found so far.
  induction frontier generalizing scores found with
  | nil => rfl
  | cons node frontier ih =>
    rw [List.foldl_cons, hread node List.mem_cons_self, Option.getD_some, hlinks,
      ih (fun other hother => hread other (List.mem_cons_of_mem _ hother)), List.flatMap_cons,
      List.flatMap_cons, List.foldl_append]
    unfold tally successors
    rw [List.foldl_append]

/-- What comes under a memory at a level is what the nodes of the level add to its score. -/
theorem sumUnder_level {seed : String} {d : ℕ} {frontier : List String}
    (h : Frontier (successors edges maxNodeDegree edgeTypeFilter) seed d frontier) (x : String) :
    sumUnder x (frontier.flatMap fun node =>
        (clusterNeighbours edges maxNodeDegree edgeTypeFilter node).map (scored intent d)) =
      ∑ node ∈ clusterLevel edges maxNodeDegree edgeTypeFilter seed d,
        nodeScore edges maxNodeDegree edgeTypeFilter intent d x node := by
  rw [sumUnder_flatMap]
  refine Eq.trans (congrArg List.sum (List.map_congr_left fun node _ => ?_)) (h.sum_eq _)
  unfold sumUnder nodeScore
  rw [List.filter_map, List.map_map]
  rfl

/-- The next level has the memories under which something comes. -/
theorem mem_keys_level {seed : String} {d : ℕ} {frontier : List String}
    (h : Frontier (successors edges maxNodeDegree edgeTypeFilter) seed d frontier) {x : String} :
    x ∈ (frontier.flatMap fun node => (clusterNeighbours edges maxNodeDegree edgeTypeFilter
        node).map (scored intent d)).map Prod.fst ↔
      x ∈ clusterLevel edges maxNodeDegree edgeTypeFilter seed (d + 1) := by
  have hnext : x ∈ _ ↔ x ∈ _ := h.next.mem_iff
  rw [mem_foldl_discover, or_iff_right List.not_mem_nil] at hnext
  refine Iff.trans (Eq.to_iff (congrArg (x ∈ ·) ?_)) hnext
  rw [List.map_flatMap]
  refine List.flatMap_congr fun node _ => ?_
  rw [List.map_map]
  rfl

/-- A node adds nothing to a memory that is not at the next level. -/
theorem nodeScore_eq_zero {seed x node : String} {d : ℕ}
    (hnode : node ∈ clusterLevel edges maxNodeDegree edgeTypeFilter seed d)
    (hx : x ∉ clusterLevel edges maxNodeDegree edgeTypeFilter seed (d + 1)) :
    nodeScore edges maxNodeDegree edgeTypeFilter intent d x node = 0 := by
  unfold nodeScore
  rw [List.filter_eq_nil_iff.mpr]
  · rfl
  · intro link hlink hid
    refine hx (Finset.mem_biUnion.mpr ⟨node, hnode, List.mem_toFinset.mpr ?_⟩)
    rw [← of_decide_eq_true hid]
    exact List.mem_map_of_mem hlink

/-- A level adds nothing to such a memory. -/
theorem levelScore_eq_zero {seed x : String} {d : ℕ}
    (hx : x ∉ clusterLevel edges maxNodeDegree edgeTypeFilter seed (d + 1)) :
    ∑ node ∈ clusterLevel edges maxNodeDegree edgeTypeFilter seed d,
      nodeScore edges maxNodeDegree edgeTypeFilter intent d x node = 0 :=
  Finset.sum_eq_zero fun _ hnode => nodeScore_eq_zero hnode hx

/-- The score after one more level. -/
theorem clusterScore_succ (depth : ℕ) (seed x : String) :
    clusterScore edges maxNodeDegree edgeTypeFilter intent (depth + 1) seed x =
      if x ∈ clusterLevel edges maxNodeDegree edgeTypeFilter seed (depth + 1) then
        some ((clusterScore edges maxNodeDegree edgeTypeFilter intent depth seed x).getD 0 +
          ∑ node ∈ clusterLevel edges maxNodeDegree edgeTypeFilter seed depth,
            nodeScore edges maxNodeDegree edgeTypeFilter intent depth x node)
      else clusterScore edges maxNodeDegree edgeTypeFilter intent depth seed x := by
  unfold clusterScore
  -- The levels up to the next depth are those before and the next one.
  have hreached : (∃ d < depth + 1,
      x ∈ clusterLevel edges maxNodeDegree edgeTypeFilter seed (d + 1)) ↔
      (∃ d < depth, x ∈ clusterLevel edges maxNodeDegree edgeTypeFilter seed (d + 1)) ∨
        x ∈ clusterLevel edges maxNodeDegree edgeTypeFilter seed (depth + 1) := by
    constructor
    · rintro ⟨d, hd, hx⟩
      rcases Nat.lt_succ_iff_lt_or_eq.mp hd with hlt | rfl
      · exact .inl ⟨d, hlt, hx⟩
      · exact .inr hx
    · rintro (⟨d, hd, hx⟩ | hx)
      · exact ⟨d, Nat.lt_succ_of_lt hd, hx⟩
      · exact ⟨depth, Nat.lt_succ_self depth, hx⟩
  rw [if_congr hreached rfl rfl, Finset.sum_range_succ]
  -- A node that was reached has its sum extended, and a new one starts with its share.
  by_cases hbefore : ∃ d < depth,
      x ∈ clusterLevel edges maxNodeDegree edgeTypeFilter seed (d + 1)
  · rw [if_pos (.inl hbefore), if_pos hbefore, Option.getD_some]
    by_cases hx : x ∈ clusterLevel edges maxNodeDegree edgeTypeFilter seed (depth + 1)
    · rw [if_pos hx]
    · rw [if_neg hx, levelScore_eq_zero hx, add_zero]
  · rw [if_neg hbefore]
    by_cases hx : x ∈ clusterLevel edges maxNodeDegree edgeTypeFilter seed (depth + 1)
    · rw [if_pos (.inr hx), if_pos hx, Option.getD_none, Finset.sum_eq_zero]
      intro d hd
      exact levelScore_eq_zero fun hd' => hbefore ⟨d, Finset.mem_range.mp hd, hd'⟩
    · rw [if_neg (not_or.mpr ⟨hbefore, hx⟩), if_neg hx]

/-- After a level without nodes the scores stay as they are. -/
theorem clusterScore_of_empty {seed : String} {depth : ℕ}
    (h : clusterLevel edges maxNodeDegree edgeTypeFilter seed depth = ∅) {k : ℕ} (hle : depth ≤ k) :
    clusterScore edges maxNodeDegree edgeTypeFilter intent k seed =
      clusterScore edges maxNodeDegree edgeTypeFilter intent depth seed := by
  induction k, hle using Nat.le_induction with
  | base => rfl
  | succ k hle ih =>
    have hnone : clusterLevel edges maxNodeDegree edgeTypeFilter seed (k + 1) = ∅ :=
      level_eq_empty h (Nat.le_succ_of_le hle)
    funext x
    rw [clusterScore_succ, if_neg (by rw [hnone]; exact Finset.notMem_empty x), ih]

/-! ## The levels of all seeds -/

/-- The scores of a seed are those of its levels. -/
def ScoredFrom (edges : List EdgeRow) (maxNodeDegree : UInt64) (edgeTypeFilter : Option String)
    (intent : Option QueryIntent) (depth : ℕ) (seed : String) (scores : List (String × ℚ)) : Prop :=
  ∀ x, scores.lookup x = clusterScore edges maxNodeDegree edgeTypeFilter intent depth seed x

/-- Between two levels: what is known of the neighbours is so, and each seed has its own scores and
its own level. -/
structure ClusterWalk.Sound (edges : List EdgeRow) (maxNodeDegree : UInt64)
    (edgeTypeFilter : Option String) (intent : Option QueryIntent) (seeds : List String)
    (depth : ℕ) (s : ClusterWalk) : Prop where
  known : ∀ node, ∀ links ∈ s.neighbours node,
    links = clusterNeighbours edges maxNodeDegree edgeTypeFilter node
  scores : List.Forall₂ (ScoredFrom edges maxNodeDegree edgeTypeFilter intent depth) seeds
    s.accumulated
  frontiers : List.Forall₂ (fun seed => Frontier (successors edges maxNodeDegree edgeTypeFilter)
    seed depth) seeds s.frontiers
  weight : s.pathWeight = depthDecay ^ depth

/-- The first levels are the seeds. -/
theorem sound_seeds (seeds : List String) :
    ClusterWalk.Sound edges maxNodeDegree edgeTypeFilter intent seeds 0
      ⟨fun _ => none, seeds.map fun _ => [], seeds.map fun seed => [seed], 0, 1⟩ where
  known node links h := absurd h.symm (Option.some_ne_none _)
  scores := by
    induction seeds with
    | nil => exact .nil
    | cons seed seeds ih =>
      refine .cons (fun x => ?_) ih
      unfold clusterScore
      rw [if_neg fun ⟨d, hd, _⟩ => absurd hd (Nat.not_lt_zero d)]
      rfl
  frontiers := by
    induction seeds with
    | nil => exact .nil
    | cons seed seeds ih => exact .cons frontier_seed ih
  weight := (pow_zero _).symm

/-- A seed's scores and level after a level. -/
theorem expandFrontier_sound {s : ClusterWalk} {depth : ℕ} {seed : String}
    {frontier : List String} {scores : List (String × ℚ)}
    (hweight : s.pathWeight = depthDecay ^ depth)
    (hread : ∀ node ∈ frontier, s.neighbours node =
      some (clusterNeighbours edges maxNodeDegree edgeTypeFilter node))
    (hfrontier : Frontier (successors edges maxNodeDegree edgeTypeFilter) seed depth frontier)
    (hscores : ScoredFrom edges maxNodeDegree edgeTypeFilter intent depth seed scores) :
    ScoredFrom edges maxNodeDegree edgeTypeFilter intent (depth + 1) seed
        (s.expandFrontier intent frontier scores).1 ∧
      Frontier (successors edges maxNodeDegree edgeTypeFilter) seed (depth + 1)
        (s.expandFrontier intent frontier scores).2 := by
  rw [expandFrontier_eq hweight hread]
  refine ⟨fun x => ?_, hfrontier.next⟩
  rw [lookup_tally, clusterScore_succ, hscores x, sumUnder_level hfrontier]
  exact if_congr (mem_keys_level hfrontier) rfl rfl

/-- A level keeps the invariant. -/
theorem ClusterWalk.Sound.expandLevel {s : ClusterWalk} {seeds : List String} {depth : ℕ}
    (hs : s.Sound edges maxNodeDegree edgeTypeFilter intent seeds depth)
    (hread : ∀ frontier ∈ s.frontiers, ∀ node ∈ frontier, s.neighbours node =
      some (clusterNeighbours edges maxNodeDegree edgeTypeFilter node)) :
    ({ s.expandLevel intent with pathWeight := s.pathWeight * depthDecay } : ClusterWalk).Sound
      edges maxNodeDegree edgeTypeFilter intent seeds (depth + 1) := by
  -- Seed by seed the scores and the frontiers are those of one step.
  have hboth : List.Forall₂ (ScoredFrom edges maxNodeDegree edgeTypeFilter intent (depth + 1)) seeds
        ((List.zipWith (s.expandFrontier intent) s.frontiers s.accumulated).map Prod.fst) ∧
      List.Forall₂ (fun seed => Frontier (successors edges maxNodeDegree edgeTypeFilter) seed
        (depth + 1)) seeds
        ((List.zipWith (s.expandFrontier intent) s.frontiers s.accumulated).map Prod.snd) := by
    obtain ⟨-, hscores, hfrontiers, hweight⟩ := hs
    revert hscores hfrontiers hread
    generalize s.frontiers = frontiers
    generalize s.accumulated = accumulated
    intro hread hscores hfrontiers
    induction hscores generalizing frontiers with
    | nil =>
      cases hfrontiers
      exact ⟨.nil, .nil⟩
    | cons hscore _ ih =>
      cases hfrontiers with
      | cons hfrontier hrest =>
        obtain ⟨hsc, hfr⟩ := expandFrontier_sound hweight
          (hread _ List.mem_cons_self) hfrontier hscore
        obtain ⟨hscs, hfrs⟩ := ih _ (fun f hf => hread f (List.mem_cons_of_mem _ hf)) hrest
        exact ⟨.cons hsc hscs, .cons hfr hfrs⟩
  exact ⟨hs.known, hboth.1, hboth.2, by rw [hs.weight, pow_succ]⟩

/-- When no seed has a level any more, the scores are those of any depth. -/
theorem scored_of_no_frontier {seeds : List String} {depth k : ℕ}
    {accumulated : List (List (String × ℚ))} {frontiers : List (List String)}
    (hscores : List.Forall₂ (ScoredFrom edges maxNodeDegree edgeTypeFilter intent depth) seeds
      accumulated)
    (hfrontiers : List.Forall₂ (fun seed => Frontier (successors edges maxNodeDegree
      edgeTypeFilter) seed depth) seeds frontiers)
    (hnone : frontiers.all List.isEmpty = true) (hle : depth ≤ k) :
    List.Forall₂ (ScoredFrom edges maxNodeDegree edgeTypeFilter intent k) seeds accumulated := by
  induction hscores generalizing frontiers with
  | nil => exact .nil
  | cons hscore _ ih =>
    cases hfrontiers with
    | cons hfrontier hrest =>
      rw [List.all_cons, Bool.and_eq_true] at hnone
      have hempty := hfrontier.toFinset
      rw [List.isEmpty_iff.mp hnone.1] at hempty
      refine .cons (fun x => ?_) (ih hrest hnone.2)
      rw [clusterScore_of_empty hempty.symm hle]
      exact hscore x

/-- The loop over the depths ends with the scores of some depth, and with those of the last one if
every read succeeds. -/
theorem walk_spec {seeds : List String} (n : ℕ) {depth : ℕ} {s : ClusterWalk}
    (hs : s.Sound edges maxNodeDegree edgeTypeFilter intent seeds depth) :
    ∃ last ≤ depth + n, ((∀ d < depth + n, readFails d = false) → last = depth + n) ∧
      List.Forall₂ (ScoredFrom edges maxNodeDegree edgeTypeFilter intent last) seeds
        (s.walk edges readFails maxNodeDegree edgeTypeFilter intent n depth).accumulated := by
  induction n generalizing depth s with
  | zero => exact ⟨depth, le_rfl, fun _ => rfl, hs.scores⟩
  | succ n ih =>
    obtain ⟨expanded, neighbours, ok, hstep, hok, hknown, hread⟩ :
      ∃ expanded neighbours ok,
        s.readMissing edges readFails maxNodeDegree edgeTypeFilter depth = _ ∧ _ :=
      readMissing_spec hs.known
    unfold ClusterWalk.walk
    dsimp only
    rw [hstep]
    -- The level is expanded only after its neighbours have been read.
    cases ok with
    | false =>
      refine ⟨depth, by omega, fun h => ?_, hs.scores⟩
      exact absurd (hok (h depth (by omega))) Bool.false_ne_true
    | true =>
      have hread' : ({ s with expanded := expanded, neighbours := neighbours } :
          ClusterWalk).Sound edges maxNodeDegree edgeTypeFilter intent seeds depth :=
        ⟨hknown, hs.scores, hs.frontiers, hs.weight⟩
      have hnext := hread'.expandLevel (hread rfl)
      rw [if_neg (by simp)]
      -- Without a frontier nothing more is reached.
      split
      · rename_i hempty
        have hle : depth + 1 ≤ depth + (n + 1) := by omega
        exact ⟨depth + (n + 1), le_rfl, fun _ => rfl,
          scored_of_no_frontier hnext.scores hnext.frontiers hempty hle⟩
      · obtain ⟨last, hlast, hall, hscores⟩ := ih hnext
        have hsum : depth + 1 + n = depth + (n + 1) := by omega
        rw [hsum] at hlast hall
        exact ⟨last, hlast, hall, hscores⟩

end

end Tellodb
