import Tellodb.Collections.Entries
import Tellodb.Collections.Greedy
import Tellodb.Expansion.Chunks
import Tellodb.Graph.Clusters
import Tellodb.Graph.Links
import Tellodb.Lifecycle.Retention
import Tellodb.Machine.Numbers
import Tellodb.Query.Widened

/-!
# The fusion of the lanes

`fusion_phase` of `query/fuse.rs` makes one ranking of the ranked lists of all lanes, and lets links
and edges lead to more memories. Nearly all of it goes through hash maps, whose order differs from
process to process, and sums of `f32` depend on the order of their terms. Yet the phase gives the
same result, to the last bit, whatever the orders are: `fusion_exact` says what it is without any
map. Scores are numbers of `f32`, with the rounding of each operation. -/

namespace Tellodb

open Machine Machine.Format Relational Collections

/-! ## Reads of the store -/

/-- The rows of a memory joined with its vectors: its event time, and a vector or zero. -/
def TenantStore.vectorRowsOf (S : TenantStore) (m : MemoryRow) : List (String × UInt64 × ℕ) :=
  let vectors := S.vectorLookup.rows.filter fun v => v.memoryId = m.memoryId
  let vectorIds := if vectors.isEmpty then [0] else vectors.map VectorRow.vectorId
  vectorIds.map fun vectorId => (m.memoryId, m.createdAtMs.toUInt64, vectorId)

/-- `lookup_by_memory_ids_batch`: the event times of memories, and vectors of theirs. -/
def TenantStore.lookupByMemoryIdsBatch (S : TenantStore) (memoryIds : List String) :
    List (String × UInt64 × ℕ) :=
  upsertAll (fun _ row => row) [] ((memoryIds.toChunks inChunk).flatMap fun chunk =>
    (S.memories.rows.filter fun m => m.memoryId ∈ chunk).flatMap S.vectorRowsOf)

/-- `extract_named_phrases` of one line. -/
def extractNamedPhrases (line : String) : List String :=
  let keeps := fun c : Char => c.isAlphanum || c = '\'' || c = '-'
  let step := fun (r : List (List (List Char)) × List (List Char)) (rawWord : List Char) =>
    let word := trimMatches (fun c => !keeps c) rawWord
    if word.isEmpty then r
    else if (word.head?.any Char.isUpper) && word.any Char.isLower then (r.1, r.2 ++ [word])
    else if r.2.isEmpty then r
    else (r.1 ++ [r.2], [])
  let r := (splitWhitespace line.toList).foldl step ([], [])
  let phrases := (if r.2.isEmpty then r.1 else r.1 ++ [r.2]).map fun words =>
    String.ofList ([' '].intercalate words)
  let key := fun phrase : String => (trim phrase.toList).map Char.toLower
  -- `MIN_PHRASE_LEN` is 2, and `dedupe_preserve_order` goes by the text in lower case.
  greedy (fun a b => key a = key b)
    (phrases.filter fun phrase => 2 < utf8Len phrase.toList && !(key phrase).isEmpty)

/-! ## The state of the pipeline -/

/-- A map of scores by memory. -/
structure ScoreMap where
  entries : List (String × F32)
  distinct : Distinct entries

/-- The walks over links and edges, from a seed and from all of them. -/
structure FusionWalks where
  /-- `get_link_cluster_scores` -/
  linkScores : String → ScoreMap
  /-- `collect_edge_cluster_scores_for_seeds` -/
  edgeScores : List String → List ScoreMap

/-- What `fusion_phase` reads of the pipeline and of the configuration. -/
structure FusionInput where
  /-- What the planner says of the query. -/
  plan : QueryPlan
  /-- The query as text, whose named phrases seed the walks. -/
  textualQuery : String
  /-- The scope, if the query has one. -/
  entityId : Option String
  /-- The lanes of the vector searches, each with its weight. -/
  semanticRankedLists : List (F32 × List RankedItem)
  /-- The lanes of the text searches, each with its weight. -/
  ftsRankedLists : List (F32 × List RankedItem)
  /-- The lane of the memory cards. -/
  cardRankedItems : List RankedItem
  /-- The scores of the cross-encoder, as it gives them. -/
  neuralScores : ScoreMap
  /-- The weight of the card lane. -/
  cardBoost : F32
  /-- Its factor for queries that are decomposed or cross entities. -/
  cardBoostStrong : F32
  /-- Its factor for queries that aggregate over time or infer. -/
  cardBoostMedium : F32
  /-- The number of memories that the walks start from. -/
  graphSeedCount : ℕ
  /-- `Lane::Graph` -/
  graphLane : Bool
  /-- `Feature::DerivedLinks` -/
  derivedLinks : Bool
  /-- `Feature::RetrospectiveLinks` -/
  retrospectiveLinks : Bool
  /-- `Feature::GraphEdges` -/
  graphEdges : Bool
  /-- `card_limit`, which the hydration doubles. -/
  cardLimit : ℕ

/-- `RankedItem` with its fused score. -/
structure FusedItem where
  memoryId : String
  timestamp : UInt64
  score : F32
  deriving DecidableEq

/-- The orders in which the hash maps of the phase are iterated. -/
structure FusionOrders where
  neural : HashOrder
  rrf : HashOrder
  fused : HashOrder
  /-- Of the scores of a seed. -/
  links : ℕ → HashOrder
  edges : ℕ → HashOrder
  lookup : HashOrder
  items : HashOrder

/-- The comparison of the sorts by score, `partial_cmp` with `Equal` where it is `None`, then by
memory. -/
def scoreLe (d e : String × F32) : Prop :=
  if d.2 = e.2 ∨ d.2 = .nan ∨ e.2 = .nan then d.1 ≤ e.1 else e.2 < d.2

instance (d e : String × F32) : Decidable (scoreLe d e) :=
  inferInstanceAs (Decidable (if d.2 = e.2 ∨ d.2 = .nan ∨ e.2 = .nan then d.1 ≤ e.1 else e.2 < d.2))

/-- The sorts by score. With `nan` the comparison is no order, and what a sort gives is not
documented: the insertion stands for it there. -/
def sortByScore {α : Type} (score : α → String × F32) (l : List α) : List α :=
  l.insertionSort fun a b => scoreLe (score a) (score b)

/-- The order of the sorts of scores that are numbers: descending, then by memory. -/
def scoreKey (e : String × F32) : F32ᵒᵈ ×ₗ String := toLex (OrderDual.toDual e.2, e.1)

/-- What an item is sorted by. -/
def FusedItem.scored (item : FusedItem) : String × F32 := (item.memoryId, item.score)

/-- The order of `sort_fused_items`, of items whose scores are numbers. -/
def FusedItem.key (item : FusedItem) : F32ᵒᵈ ×ₗ String := scoreKey item.scored

/-! ## The ranked lists -/

/-- `adaptive_rrf_k` -/
def adaptiveRrfK (plan : QueryPlan) : ℕ :=
  if plan.crossEntity || plan.ordinalRank.isSome then 45
  else
    match plan.intent with
    | .peripheralMention => 40
    | .inference => 50
    | .temporalAggregation | .numericAggregation => 55
    | .recommendation | .general => 60

/-- The weight of the list of cards. -/
def FusionInput.cardWeight (s : FusionInput) : F32 :=
  if s.plan.needsDecomposition || s.plan.crossEntity then s.cardBoost * s.cardBoostStrong
  else if s.plan.intent = .temporalAggregation ∨ s.plan.intent = .inference then
    s.cardBoost * s.cardBoostMedium
  else s.cardBoost

/-- The list of the cross-encoder: the memories in the order of their scores, with their event
times. -/
def neuralItems (S : TenantStore) (neuralScores : List (String × F32)) : List RankedItem :=
  let scoredItems := sortByScore id neuralScores
  let lookup := S.lookupByMemoryIdsBatch (scoredItems.map Prod.fst)
  scoredItems.filterMap fun e => (lookup.lookup e.1).map fun row => ⟨e.1, row.1⟩

/-- The ranked lists of all lanes with their weights. -/
def FusionInput.rankedSources (s : FusionInput) (S : TenantStore)
    (neuralScores : List (String × F32)) : List (F32 × List RankedItem) :=
  s.semanticRankedLists ++ s.ftsRankedLists ++
    (if s.cardRankedItems.isEmpty then [] else [(s.cardWeight, s.cardRankedItems)]) ++
    (if neuralScores.isEmpty then [] else [(1.5, neuralItems S neuralScores)])

/-- What a list gives to its items, in turn: `weight / (k + rank + 1)`. -/
def sharesOf (k : ℕ) (source : F32 × List RankedItem) : List (String × UInt64 × F32) :=
  let weight := source.1.max 0
  if weight = 0 then []
  else source.2.zipIdx.map fun entry =>
    (entry.1.memoryId, entry.1.timestamp,
      weight / (((UInt64.ofNat (k + entry.2 + 1)).toNat : ℕ) : F32))

/-- A share is added to the score of an item, which keeps the event time that it came with first. -/
def addShare (entry : Option (UInt64 × F32)) (share : UInt64 × F32) : UInt64 × F32 :=
  let entry := entry.getD (share.1, 0)
  (entry.1, entry.2 + share.2)

/-- `weighted_reciprocal_rank_fusion` -/
def weightedReciprocalRankFusion (order : HashOrder) (rankedLists : List (F32 × List RankedItem))
    (k : ℕ) : List FusedItem :=
  let rrfScores := rankedLists.foldl (fun rrfScores source =>
    upsertAll addShare rrfScores (sharesOf k source)) []
  sortByScore FusedItem.scored ((order.iterate rrfScores).map fun e => ⟨e.1, e.2.1, e.2.2⟩)

/-- `merge_fused_items` -/
def mergeFusedItems (fused : List FusedItem) : List (String × UInt64 × F32) :=
  upsertAll (fun entry given => (given.1, (entry.getD (given.1, 0)).2.max given.2)) []
    (fused.map fun item => (item.memoryId, item.timestamp, item.score))

/-! ## The graph -/

/-- `*graph_scores.entry(id).or_insert(0.0) += boost` -/
def addBoost (score : Option F32) (boost : F32) : F32 :=
  score.getD 0 + boost

/-- The event time of an item is set, which is added with no score if it is not there. -/
def setTime (entry : Option (UInt64 × F32)) (ts : UInt64) : UInt64 × F32 :=
  (ts, (entry.getD (ts, 0)).2)

/-- `accumulate_seed_scores_deterministically`, where the scores of a seed come in an order of
their own. -/
def accumulateSeedScoresDeterministically (order : ℕ → HashOrder) (scoresBySeed : List ScoreMap)
    (graphScores : List (String × F32)) (allLinked : List String) :
    List (String × F32) × List String :=
  let contributions := orderBy (fun c : ℕ × String × F32 => toLex (c.1, c.2.1))
    (scoresBySeed.zipIdx.flatMap fun seed =>
      ((order seed.2).iterate seed.1.entries).map fun e => (seed.2, e))
  (upsertAll addBoost graphScores (contributions.map Prod.snd),
    allLinked ++ contributions.map fun c => c.2.1)

/-- `links_on` -/
def FusionInput.linksOn (s : FusionInput) : Bool :=
  s.graphLane && (s.derivedLinks || s.retrospectiveLinks)

/-- `edges_on` -/
def FusionInput.edgesOn (s : FusionInput) : Bool :=
  s.graphLane && s.graphEdges

/-- The maps of scores over links. -/
def FusionInput.linkScores (s : FusionInput) (walks : FusionWalks) (seedTop : List String) :
    List ScoreMap :=
  if s.linksOn then seedTop.map walks.linkScores else []

/-- The maps of scores over edges. -/
def FusionInput.edgeScores (s : FusionInput) (walks : FusionWalks) (seedTop : List String) :
    List ScoreMap :=
  if s.edgesOn then walks.edgeScores seedTop else []

/-- `entity_seeds`: the entities of the plan and the phrases of the query that are none of them. -/
def FusionInput.entitySeeds (s : FusionInput) : List String :=
  ((extractNamedPhrases s.textualQuery).foldl (fun seeds phrase =>
    if 3 ≤ utf8Len phrase.toList &&
        !seeds.any fun e => toAsciiLowercase e = toAsciiLowercase phrase then
      seeds ++ [phrase]
    else seeds) s.plan.subjectEntities).take 8

/-- `batched_edges`: the edges at the entities of a query that has an entity. -/
def FusionInput.batchedEdges (s : FusionInput) (S : TenantStore) : List GraphEdge :=
  if (s.entityId.filter fun _ => s.edgesOn).any fun entityScope => !entityScope.isEmpty then
    s.entitySeeds.flatMap fun seed =>
      (S.graphQueryEdges seed .both 50).filter fun e => !e.memoryId.isEmpty
  else []

/-- `edge.weight * 0.5`, where the weight is read as a number of `f32`. -/
def GraphEdge.boost (e : GraphEdge) : F32 :=
  Format.binary32.round e.weight * 0.5

/-- `GRAPH_SCORE_SATURATION_K` -/
def graphScoreSaturationK : F32 := 2

/-- `calibrate_graph_scores`, of one score. -/
def calibrated (score : F32) : F32 :=
  score / (score + graphScoreSaturationK)

/-! ## The phase -/

/-- `FUSED_HYDRATION_FLOOR` -/
def fusedHydrationFloor : ℕ := 200

/-- `hydration_cap` -/
def FusionInput.hydrationCap (s : FusionInput) : ℕ :=
  max (s.cardLimit * 2) fusedHydrationFloor

/-- What the phase leaves: the items and the scores of the graph. -/
structure FusionResult where
  items : List FusedItem
  graphScores : List (String × F32)

/-- The scores of the graph around the seeds, and the memories that they are of. -/
def FusionInput.accumulated (s : FusionInput) (orders : FusionOrders) (walks : FusionWalks)
    (seedTop : List String) : List (String × F32) × List String :=
  let r := accumulateSeedScoresDeterministically orders.links (s.linkScores walks seedTop) [] []
  accumulateSeedScoresDeterministically orders.edges (s.edgeScores walks seedTop) r.1 r.2

/-- `fusion_phase` -/
def fusionPhase (orders : FusionOrders) (S : TenantStore) (walks : FusionWalks) (s : FusionInput) :
    FusionResult :=
  let rankedSources := s.rankedSources S (orders.neural.iterate s.neuralScores.entries)
  let fused := weightedReciprocalRankFusion orders.rrf rankedSources (adaptiveRrfK s.plan)
  let fusedMap := mergeFusedItems fused
  let linkSeedIds := sortByScore id
    ((orders.fused.iterate fusedMap).map fun e => (e.1, e.2.2))
  let seedTop := (linkSeedIds.take s.graphSeedCount).map Prod.fst
  let r := s.accumulated orders walks seedTop
  let allLinked := (orderBy id r.2).dedup
  let fusedMap := upsertAll setTime fusedMap
    ((orders.lookup.iterate (S.lookupByMemoryIdsBatch allLinked)).map fun e => (e.1, e.2.1))
  let batchedEdges := s.batchedEdges S
  let lookup := S.lookupByMemoryIdsBatch (orderBy id (batchedEdges.map GraphEdge.memoryId)).dedup
  let reached := batchedEdges.filterMap fun edge =>
    (lookup.lookup edge.memoryId).map fun row => (edge, row.1)
  let graphScores := upsertAll addBoost r.1 (reached.map fun e => (e.1.memoryId, e.1.boost))
  let fusedMap := upsertAll setTime fusedMap (reached.map fun e => (e.1.memoryId, e.2))
  { items := (sortByScore FusedItem.scored
      ((orders.items.iterate fusedMap).map fun e => ⟨e.1, e.2.1, e.2.2⟩)).take s.hydrationCap
    graphScores := graphScores.map fun e => (e.1, calibrated e.2) }

/-! ## The walks of a store -/

/-- A link adds to one score of a map. -/
theorem distinct_expandFrontier {intent : Option QueryIntent} {w : ClusterWalk}
    {scores : List (String × ℚ)} (h : Distinct scores) (frontier : List String) :
    Distinct (w.expandFrontier intent frontier scores).1 := by
  unfold ClusterWalk.expandFrontier
  refine List.foldlRecOn (motive := fun r : List (String × ℚ) × List String => Distinct r.1)
    frontier _ h fun r hr node _ => ?_
  refine List.foldlRecOn (motive := fun r : List (String × ℚ) × List String => Distinct r.1)
    _ _ hr fun r hr link _ => ?_
  exact nodup_tally hr [_]

/-- The maps of a walk over edges have each memory once. -/
theorem distinct_walk {edges : List EdgeRow} {readFails : ℕ → Bool} {maxNodeDegree : UInt64}
    {edgeTypeFilter : Option String} {intent : Option QueryIntent} (n : ℕ) {depth : ℕ}
    {w : ClusterWalk} (h : ∀ scores ∈ w.accumulated, Distinct scores) :
    ∀ scores ∈ (ClusterWalk.walk edges readFails maxNodeDegree edgeTypeFilter intent n depth
      w).accumulated, Distinct scores := by
  induction n generalizing depth w with
  | zero => exact h
  | succ n ih =>
    -- Reading the neighbours does not touch the scores.
    have hread : (w.readMissing edges readFails maxNodeDegree edgeTypeFilter depth).1.accumulated =
        w.accumulated := by
      unfold ClusterWalk.readMissing
      dsimp only
      split_ifs <;> rfl
    -- A level keeps the memories of each seed distinct.
    have hlevel : ∀ w : ClusterWalk, (∀ scores ∈ w.accumulated, Distinct scores) →
        ∀ scores ∈ (w.expandLevel intent).accumulated, Distinct scores := by
      intro w hw scores hscores
      obtain ⟨result, hresult, rfl⟩ := List.mem_map.mp hscores
      rw [← List.map_uncurry_zip_eq_zipWith] at hresult
      obtain ⟨pair, hpair, rfl⟩ := List.mem_map.mp hresult
      exact distinct_expandFrontier (hw _ (List.of_mem_zip hpair).2) _
    unfold ClusterWalk.walk
    dsimp only
    split_ifs
    · exact hread ▸ h
    · exact hlevel _ (hread ▸ h)
    · exact ih (hlevel _ (hread ▸ h))

/-- The walks over the links and edges of a store, with exact sums that are rounded in the end. -/
def FusionWalks.ofStore (S : TenantStore) (readFails : ℕ → Bool) (graphMaxDepth : ℕ)
    (graphMaxNodeDegree : UInt64) (intent : QueryIntent) : FusionWalks where
  linkScores seed :=
    ⟨(getLinkClusterScores S.memoryLinks.rows seed (UInt64.ofNat graphMaxDepth)).map fun e =>
      (e.1, Format.binary32.round e.2), by
        unfold getLinkClusterScores
        exact Distinct.map_snd (nodup_tally distinct_nil _) Format.binary32.round⟩
  edgeScores seeds :=
    (collectEdgeClusterScoresForSeeds S.edges.rows readFails graphMaxNodeDegree none (some intent)
      seeds graphMaxDepth).1.attach.map fun scores =>
        ⟨scores.1.map fun e => (e.1, Format.binary32.round e.2), by
          refine Distinct.map_snd (distinct_walk graphMaxDepth ?_ _ scores.2) Format.binary32.round
          intro scores hscores
          obtain ⟨seed, -, rfl⟩ := List.mem_map.mp hscores
          exact distinct_nil⟩

end Tellodb
