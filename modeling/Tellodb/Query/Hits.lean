import Tellodb.Query.Scope
import Tellodb.Query.Selection

/-!
# The hits of a query

`Engine::query` of `db.rs` runs the pipeline with a limit from 1 to 1000 and keeps the stored rows
of the response. The rows that are selected are of distinct memories, and of the stored ones among
the candidates there are as many as the limit allows, since each synthesized candidate adds a place
of its own (`SelectingEngine.storedRows_length`). The row made of a card has no place of its own: if
the selection is full, the last of its rows makes room. So the hits are the stored rows without that
one (`engineQuery_answers`), and a query for one hit can be left without any
(`engineQuery_displaced`). -/

namespace Tellodb

open Machine Machine.Format Relational Collections

/-! ## The engine -/

/-- `Query` -/
structure Query where
  text : String
  entityId : Option String
  limit : ℕ
  asOfMs : Option UInt64
  knownAsOfMs : Option UInt64
  referenceTimeMs : Option UInt64
  rerank : Bool

/-- The payload that `Engine::query` makes of a query. -/
def Query.payload (query : Query) : QueryPayload where
  textualQuery := query.text
  limit := min (max query.limit 1) 1000
  entityId := query.entityId
  enableNeuralRerank := some query.rerank
  includeEvidence := none
  verifyEvidence := none
  proofMode := none
  maxEvidenceTurnsPerSession := none
  pointInTimeMs := query.asOfMs
  knownAsOfMs := query.knownAsOfMs
  referenceTimeMs := query.referenceTimeMs

/-- `Hit`, without the fields of facts. -/
structure Hit where
  memoryId : String
  entityId : String
  sessionId : String
  text : String
  score : ℚ
  createdAtMs : UInt64
  deriving DecidableEq

/-- The hit of a row. -/
def QueryResult.hit (row : QueryResult) : Hit where
  memoryId := row.memoryId
  entityId := row.entityId
  sessionId := row.sessionId
  text := row.textualContent
  score := row.similarity
  createdAtMs := row.createdAtMs

/-- `Engine::query` -/
def engineQuery (Q : QueryEngine) (clock : UInt64) (S : TenantStore) (query : Query) : List Hit :=
  (storedHits Q clock S query.payload).map QueryResult.hit

/-! ## The selection of an engine -/

/-- The signals of evidence that the selection reads. -/
structure SelectionSignals where
  entityHits : ℕ
  lexicalHits : ℕ
  temporalHits : ℕ
  facetMask : UInt64

/-- Evidence with its signals, if its score is a number of `f32`. -/
def EvidenceCard.withSignals (card : EvidenceCard) (signals : SelectionSignals) :
    Option ScoredCard :=
  if h : Format.binary32.Has card.finalScore then
    some { card with
      entityHits := signals.entityHits
      lexicalHits := signals.lexicalHits
      temporalHits := signals.temporalHits
      facetMask := signals.facetMask
      scored := h }
  else none

/-- What the selection goes by. -/
structure Selector where
  isAlphanumeric : Char → Bool
  plan : TenantStore → QueryPayload → QueryPlan
  signals : TenantStore → QueryPayload → EvidenceCard → SelectionSignals

section

variable (T : Selector) (S : TenantStore) (payload : QueryPayload) (cards : List EvidenceCard)

/-- The evidence as the selection reads it. -/
def Selector.scoredCards : List ScoredCard :=
  cards.filterMap fun card => card.withSignals (T.signals S payload card)

/-- The evidence that is selected, as `score_build_response` calls for it. -/
def Selector.select (limit : ℕ) : List EvidenceCard :=
  let plan := T.plan S payload
  ((selectCandidatesWithSessionHead T.isAlphanumeric (limit + 1) (T.scoredCards S payload cards)
    limit plan plan.preferDistilled plan.preferEpisodic).getD []).map ScoredCard.toEvidenceCard

/-- No session has a score that is out of the range of `f32`. -/
def Selector.InRange : Prop :=
  (T.plan S payload).coverageMode = true →
    inRange (T.scoredCards S payload cards) = T.scoredCards S payload cards

end

variable {T : Selector} {S : TenantStore} {payload : QueryPayload} {cards : List EvidenceCard}

/-- The signals are added to the evidence as it is. -/
theorem EvidenceCard.withSignals_eq_some {card : EvidenceCard} {signals : SelectionSignals}
    {scored : ScoredCard} (h : card.withSignals signals = some scored) :
    scored.toEvidenceCard = card := by
  unfold EvidenceCard.withSignals at h
  split_ifs at h
  obtain rfl := Option.some.inj h
  rfl

/-- All evidence is read, if its scores are numbers of `f32`. -/
theorem Selector.map_scoredCards (T : Selector) (S : TenantStore) (payload : QueryPayload)
    (hfinite : ∀ card ∈ cards, Format.binary32.Has card.finalScore) :
    (T.scoredCards S payload cards).map ScoredCard.toEvidenceCard = cards := by
  unfold Selector.scoredCards
  induction cards with
  | nil => rfl
  | cons card cards ih =>
    obtain ⟨hcard, hcards⟩ := List.forall_mem_cons.mp hfinite
    obtain ⟨scored, hscored⟩ : ∃ scored,
        card.withSignals (T.signals S payload card) = some scored := by
      unfold EvidenceCard.withSignals
      rw [dif_pos hcard]
      exact ⟨_, rfl⟩
    rw [List.filterMap_cons_some
      (f := fun card : EvidenceCard => card.withSignals (T.signals S payload card)) hscored,
      List.map_cons, ih hcards, EvidenceCard.withSignals_eq_some hscored]

/-- What is selected is some of the evidence. -/
theorem Selector.select_subset (T : Selector) (S : TenantStore) (payload : QueryPayload)
    (cards : List EvidenceCard) (limit : ℕ) : T.select S payload cards limit ⊆ cards := by
  intro card hcard
  obtain ⟨selected, hrun, hselection, -⟩ := selectCandidates_taken T.isAlphanumeric
    (T.plan S payload) (T.plan S payload).preferDistilled (T.plan S payload).preferEpisodic
    (T.scoredCards S payload cards) limit
  unfold Selector.select at hcard
  dsimp only at hcard
  rw [hrun _ (Nat.lt_succ_self limit)] at hcard
  obtain ⟨scored, hscored, rfl⟩ := List.mem_map.mp hcard
  have hmem : scored ∈ T.scoredCards S payload cards := by
    have hpool := hselection.subset hscored
    split_ifs at hpool
    · exact (List.mem_filter.mp hpool).1
    · exact hpool
  obtain ⟨source, hsource, hsignals⟩ := List.mem_filterMap.mp hmem
  rw [EvidenceCard.withSignals_eq_some hsignals]
  exact hsource

/-- As much evidence is selected as the limit and its sources allow, of each source once. -/
theorem Selector.select_spec (hfinite : ∀ card ∈ cards, Format.binary32.Has card.finalScore)
    (hrange : T.InRange S payload cards) (limit : ℕ) :
    ((T.select S payload cards limit).map EvidenceCard.sourceMemoryId).Nodup ∧
      (T.select S payload cards limit).length =
        min limit (cards.map EvidenceCard.sourceMemoryId).dedup.length := by
  obtain ⟨selected, hrun, hselection, hlength, -⟩ := selectCandidates_taken T.isAlphanumeric
    (T.plan S payload) (T.plan S payload).preferDistilled (T.plan S payload).preferEpisodic
    (T.scoredCards S payload cards) limit
  have hpool : (if (T.plan S payload).coverageMode then inRange (T.scoredCards S payload cards)
      else T.scoredCards S payload cards) = T.scoredCards S payload cards := by
    split_ifs with hmode
    · exact hrange hmode
    · rfl
  have hselect : T.select S payload cards limit = selected.map ScoredCard.toEvidenceCard := by
    unfold Selector.select
    dsimp only
    rw [hrun _ (Nat.lt_succ_self limit)]
    rfl
  have hmemories : (T.scoredCards S payload cards).map ScoredCard.memory =
      cards.map EvidenceCard.sourceMemoryId := by
    conv_rhs => rw [← T.map_scoredCards S payload hfinite, List.map_map]
    rfl
  rw [hpool, hmemories] at hlength
  rw [hselect, List.map_map, List.length_map]
  exact ⟨hselection.nodup, hlength⟩

/-- A query engine that selects with `select_candidates_with_session_head`, and whose scores are
numbers of `f32`. -/
structure SelectingEngine extends QueryEngine where
  selector : Selector
  selects : selectCandidates = selector.select
  scored : ∀ S payload memoryId, Format.binary32.Has (finalScore S payload memoryId)

/-! ## The candidates -/

section

variable (Q : QueryEngine) (clock : UInt64) (S : TenantStore) (payload : QueryPayload)

/-- The stored memories that survive the scoring. -/
def storedCandidates : List String :=
  ((scoreLoop Q clock S payload).map EvidenceCard.sourceMemoryId).dedup.filter fun memoryId =>
    !hasSyntheticTag memoryId

/-- The evidence that is synthesized. -/
def synthesizedEvidence : List EvidenceCard :=
  (sortedEvidence Q clock S payload).filter fun card => hasSyntheticTag card.sourceMemoryId

/-- The rows of the selection that are stored. -/
def storedRows : List QueryResult :=
  (evidenceRows Q clock S payload).filter fun row => row.origin = .stored

/-- The rows of the selection that are synthesized. -/
def synthesizedRows : List QueryResult :=
  (evidenceRows Q clock S payload).filter fun row => !decide (row.origin = .stored)

/-- The row that makes room for the row of a card: the last one, if the selection is full. -/
def displacedRow : Option QueryResult :=
  if (cardRow S (evidenceRows Q clock S payload)).isSome ∧
      rowBudget Q clock S payload ≤ (evidenceRows Q clock S payload).length then
    (evidenceRows Q clock S payload).getLast?
  else none

/-- The place of a row in the response. -/
def QueryResult.rank (row : QueryResult) : ℚ ×ₗ String :=
  toLex (-row.similarity, row.memoryId)

end

variable {Q : QueryEngine} {clock : UInt64}

/-- A row is stored if its identifier has no tag of a synthesized one. -/
theorem EvidenceCard.row_origin (card : EvidenceCard) :
    (card.row S).origin = .stored ↔ hasSyntheticTag card.sourceMemoryId = false := by
  have horigin : (card.row S).origin =
      if hasSyntheticTag card.sourceMemoryId then .synthesizedFact else .stored := rfl
  rw [horigin]
  cases hasSyntheticTag card.sourceMemoryId
  · exact iff_of_true rfl rfl
  · exact iff_of_false (by decide) (by decide)

/-- The row made of a card is not stored. -/
theorem cardRow_origin {rows : List QueryResult} {row : QueryResult}
    (h : cardRow S rows = some row) : row.origin ≠ .stored := by
  unfold cardRow at h
  obtain ⟨top, -, hcard⟩ := Option.bind_eq_some_iff.mp h
  obtain ⟨card, -, rfl⟩ := Option.map_eq_some_iff.mp hcard
  exact ResultOrigin.noConfusion

/-- The evidence of a fact is synthesized. -/
theorem factEvidence_synthetic {card : EvidenceCard} (h : card ∈ factEvidence Q clock S payload) :
    hasSyntheticTag card.sourceMemoryId = true ∧ card.finalScore = 1000000000 := by
  unfold factEvidence at h
  split at h
  · split at h
    · obtain rfl := List.mem_singleton.mp h
      exact ⟨hasSyntheticTag_fact _, rfl⟩
    · exact absurd h List.not_mem_nil
  · exact absurd h List.not_mem_nil

/-- The evidence of the loop has the scores of the engine. -/
theorem scoreLoop_finalScore {card : EvidenceCard} (h : card ∈ scoreLoop Q clock S payload) :
    ∃ memoryId, card.finalScore = Q.finalScore S payload memoryId := by
  unfold scoreLoop at h
  obtain ⟨item, -, hitem⟩ := List.mem_filterMap.mp h
  refine ⟨item.1, ?_⟩
  unfold scoreItem at hitem
  split_ifs at hitem
  split at hitem
  · exact absurd hitem (by simp)
  · dsimp only at hitem
    split_ifs at hitem
    obtain rfl := Option.some.inj hitem
    rfl

/-- The evidence is that of the scored candidates and that of the facts. -/
theorem mem_sortedEvidence {card : EvidenceCard} : card ∈ sortedEvidence Q clock S payload ↔
    card ∈ scoreLoop Q clock S payload ∨ card ∈ factEvidence Q clock S payload := by
  unfold sortedEvidence
  rw [mem_orderBy, List.mem_append]

/-- All scores are numbers of `f32`. -/
theorem SelectingEngine.sortedEvidence_has (E : SelectingEngine) :
    ∀ card ∈ sortedEvidence E.toQueryEngine clock S payload,
      Format.binary32.Has card.finalScore := by
  intro card hcard
  rcases mem_sortedEvidence.mp hcard with hloop | hfact
  · obtain ⟨memoryId, hscore⟩ := scoreLoop_finalScore hloop
    rw [hscore]
    exact E.scored S payload memoryId
  · rw [(factEvidence_synthetic hfact).2]
    decide +kernel

/-- The sources of the evidence, each once. -/
def sources (Q : QueryEngine) (clock : UInt64) (S : TenantStore) (payload : QueryPayload) :
    List String :=
  ((sortedEvidence Q clock S payload).map EvidenceCard.sourceMemoryId).dedup

/-- The sources are the memories that the evidence cites. -/
theorem mem_sources {memoryId : String} : memoryId ∈ sources Q clock S payload ↔
    ∃ card ∈ sortedEvidence Q clock S payload, card.sourceMemoryId = memoryId := by
  unfold sources
  rw [List.mem_dedup, List.mem_map]

/-- The sources without the tag are the stored candidates. -/
theorem sources_filter_stored : ((sources Q clock S payload).filter fun memoryId =>
    !hasSyntheticTag memoryId).Perm (storedCandidates Q clock S payload) := by
  have hsources : (sources Q clock S payload).Nodup := List.nodup_dedup _
  have hstored : (storedCandidates Q clock S payload).Nodup := (List.nodup_dedup _).filter _
  refine (List.perm_ext_iff_of_nodup (hsources.filter _) hstored).mpr fun memoryId => ?_
  unfold storedCandidates
  rw [List.mem_filter, List.mem_filter]
  refine and_congr_left fun hplain => ?_
  rw [mem_sources, List.mem_dedup, List.mem_map]
  constructor
  · rintro ⟨card, hcard, rfl⟩
    refine ⟨card, (mem_sortedEvidence.mp hcard).resolve_right fun hfact => ?_, rfl⟩
    rw [(factEvidence_synthetic hfact).1] at hplain
    exact Bool.false_ne_true hplain
  · rintro ⟨card, hcard, rfl⟩
    exact ⟨card, mem_sortedEvidence.mpr (.inl hcard), rfl⟩

/-- There is evidence for each source with the tag. -/
theorem sources_filter_synthetic (Q : QueryEngine) (clock : UInt64) (S : TenantStore)
    (payload : QueryPayload) :
    ((sources Q clock S payload).filter hasSyntheticTag).length ≤
      (synthesizedEvidence Q clock S payload).length := by
  have hsub := ((List.dedup_sublist ((sortedEvidence Q clock S payload).map
    EvidenceCard.sourceMemoryId)).filter hasSyntheticTag).length_le
  rw [List.filter_map, List.length_map] at hsub
  exact hsub

/-- The sources are the stored candidates and those with the tag. -/
theorem sources_length (Q : QueryEngine) (clock : UInt64) (S : TenantStore)
    (payload : QueryPayload) : (sources Q clock S payload).length =
    (storedCandidates Q clock S payload).length +
      ((sources Q clock S payload).filter hasSyntheticTag).length := by
  have hsplit := (List.filter_append_perm hasSyntheticTag (sources Q clock S payload)).length_eq
  rw [List.length_append, sources_filter_stored.length_eq] at hsplit
  omega

/-! ## The rows -/

/-- The rows are the rows of the selection. -/
theorem mem_evidenceRows {row : QueryResult} : row ∈ evidenceRows Q clock S payload ↔
    ∃ card ∈ selectedEvidence Q clock S payload, card.row S = row := by
  unfold evidenceRows sortResults
  rw [mem_orderBy, List.mem_map]

/-- A row is of a source, and stored if that has no tag. -/
theorem source_of_mem {row : QueryResult} (h : row ∈ evidenceRows Q clock S payload) :
    row.memoryId ∈ sources Q clock S payload ∧
      (row.origin = .stored ↔ hasSyntheticTag row.memoryId = false) := by
  obtain ⟨card, hcard, rfl⟩ := mem_evidenceRows.mp h
  exact ⟨mem_sources.mpr ⟨card, Q.selectCandidates_subset S payload _ _ hcard, rfl⟩,
    card.row_origin⟩

section

variable {E : SelectingEngine}

/-- The rows are of distinct memories, and there are as many as the budget and the sources allow. -/
theorem SelectingEngine.evidenceRows_spec
    (hrange : E.selector.InRange S payload (sortedEvidence E.toQueryEngine clock S payload)) :
    ((evidenceRows E.toQueryEngine clock S payload).map QueryResult.memoryId).Nodup ∧
      (evidenceRows E.toQueryEngine clock S payload).length =
        min (rowBudget E.toQueryEngine clock S payload)
          (sources E.toQueryEngine clock S payload).length := by
  obtain ⟨hnodup, hlength⟩ := E.selector.select_spec E.sortedEvidence_has hrange
    (rowBudget E.toQueryEngine clock S payload)
  rw [← E.selects] at hnodup hlength
  have hperm : (evidenceRows E.toQueryEngine clock S payload).Perm
      ((selectedEvidence E.toQueryEngine clock S payload).map (EvidenceCard.row S)) :=
    orderBy_perm _ _
  constructor
  · refine (hperm.map QueryResult.memoryId).nodup_iff.mpr ?_
    rw [List.map_map]
    exact hnodup
  · rw [hperm.length_eq, List.length_map]
    exact hlength

/-- The rows are in order. -/
theorem SelectingEngine.evidenceRows_pairwise
    (hrange : E.selector.InRange S payload (sortedEvidence E.toQueryEngine clock S payload)) :
    (evidenceRows E.toQueryEngine clock S payload).Pairwise fun a b => a.rank < b.rank := by
  have hperm : (evidenceRows E.toQueryEngine clock S payload).Perm
      ((selectedEvidence E.toQueryEngine clock S payload).map (EvidenceCard.row S)) :=
    orderBy_perm _ _
  have hkeyed : Keyed QueryResult.rank (evidenceRows E.toQueryEngine clock S payload) := by
    refine List.Nodup.of_map (fun p => (ofLex p).2) ?_
    rw [List.map_map]
    exact (E.evidenceRows_spec hrange).1
  exact (hkeyed.perm hperm).orderBy_pairwise

/-- The selection has a row for as many stored candidates as the limit allows, and no more if it has
one for all evidence that is synthesized. -/
theorem SelectingEngine.storedRows_length
    (hrange : E.selector.InRange S payload (sortedEvidence E.toQueryEngine clock S payload)) :
    min (max payload.limit 1) (storedCandidates E.toQueryEngine clock S payload).length ≤
        (storedRows E.toQueryEngine clock S payload).length ∧
      ((synthesizedRows E.toQueryEngine clock S payload).length =
          (synthesizedEvidence E.toQueryEngine clock S payload).length →
        (storedRows E.toQueryEngine clock S payload).length =
          min (max payload.limit 1)
            (storedCandidates E.toQueryEngine clock S payload).length) := by
  obtain ⟨hnodup, hlength⟩ := E.evidenceRows_spec hrange
  -- Each synthesized row is of a source with the tag.
  have hsynthetic : (synthesizedRows E.toQueryEngine clock S payload).length ≤
      ((sources E.toQueryEngine clock S payload).filter hasSyntheticTag).length := by
    rw [← List.length_map QueryResult.memoryId]
    refine (List.subperm_of_subset (hnodup.sublist (List.filter_sublist.map _))
      fun memoryId hmemory => ?_).length_le
    obtain ⟨row, hrow, rfl⟩ := List.mem_map.mp hmemory
    obtain ⟨hmem, horigin⟩ := List.mem_filter.mp hrow
    obtain ⟨hsource, hstored⟩ := source_of_mem hmem
    refine List.mem_filter.mpr ⟨hsource, ?_⟩
    by_contra hplain
    have hsame := hstored.mpr (Bool.eq_false_iff.mpr hplain)
    rw [hsame] at horigin
    exact absurd horigin (by decide)
  have hcards := sources_filter_synthetic E.toQueryEngine clock S payload
  have hsources := sources_length E.toQueryEngine clock S payload
  have hsplit : (storedRows E.toQueryEngine clock S payload).length +
      (synthesizedRows E.toQueryEngine clock S payload).length =
        (evidenceRows E.toQueryEngine clock S payload).length := by
    rw [← List.length_append]
    exact (List.filter_append_perm _ _).length_eq
  have hbudget : rowBudget E.toQueryEngine clock S payload =
      max payload.limit 1 + (synthesizedEvidence E.toQueryEngine clock S payload).length := rfl
  omega

end

/-! ## The hits -/

/-- The hits are the stored rows of the selection, but for the one that makes room. -/
theorem storedHits_append
    (h : (evidenceRows Q clock S payload).Pairwise fun a b => a.rank < b.rank) :
    storedHits Q clock S payload ++
        ((displacedRow Q clock S payload).filter fun row => row.origin = .stored).toList =
      storedRows Q clock S payload := by
  unfold storedHits scoreBuildResponse storedRows displacedRow
  generalize evidenceRows Q clock S payload = rows at h
  generalize rowBudget Q clock S payload = budget
  -- The rows are sorted already.
  have hsorted : ∀ kept, kept.Sublist rows → sortResults kept = kept := by
    intro kept hkept
    change orderBy QueryResult.rank kept = kept
    exact orderBy_eq_of_pairwise (h.sublist hkept) (List.Perm.refl kept)
  dsimp only
  cases hcard : cardRow S rows with
  | none =>
    dsimp only
    rw [hsorted rows (List.Sublist.refl _), if_neg (by simp)]
    exact List.append_nil _
  -- The row of the card takes a place, so the last row may have to go.
  | some row =>
    dsimp only
    have hrow : ¬ decide (row.origin = .stored) = true := fun hstored =>
      cardRow_origin hcard (of_decide_eq_true hstored)
    -- The row of the card is left out again.
    have hfilter : ∀ kept, kept.Sublist rows →
        (sortResults (row :: kept)).filter (fun row => row.origin = .stored) =
          kept.filter fun row => row.origin = .stored := by
      intro kept hkept
      have hpairwise := (h.sublist hkept).filter fun row => decide (row.origin = .stored)
      have hcons : (row :: kept).filter (fun row => decide (row.origin = .stored)) =
          kept.filter fun row => decide (row.origin = .stored) := List.filter_cons_of_neg hrow
      have hkeyed : Keyed QueryResult.rank
          ((row :: kept).filter fun row => decide (row.origin = .stored)) := by
        rw [hcons]
        exact Keyed.of_pairwise hpairwise
      have horder := orderBy_filter hkeyed
      rw [hcons] at horder
      exact horder.symm.trans (orderBy_eq_of_pairwise hpairwise (List.Perm.refl _))
    -- The budget is full or not.
    by_cases hfull : budget ≤ rows.length
    · rw [if_pos hfull, if_pos ⟨rfl, hfull⟩, hfilter _ (List.dropLast_sublist rows)]
      rcases List.eq_nil_or_concat rows with rfl | ⟨front, last, rfl⟩
      · rfl
      · rw [List.concat_eq_append, List.dropLast_concat, List.getLast?_concat, List.filter_append]
        congr 1
        by_cases hstored : last.origin = .stored
        · simp [hstored]
        · simp [hstored]
    · rw [if_neg hfull, if_neg fun h => hfull h.2, hfilter _ (List.Sublist.refl _)]
      exact List.append_nil _

/-- What a query is answered with: the rows of the selection that are stored, the best first and
each of a candidate of its own. There are as many as the limit and the candidates allow; the row
that makes room for the row of a card is not among the hits. -/
structure QueryAnswered (Q : QueryEngine) (clock : UInt64) (S : TenantStore) (query : Query) :
    Prop where
  hits : engineQuery Q clock S query ++
      (((displacedRow Q clock S query.payload).filter fun row => row.origin = .stored).map
        QueryResult.hit).toList =
    (storedRows Q clock S query.payload).map QueryResult.hit
  sorted : (storedRows Q clock S query.payload).Pairwise fun a b => a.rank < b.rank
  distinct : ((storedRows Q clock S query.payload).map QueryResult.memoryId).Nodup
  candidates : ∀ row ∈ storedRows Q clock S query.payload,
    row.memoryId ∈ storedCandidates Q clock S query.payload
  /-- What is synthesized takes no place of a stored candidate. -/
  enough : min (min (max query.limit 1) 1000) (storedCandidates Q clock S query.payload).length ≤
    (storedRows Q clock S query.payload).length
  /-- It takes the places that are added for it. -/
  exact : (synthesizedRows Q clock S query.payload).length =
      (synthesizedEvidence Q clock S query.payload).length →
    (storedRows Q clock S query.payload).length =
      min (min (max query.limit 1) 1000) (storedCandidates Q clock S query.payload).length

/-- Every query is answered so, unless a session is scored out of range. -/
theorem engineQuery_answers (E : SelectingEngine) (clock : UInt64) (S : TenantStore) (query : Query)
    (hrange : E.selector.InRange S query.payload
      (sortedEvidence E.toQueryEngine clock S query.payload)) :
    QueryAnswered E.toQueryEngine clock S query := by
  obtain ⟨henough, hexact⟩ := E.storedRows_length hrange
  have hlimit : max query.payload.limit 1 = min (max query.limit 1) 1000 := by
    change max (min (max query.limit 1) 1000) 1 = _
    omega
  rw [hlimit] at henough hexact
  have hsorted := E.evidenceRows_pairwise hrange
  refine ⟨?_, hsorted.filter _, (E.evidenceRows_spec hrange).1.sublist
    (List.filter_sublist.map _), fun row hrow => ?_, henough, hexact⟩
  · rw [← storedHits_append hsorted, List.map_append]
    unfold engineQuery
    cases (displacedRow E.toQueryEngine clock S query.payload).filter
      fun row => row.origin = .stored with
    | none => rfl
    | some row => rfl
  · obtain ⟨hmem, horigin⟩ := List.mem_filter.mp hrow
    obtain ⟨hsource, hstored⟩ := source_of_mem hmem
    have hplain := hstored.mp (of_decide_eq_true horigin)
    refine sources_filter_stored.subset (List.mem_filter.mpr ⟨hsource, ?_⟩)
    rw [hplain]
    rfl

/-- A selection without requirements. -/
private def plainSelector : Selector where
  isAlphanumeric := Char.isAlphanum
  plan _ _ := QueryPlan.default
  signals _ _ _ := ⟨0, 0, 0, 0⟩

/-- The scores of two turns. -/
private theorem has_turnScore (memoryId : String) :
    Format.binary32.Has (if memoryId = "alice::s1::0" then 3 / 4 else 1 / 2) := by
  split_ifs
  · decide +kernel
  · decide +kernel

/-- Two turns are candidates, and the first one is the better. -/
private def turnsEngine : SelectingEngine where
  fusedItems _ _ := [("alice::s1::1", 200), ("alice::s1::0", 100)]
  planFactKey _ _ := none
  lifecycleKeeps _ _ _ := true
  finalScore _ _ memoryId := if memoryId = "alice::s1::0" then 3 / 4 else 1 / 2
  selectCandidates := plainSelector.select
  selectCandidates_subset := plainSelector.select_subset
  namedPhrases _ := []
  renderProfile _ := ""
  factsEnabled := true
  selector := plainSelector
  selects := rfl
  scored _ _ memoryId := has_turnScore memoryId

/-- A turn, with a card or without one. -/
private def turnOf (memoryId text : String) (timestamp : UInt64) (cards : List MemoryCard) :
    StoreStep :=
  .commit .insertion ⟨1, 1, 1⟩
    { observations := [(timestamp, memoryId,
        ⟨"alice", text, [], .conversational, "", none, "s1", 0, "", none⟩)]
      memoryCardBatch := cards }

/-- Two turns, of which the first one has a card that is latest and sure. -/
private def turnsStore : TenantStore :=
  [turnOf "alice::s1::0" "I like tea." 100
      [⟨"alice::s1::0", "alice", "alice", "alice::s1::0", "s1", 0, 100, 100, none, "alice",
        "mentions", "I like tea.", "I like tea.", "episode", 78 / 100, true, false, false, none,
        none, none, "", 100, 100⟩],
    turnOf "alice::s1::1" "I bought a kettle." 200 []].foldl (TenantStore.step fun _ _ => 0)
    TenantStore.empty

/-- A query for so many hits. -/
private def drinksQuery (limit : ℕ) : Query where
  text := "What does Alice drink?"
  entityId := some "alice"
  limit := limit
  asOfMs := none
  knownAsOfMs := none
  referenceTimeMs := none
  rerank := false

/-- The answer to a query for two hits. -/
theorem engineQuery_answers_turns :
    QueryAnswered turnsEngine.toQueryEngine 0 turnsStore (drinksQuery 2) :=
  engineQuery_answers turnsEngine 0 turnsStore (drinksQuery 2) fun hmode =>
    absurd hmode Bool.false_ne_true

/-- A query for one hit of two candidates is left without any: the row of the card of the best one
takes its place. -/
theorem engineQuery_displaced :
    (engineQuery turnsEngine.toQueryEngine 0 turnsStore (drinksQuery 1)).length ≠
      min 1 (storedCandidates turnsEngine.toQueryEngine 0 turnsStore
        (drinksQuery 1).payload).length := by
  have hhits : engineQuery turnsEngine.toQueryEngine 0 turnsStore (drinksQuery 1) = [] := by
    decide +kernel
  have hcandidates : (storedCandidates turnsEngine.toQueryEngine 0 turnsStore
      (drinksQuery 1).payload).length = 2 := by decide +kernel
  rw [hhits, hcandidates]
  decide

end Tellodb
