import Tellodb.Collections.Grouped
import Tellodb.Collections.Taken
import Tellodb.Query.Buckets
import Tellodb.Relational.Loop

/-!
# The selection of evidence

`select_candidates_with_session_head` orders the sessions, by their scores or, if the plan has
requirements, one after the other by what each adds to those before it; takes the cards of the
sessions in rounds, one of each session, and then those left over; and gives them in the order of
their scores. The session that is added next must have a score above `f32::MIN`
(`bestSession_spec`), so those whose score is out of range are left out, and their cards with them.
All other cards are in the selection, as far as the limit allows (`selectCandidates_iff`). -/

namespace Tellodb

open Machine Machine.Format Relational Collections

/-! ## The order of the sessions -/

/-- What the choice of the next session goes by. The sessions that are chosen stand with their
places. -/
structure SelectionState where
  ordered : List (SessionBucket × ℕ)
  uncoveredMask : UInt64
  uncoveredFacetMask : UInt64
  selectedEntityHits : ℕ
  selectedTemporalHit : Bool

/-- `hard_selection` -/
def QueryPlan.hardSelection (plan : QueryPlan) : Bool :=
  plan.needsDecomposition || plan.crossEntity || plan.coverageMode

/-- `use_requirement_set_selection` -/
def QueryPlan.useRequirementSetSelection (plan : QueryPlan) : Bool :=
  (plan.coverageMode || !plan.requirements.isEmpty) &&
    (plan.needsDecomposition || plan.crossEntity || plan.ordinalRank.isSome || plan.coverageMode ||
      plan.intent = .inference)

/-- `selection_score` -/
def selectionScore (plan : QueryPlan) (s : SelectionState) (session : SessionBucket) : F32 :=
  let hard := plan.hardSelection
  let uncovered := s.uncoveredMask ≠ 0 ∨ s.uncoveredFacetMask ≠ 0
  let marginalMask := session.requirementMask &&& s.uncoveredMask
  let marginalGain : F32 := (countOnes marginalMask : F32)
  let marginalFacetGain : F32 := (countOnes (session.facetMask &&& s.uncoveredFacetMask) : F32)
  let entityGain : F32 := ((min (session.maxEntityHits - s.selectedEntityHits) 2 : ℕ) : F32)
  let temporalGain : F32 := if !s.selectedTemporalHit && 0 < session.maxTemporalHits then 1 else 0
  let fullRequirementHit : F32 :=
    if session.requirementMask ≠ 0 ∧ marginalMask = session.requirementMask then 0.04 else 0
  let redundancyPenalty : F32 :=
    if uncovered ∧ marginalGain = 0 ∧ marginalFacetGain = 0 ∧ entityGain = 0 ∧ temporalGain = 0 then
      0.08
    else 0
  let lexicalSupport : F32 := (session.maxLexicalHits : F32).min 5 * 0.014
  let baseWeight : F32 := if hard then 0.62 else 1
  let noCoveragePenalty : F32 :=
    if hard ∧ session.requirementMask = 0 ∧ session.facetMask = 0 ∧ session.maxLexicalHits = 0 then
      0.14
    else if hard ∧ uncovered ∧ marginalGain = 0 ∧ marginalFacetGain = 0 then 0.06
    else 0
  let missingSubjectPenalty : F32 :=
    if !plan.subjectEntities.isEmpty && session.maxEntityHits = 0 && hard then 0.05 else 0
  session.score * baseWeight + marginalGain * (if hard then 0.36 else 0.20) +
    marginalFacetGain * (if hard then 0.18 else 0.09) + entityGain * (if hard then 0.08 else 0.05) +
    temporalGain * (if hard then 0.060 else 0.035) + lexicalSupport + fullRequirementHit -
    redundancyPenalty - noCoveragePenalty - missingSubjectPenalty

/-- The best session so far of a round. -/
structure BestSession where
  session : Option (SessionBucket × ℕ)
  score : F32

/-- A session that is not chosen yet is the best one so far if its score is greater. -/
def BestSession.step (plan : QueryPlan) (s : SelectionState) (best : BestSession)
    (p : SessionBucket × ℕ) : BestSession :=
  if s.ordered.any fun chosen => chosen.2 = p.2 then best
  else if Number.Less best.score (selectionScore plan s p.1) then
    ⟨some p, selectionScore plan s p.1⟩
  else best

/-- The session that a round chooses. -/
def bestSession (plan : QueryPlan) (s : SelectionState) (sessions : List SessionBucket) :
    BestSession :=
  sessions.zipIdx.foldl (BestSession.step plan s) ⟨none, F32.lowest⟩

/-- The state after a session is chosen. -/
def SelectionState.choose (s : SelectionState) (p : SessionBucket × ℕ) : SelectionState where
  ordered := s.ordered ++ [p]
  uncoveredMask := s.uncoveredMask &&& ~~~p.1.requirementMask
  uncoveredFacetMask := s.uncoveredFacetMask &&& ~~~p.1.facetMask
  selectedEntityHits := max s.selectedEntityHits p.1.maxEntityHits
  selectedTemporalHit := s.selectedTemporalHit || 0 < p.1.maxTemporalHits

/-- The loop that chooses sessions. Each round chooses one, so as many rounds as sessions are
enough. -/
def orderLoop (plan : QueryPlan) (sessions : List SessionBucket) :
    ℕ → SelectionState → List (SessionBucket × ℕ)
  | 0, s => s.ordered
  | rounds + 1, s =>
    match (bestSession plan s sessions).session with
    | some p => orderLoop plan sessions rounds (s.choose p)
    | none => s.ordered

/-- The state before a session is chosen. -/
def SelectionState.start (plan : QueryPlan) : SelectionState where
  ordered := []
  uncoveredMask := fullMask (min plan.requirements.length 64)
  uncoveredFacetMask := fullMask (min plan.coverageFacets.length 64)
  selectedEntityHits := 0
  selectedTemporalHit := false

/-- The sessions in the order in which their cards are taken. -/
def orderSessions (plan : QueryPlan) (sessions : List SessionBucket) : List SessionBucket :=
  if plan.useRequirementSetSelection then
    (orderLoop plan sessions sessions.length (SelectionState.start plan)).map Prod.fst
  else orderBy (fun session => OrderDual.toDual session.score) sessions

/-! ## The cards -/

/-- The memory that a card stands for. -/
def ScoredCard.memory (card : ScoredCard) : String := card.sourceMemoryId

/-- A card is taken, unless the selection is full or has its memory. -/
def takeCard (limit : ℕ) (selected : List ScoredCard) (card : ScoredCard) : List ScoredCard :=
  takeNew ScoredCard.memory limit selected card

/-- A round over the sessions: one card of each. -/
def selectRound (limit : ℕ) (sessions : List SessionBucket) (selected : List ScoredCard)
    (round : ℕ) : List ScoredCard :=
  (sessions.filterMap fun session => session.items[round]?).foldl (takeCard limit) selected

/-- The body of the loop over the rounds. It breaks after a round without a card. -/
def selectBody (limit : ℕ) (sessions : List SessionBucket) (s : List ScoredCard × ℕ) :
    (List ScoredCard × ℕ) ⊕ List ScoredCard :=
  if s.1.length < limit then
    if (selectRound limit sessions s.1 s.2).length = s.1.length then .inr s.1
    else .inl (selectRound limit sessions s.1 s.2, s.2 + 1)
  else .inr s.1

/-- The order of the result. -/
def ScoredCard.rank (card : ScoredCard) : ℚ ×ₗ String :=
  toLex (-card.finalScore, card.sourceMemoryId)

/-- The groups of the cards, in the order of their sessions. -/
def sessionGroups (candidates : List ScoredCard) : List (List ScoredCard) :=
  (orderBy id (candidates.map ScoredCard.sessionKey).dedup).map fun key =>
    candidates.filter fun card => card.sessionKey = key

/-- `select_candidates_with_session_head`, for so many rounds at most. -/
def selectCandidatesWithSessionHead (isAlphanumeric : Char → Bool) (rounds : ℕ)
    (candidates : List ScoredCard) (limit : ℕ) (plan : QueryPlan)
    (preferDistilled preferEpisodic : Bool) : Option (List ScoredCard) :=
  if limit = 0 ∨ candidates = [] then some []
  else
    let sessions := orderSessions plan ((sessionGroups candidates).map
      (sessionBucket isAlphanumeric plan preferDistilled preferEpisodic))
    (loop (selectBody limit sessions) rounds ([], 0)).map fun selected =>
      orderBy ScoredCard.rank
        ((orderBy ScoredCard.rank (sessions.flatMap SessionBucket.items)).foldl (takeCard limit)
          selected)

/-! ## Sessions that are chosen -/

/-- A session of a score that is no number to choose by, or of one after `f32::MIN`. -/
def SessionBucket.Ranked (session : SessionBucket) : Prop :=
  session.score = .negInf ∨ F32.afterLowest ≤ session.score

/-- The terms of `selection_score` beside the score of the session are small. -/
private theorem selectionScore_of_add {P : F32 → Prop} (plan : QueryPlan) (s : SelectionState)
    (session : SessionBucket)
    (hadd : ∀ (x y : F32) (c : ℕ), P x → y.Within c → c ≤ 64 → P (x + y))
    (h : P (session.score * if plan.hardSelection then 0.62 else 1)) :
    P (selectionScore plan s session) := by
  unfold selectionScore
  extract_lets hard uncovered marginalMask marginalGain marginalFacetGain entityGain temporalGain
    fullRequirementHit redundancyPenalty lexicalSupport baseWeight noCoveragePenalty
    missingSubjectPenalty
  have hweight : ∀ {x y : F32}, x.Within 1 → y.Within 1 → (if hard then x else y).Within 1 :=
    fun hx hy => hx.ite hy
  -- The gains are counts of bits, and the other parts are weights.
  have hgain : marginalGain.Within 64 := F32.within_natCast (countOnes_le _) (by decide)
  have hfacets : marginalFacetGain.Within 64 := F32.within_natCast (countOnes_le _) (by decide)
  have hentity : entityGain.Within 2 := F32.within_natCast (Nat.min_le_right _ 2) (by decide)
  have htemporal : temporalGain.Within 1 :=
    Number.Within.ite (by decide +kernel) (by decide +kernel)
  have hfull : fullRequirementHit.Within 1 :=
    Number.Within.ite (by decide +kernel) (by decide +kernel)
  have hredundancy : redundancyPenalty.Within 1 :=
    Number.Within.ite (by decide +kernel) (by decide +kernel)
  have hlexical : lexicalSupport.Within 5 :=
    F32.within_mul (F32.within_natCast_min _ (c := 5) (by decide)) (d := 1) (by decide +kernel)
      (by decide)
  have hnoCoverage : noCoveragePenalty.Within 1 :=
    Number.Within.ite (by decide +kernel)
      (Number.Within.ite (by decide +kernel) (by decide +kernel))
  have hmissing : missingSubjectPenalty.Within 1 :=
    Number.Within.ite (by decide +kernel) (by decide +kernel)
  -- The parts are added in the order of the source.
  have h₁ := hadd _ _ _ h (F32.within_mul hgain
    (hweight (x := 0.36) (y := 0.20) (by decide +kernel) (by decide +kernel)) (by decide))
    (by decide)
  have h₂ := hadd _ _ _ h₁ (F32.within_mul hfacets
    (hweight (x := 0.18) (y := 0.09) (by decide +kernel) (by decide +kernel)) (by decide))
    (by decide)
  have h₃ := hadd _ _ _ h₂ (F32.within_mul hentity
    (hweight (x := 0.08) (y := 0.05) (by decide +kernel) (by decide +kernel)) (by decide))
    (by decide)
  have h₄ := hadd _ _ _ h₃ (F32.within_mul htemporal
    (hweight (x := 0.060) (y := 0.035) (by decide +kernel) (by decide +kernel)) (by decide))
    (by decide)
  have h₅ := hadd _ _ _ h₄ hlexical (by decide)
  have h₆ := hadd _ _ _ h₅ hfull (by decide)
  have h₇ := hadd _ _ _ h₆ hredundancy.neg (by decide)
  have h₈ := hadd _ _ _ h₇ hnoCoverage.neg (by decide)
  exact hadd _ _ _ h₈ hmissing.neg (by decide)

/-- A session whose score is out of range stays behind all others. -/
theorem selectionScore_eq_negInf (plan : QueryPlan) (s : SelectionState) {session : SessionBucket}
    (h : session.score = .negInf) : selectionScore plan s session = .negInf := by
  refine selectionScore_of_add (P := fun x => x = .negInf) plan s session ?_ ?_
  · rintro x y c rfl hy -
    exact Number.negInf_add_of_within hy
  · rw [h]
    cases plan.hardSelection
    · decide +kernel
    · decide +kernel

/-- Any other session has a score to be chosen by. -/
theorem lowest_less_selectionScore (plan : QueryPlan) (s : SelectionState)
    {session : SessionBucket} (h : F32.afterLowest ≤ session.score) :
    Number.Less F32.lowest (selectionScore plan s session) := by
  have hscore : F32.afterLowest ≤ selectionScore plan s session := by
    refine selectionScore_of_add (P := fun x => F32.afterLowest ≤ x) plan s session
      (fun _ _ _ hx hy hc => F32.afterLowest_le_add hx hy hc) ?_
    cases plan.hardSelection
    · exact le_trans (by decide +kernel)
        (Number.mul_le_mul (w := 1) h (c := 1) (by decide +kernel) (by decide +kernel))
    · exact le_trans (by decide +kernel)
        (Number.mul_le_mul (w := 0.62) h (c := 1) (by decide +kernel) (by decide +kernel))
  exact ⟨by decide +kernel, lt_of_lt_of_le (by decide +kernel) hscore⟩

/-- The best session is one that is not chosen yet and has a score above the start; without one,
none has such a score. -/
structure BestSession.Spec (plan : QueryPlan) (s : SelectionState)
    (seen : List (SessionBucket × ℕ)) (best : BestSession) : Prop where
  le : F32.lowest ≤ best.score
  of_some : ∀ p, best.session = some p → p ∈ seen ∧
    (∀ chosen ∈ s.ordered, chosen.2 ≠ p.2) ∧ Number.Less F32.lowest (selectionScore plan s p.1)
  of_none : best.session = none → best.score = F32.lowest ∧ ∀ p ∈ seen,
    (∀ chosen ∈ s.ordered, chosen.2 ≠ p.2) →
      ¬ Number.Less F32.lowest (selectionScore plan s p.1)

variable {plan : QueryPlan} {s : SelectionState} {sessions : List SessionBucket}

/-- One session more is looked at. -/
theorem BestSession.Spec.step {seen : List (SessionBucket × ℕ)} {best : BestSession}
    (h : best.Spec plan s seen) (p : SessionBucket × ℕ) :
    (best.step plan s p).Spec plan s (seen ++ [p]) := by
  have hseen : ∀ q, best.session = some q → q ∈ seen ++ [p] ∧
      (∀ chosen ∈ s.ordered, chosen.2 ≠ q.2) ∧
        Number.Less F32.lowest (selectionScore plan s q.1) := by
    intro q hq
    obtain ⟨hmem, hrest⟩ := h.of_some q hq
    exact ⟨List.mem_append_left _ hmem, hrest⟩
  unfold BestSession.step
  -- A session that is chosen already is passed over.
  by_cases hchosen : s.ordered.any fun chosen => chosen.2 = p.2
  · rw [if_pos hchosen]
    refine ⟨h.le, hseen, fun hnone => ⟨(h.of_none hnone).1, fun q hq hfree => ?_⟩⟩
    rcases List.mem_append.mp hq with hold | hnew
    · exact (h.of_none hnone).2 q hold hfree
    · obtain rfl := List.mem_singleton.mp hnew
      obtain ⟨c, hc, hplace⟩ := List.any_eq_true.mp hchosen
      exact absurd (of_decide_eq_true hplace) (hfree c hc)
  · rw [if_neg hchosen]
    -- It becomes the best one if its score is greater.
    by_cases hless : Number.Less best.score (selectionScore plan s p.1)
    · rw [if_pos hless]
      have hlowest : F32.lowest < selectionScore plan s p.1 := h.le.trans_lt hless.2
      refine ⟨hlowest.le, fun q hq => ?_, fun hnone => absurd hnone (by simp)⟩
      obtain rfl := Option.some.inj hq
      refine ⟨List.mem_append_right _ List.mem_cons_self, fun c hc hplace => hchosen ?_,
        by decide +kernel, hlowest⟩
      exact List.any_eq_true.mpr ⟨c, hc, decide_eq_true hplace⟩
    · rw [if_neg hless]
      refine ⟨h.le, hseen, fun hnone => ⟨(h.of_none hnone).1, fun q hq hfree => ?_⟩⟩
      rcases List.mem_append.mp hq with hold | hnew
      · exact (h.of_none hnone).2 q hold hfree
      · rw [List.mem_singleton.mp hnew, ← (h.of_none hnone).1]
        exact hless

/-- The best session is chosen among all. -/
theorem bestSession_spec (plan : QueryPlan) (s : SelectionState) (sessions : List SessionBucket) :
    (bestSession plan s sessions).Spec plan s sessions.zipIdx := by
  have hfold : ∀ (rest seen : List (SessionBucket × ℕ)) (best : BestSession),
      best.Spec plan s seen →
        (rest.foldl (BestSession.step plan s) best).Spec plan s (seen ++ rest) := by
    intro rest
    induction rest with
    | nil =>
      intro seen best h
      rw [List.append_nil]
      exact h
    | cons p rest ih =>
      intro seen best h
      rw [List.foldl_cons, List.append_cons]
      exact ih _ _ (h.step p)
  exact hfold sessions.zipIdx [] _
    ⟨le_refl _, fun p hp => absurd hp (by simp), fun _ => ⟨rfl, fun p hp => absurd hp (by simp)⟩⟩

/-- The sessions that are chosen: some of those with a score to be chosen by, each once. -/
structure SelectionState.Chosen (sessions : List SessionBucket)
    (ordered : List (SessionBucket × ℕ)) : Prop where
  nodup : (ordered.map Prod.snd).Nodup
  mem : ∀ p ∈ ordered, p ∈ sessions.zipIdx ∧ p.1.score ≠ .negInf

/-- A round chooses a session that is not chosen yet. -/
theorem SelectionState.Chosen.choose {p : SessionBucket × ℕ}
    (h : SelectionState.Chosen sessions s.ordered)
    (hp : (bestSession plan s sessions).session = some p) :
    SelectionState.Chosen sessions (s.choose p).ordered := by
  obtain ⟨hmem, hfree, hless⟩ := (bestSession_spec plan s sessions).of_some p hp
  constructor
  · have hnew : p.2 ∉ s.ordered.map Prod.snd := by
      intro hplace
      obtain ⟨c, hc, hsame⟩ := List.mem_map.mp hplace
      exact hfree c hc hsame
    change ((s.ordered ++ [p]).map Prod.snd).Nodup
    rw [List.map_append, List.map_singleton]
    exact List.nodup_append.mpr ⟨h.nodup, List.nodup_singleton _, fun a ha b hb hab =>
      hnew (by rw [← List.mem_singleton.mp hb, ← hab]; exact ha)⟩
  · intro q hq
    rcases List.mem_append.mp hq with hold | hnew
    · exact h.mem q hold
    · obtain rfl := List.mem_singleton.mp hnew
      refine ⟨hmem, fun hscore => ?_⟩
      rw [selectionScore_eq_negInf plan s hscore] at hless
      exact absurd hless (by decide +kernel)

/-- At a place stands one session. -/
private theorem eq_of_mem_zipIdx {p q : SessionBucket × ℕ} (hp : p ∈ sessions.zipIdx)
    (hq : q ∈ sessions.zipIdx) (h : p.2 = q.2) : p = q := by
  have hp' := List.mem_zipIdx_iff_getElem?.mp hp
  have hq' := List.mem_zipIdx_iff_getElem?.mp hq
  rw [h, hq'] at hp'
  exact Prod.ext (Option.some.inj hp').symm h

/-- The loop chooses the sessions with a score to be chosen by. -/
theorem orderLoop_chosen (plan : QueryPlan) (hranked : ∀ session ∈ sessions, session.Ranked)
    (rounds : ℕ) (h : SelectionState.Chosen sessions s.ordered)
    (hrounds : sessions.length ≤ s.ordered.length + rounds) :
    SelectionState.Chosen sessions (orderLoop plan sessions rounds s) ∧
      ∀ p ∈ sessions.zipIdx, p.1.score ≠ .negInf → p ∈ orderLoop plan sessions rounds s := by
  induction rounds generalizing s with
  | zero =>
    refine ⟨h, fun p hp _ => ?_⟩
    -- As many sessions are chosen as there are.
    have hsubperm : s.ordered.Subperm sessions.zipIdx :=
      List.subperm_of_subset (List.Nodup.of_map _ h.nodup) fun q hq => (h.mem q hq).1
    have hlength : sessions.zipIdx.length ≤ s.ordered.length := by
      rw [List.length_zipIdx]
      exact hrounds
    exact (hsubperm.perm_of_length_le hlength).mem_iff.mpr hp
  | succ rounds ih =>
    rw [orderLoop]
    cases hbest : (bestSession plan s sessions).session with
    | some p =>
      dsimp only
      refine ih (h.choose hbest) ?_
      change sessions.length ≤ (s.ordered ++ [p]).length + rounds
      rw [List.length_append, List.length_singleton]
      omega
    | none =>
      dsimp only
      refine ⟨h, fun p hp hscore => ?_⟩
      by_contra hout
      have hafter := (hranked p.1 (List.fst_mem_of_mem_zipIdx hp)).resolve_left hscore
      refine ((bestSession_spec plan s sessions).of_none hbest).2 p hp ?_
        (lowest_less_selectionScore plan s hafter)
      intro c hc hplace
      rw [eq_of_mem_zipIdx (h.mem c hc).1 hp hplace] at hc
      exact hout hc

/-- The sessions whose cards are taken: those with a score to be chosen by, if the plan has
requirements, and all otherwise. -/
theorem orderSessions_perm (hranked : ∀ session ∈ sessions, session.Ranked) :
    (orderSessions plan sessions).Perm (sessions.filter fun session =>
      !(plan.useRequirementSetSelection && session.score = .negInf)) := by
  -- Without requirements the sessions are sorted by score.
  unfold orderSessions
  cases plan.useRequirementSetSelection with
  | false =>
    rw [if_neg Bool.false_ne_true]
    have hall : (sessions.filter fun session => !(false && decide (session.score = .negInf))) =
        sessions := by simp
    rw [hall]
    exact orderBy_perm _ _
  -- With them the loop chooses one after the other, and stops at those that score nothing.
  | true =>
    rw [if_pos rfl]
    have hstart : SelectionState.Chosen sessions (SelectionState.start plan).ordered :=
      ⟨List.nodup_nil, fun p hp => absurd hp List.not_mem_nil⟩
    obtain ⟨hchosen, hall⟩ := orderLoop_chosen plan hranked sessions.length hstart
      (Nat.le_add_left _ _)
    -- The places tell equal sessions apart.
    have hplaces : (sessions.zipIdx.filter fun p => !(true && decide (p.1.score = .negInf))).Nodup :=
      (List.Nodup.of_map Prod.snd (by
        rw [List.zipIdx_map_snd]
        exact List.nodup_range')).filter _
    have hperm : (orderLoop plan sessions sessions.length (SelectionState.start plan)).Perm
        (sessions.zipIdx.filter fun p => !(true && decide (p.1.score = .negInf))) := by
      refine (List.perm_ext_iff_of_nodup (List.Nodup.of_map _ hchosen.nodup) hplaces).mpr
        fun p => ⟨fun hp => ?_, fun hp => ?_⟩
      · obtain ⟨hmem, hscore⟩ := hchosen.mem p hp
        exact List.mem_filter.mpr ⟨hmem, by simpa using hscore⟩
      · obtain ⟨hmem, hscore⟩ := List.mem_filter.mp hp
        exact hall p hmem (by simpa using hscore)
    refine (hperm.map Prod.fst).trans (List.Perm.of_eq ?_)
    have hfilter := List.filter_map (f := Prod.fst (β := ℕ)) (l := sessions.zipIdx)
      (p := fun session : SessionBucket => !(true && decide (session.score = .negInf)))
    rw [List.zipIdx_map_fst] at hfilter
    exact hfilter.symm

/-! ## Cards that are taken -/

/-- The selection of some cards. -/
abbrev Selection (limit : ℕ) (cards selected : List ScoredCard) : Prop :=
  Taken ScoredCard.memory limit cards selected

/-- A round takes cards of the sessions. -/
theorem selection_selectRound {limit : ℕ} {selected : List ScoredCard}
    (h : Selection limit (sessions.flatMap SessionBucket.items) selected) (round : ℕ) :
    Selection limit (sessions.flatMap SessionBucket.items)
      (selectRound limit sessions selected round) := by
  refine h.foldl fun card hcard => ?_
  obtain ⟨session, hsession, hitem⟩ := List.mem_filterMap.mp hcard
  exact List.mem_flatMap.mpr ⟨session, hsession, List.mem_of_getElem? hitem⟩

/-- The rounds end, and they take cards of the sessions. -/
theorem loop_selectBody (limit : ℕ) (sessions : List SessionBucket) :
    ∃ selected, Selection limit (sessions.flatMap SessionBucket.items) selected ∧
      ∀ rounds, limit < rounds →
        loop (selectBody limit sessions) rounds ([], 0) = some selected := by
  -- A round that adds something makes the room smaller.
  have hnext : ∀ s s' : List ScoredCard × ℕ,
      Selection limit (sessions.flatMap SessionBucket.items) s.1 →
      selectBody limit sessions s = .inl s' →
      Selection limit (sessions.flatMap SessionBucket.items) s'.1 ∧
        limit - s'.1.length < limit - s.1.length := by
    intro s s' hs hbody
    unfold selectBody at hbody
    by_cases hroom : s.1.length < limit
    · rw [if_pos hroom] at hbody
      by_cases hsame : (selectRound limit sessions s.1 s.2).length = s.1.length
      · rw [if_pos hsame] at hbody
        exact absurd hbody (by simp)
      · rw [if_neg hsame] at hbody
        obtain rfl := Sum.inl.inj hbody
        refine ⟨selection_selectRound hs s.2, ?_⟩
        have hgrows : s.1.length ≤ (selectRound limit sessions s.1 s.2).length :=
          (prefix_foldl_takeNew ScoredCard.memory limit
            (sessions.filterMap fun session : SessionBucket => session.items[s.2]?) s.1).length_le
        dsimp only
        omega
    · rw [if_neg hroom] at hbody
      exact absurd hbody (by simp)
  -- A round that adds nothing ends the loop.
  have hbreak : ∀ (s : List ScoredCard × ℕ) (r : List ScoredCard),
      Selection limit (sessions.flatMap SessionBucket.items) s.1 →
      selectBody limit sessions s = .inr r →
      Selection limit (sessions.flatMap SessionBucket.items) r := by
    intro s r hs hbody
    unfold selectBody at hbody
    split_ifs at hbody
    · obtain rfl := Sum.inr.inj hbody
      exact hs
    · obtain rfl := Sum.inr.inj hbody
      exact hs
  have hstart : Selection limit (sessions.flatMap SessionBucket.items)
      (([], 0) : List ScoredCard × ℕ).1 := Taken.nil
  obtain ⟨selected, hloop, hselected⟩ := loop_of_variant (fun s => limit - s.1.length) hnext hbreak
    hstart (Nat.lt_succ_of_le (Nat.sub_le limit _))
  exact ⟨selected, hselected, fun rounds hrounds => loop_of_le hloop hrounds⟩

/-! ## The cards of the sessions -/

/-- The cards of sessions whose scores are in the range of `f32`. -/
def inRange (candidates : List ScoredCard) : List ScoredCard :=
  candidates.filter fun card =>
    !decide (AllLowest (candidates.filter fun c => c.sessionKey = card.sessionKey))

section

variable (isAlphanumeric : Char → Bool) (plan : QueryPlan) (preferDistilled preferEpisodic : Bool)

/-- The score of a bucket is out of range if that of its cards is. -/
theorem sessionBucket_score (cards : List ScoredCard) :
    (sessionBucket isAlphanumeric plan preferDistilled preferEpisodic cards).Ranked ∧
      ((sessionBucket isAlphanumeric plan preferDistilled preferEpisodic cards).score = .negInf ↔
        plan.coverageMode = true ∧ AllLowest cards) := by
  have hsame : AllLowest (sortItems preferDistilled cards) ↔ AllLowest cards := by
    have hperm := sortItems_perm preferDistilled cards
    unfold AllLowest
    rw [hperm.length_eq]
    exact and_congr_right fun _ => forall_congr' fun card => by rw [hperm.mem_iff]
  by_cases hout : plan.coverageMode = true ∧ AllLowest cards
  · have hscore := sessionScore_eq_negInf isAlphanumeric plan preferDistilled preferEpisodic hout.1
      (hsame.mpr hout.2)
    exact ⟨.inl hscore, iff_of_true hscore hout⟩
  · have hscore := afterLowest_le_sessionScore isAlphanumeric plan preferDistilled preferEpisodic
      (sortItems_pairwise preferDistilled cards) fun hmode hall => hout ⟨hmode, hsame.mp hall⟩
    refine ⟨.inr hscore, iff_of_false (fun hnegInf => ?_) hout⟩
    have hle : F32.afterLowest ≤ .negInf := hnegInf ▸ hscore
    exact absurd hle (by decide +kernel)

/-- A bucket holds the cards of its session. -/
theorem sessionBucket_items (cards : List ScoredCard) :
    (sessionBucket isAlphanumeric plan preferDistilled preferEpisodic cards).items.Perm cards :=
  (reorderItems_perm _ plan).trans (sortItems_perm preferDistilled cards)

/-- The sessions that are left out are those that are out of range in coverage mode. -/
private theorem leaves_out_iff (cards : List ScoredCard) :
    (plan.useRequirementSetSelection && (sessionBucket isAlphanumeric plan preferDistilled
      preferEpisodic cards).score = .negInf) = (plan.coverageMode && AllLowest cards) := by
  have hscore := (sessionBucket_score isAlphanumeric plan preferDistilled preferEpisodic cards).2
  cases hmode : plan.coverageMode with
  | false =>
    rw [hmode] at hscore
    have hne : ¬ (sessionBucket isAlphanumeric plan preferDistilled preferEpisodic cards).score =
        .negInf := fun h => Bool.false_ne_true (hscore.mp h).1
    rw [decide_eq_false hne, Bool.and_false, Bool.false_and]
  | true =>
    have huse : plan.useRequirementSetSelection = true := by
      unfold QueryPlan.useRequirementSetSelection
      rw [hmode]
      simp
    rw [huse, Bool.true_and, Bool.true_and, decide_eq_decide]
    exact hscore.trans (and_iff_right hmode)

/-- The sessions of the cards, each once. -/
private theorem sessionKeys_nodup (candidates : List ScoredCard) :
    (orderBy id (candidates.map ScoredCard.sessionKey).dedup).Nodup :=
  (orderBy_perm _ _).nodup_iff.mpr (List.nodup_dedup _)

/-- Every candidate's session has a bucket. -/
private theorem mem_sessionKeys {candidates : List ScoredCard} {card : ScoredCard}
    (h : card ∈ candidates) :
    card.sessionKey ∈ orderBy id (candidates.map ScoredCard.sessionKey).dedup :=
  (mem_orderBy _ _ _).mpr (List.mem_dedup.mpr (List.mem_map_of_mem h))

/-- The cards that are taken from are those in range, and all cards without coverage mode. -/
theorem flatMap_items_perm (candidates : List ScoredCard) :
    ((orderSessions plan ((sessionGroups candidates).map
      (sessionBucket isAlphanumeric plan preferDistilled preferEpisodic))).flatMap
        SessionBucket.items).Perm
      (if plan.coverageMode then inRange candidates else candidates) := by
  have hranked : ∀ session ∈ (sessionGroups candidates).map
      (sessionBucket isAlphanumeric plan preferDistilled preferEpisodic), session.Ranked := by
    intro session hsession
    obtain ⟨cards, -, rfl⟩ := List.mem_map.mp hsession
    exact (sessionBucket_score isAlphanumeric plan preferDistilled preferEpisodic cards).1
  refine ((orderSessions_perm hranked).flatMap_right _).trans ?_
  unfold sessionGroups
  generalize hkeys : orderBy id (candidates.map ScoredCard.sessionKey).dedup = keys
  -- A session is left out if all its cards have the lowest score.
  have hleft : ∀ k : String, (!(plan.useRequirementSetSelection && (sessionBucket isAlphanumeric
      plan preferDistilled preferEpisodic
        (candidates.filter fun card => card.sessionKey = k)).score = .negInf)) =
      !(plan.coverageMode && AllLowest (candidates.filter fun card => card.sessionKey = k)) :=
    fun k => congrArg Bool.not (leaves_out_iff isAlphanumeric plan preferDistilled preferEpisodic _)
  rw [List.map_map, List.filter_map, List.flatMap_map]
  -- Each bucket has the cards of its session.
  refine (List.Perm.flatMap_left _ fun k _ =>
    sessionBucket_items isAlphanumeric plan preferDistilled preferEpisodic _).trans ?_
  have hnodup : keys.Nodup := hkeys ▸ sessionKeys_nodup candidates
  refine (perm_flatMap_filter ScoredCard.sessionKey candidates (hnodup.filter _)).trans
    (List.Perm.of_eq ?_)
  have hmem : ∀ card ∈ candidates, card.sessionKey ∈ keys := fun card hcard =>
    hkeys ▸ mem_sessionKeys hcard
  -- Whether a card is offered depends on its session only.
  have hfilter : ∀ card ∈ candidates, decide (card.sessionKey ∈ keys.filter
      ((fun session : SessionBucket => !(plan.useRequirementSetSelection &&
        decide (session.score = .negInf))) ∘
        (sessionBucket isAlphanumeric plan preferDistilled preferEpisodic ∘
          fun key => candidates.filter fun card => card.sessionKey = key))) =
      !(plan.coverageMode && AllLowest (candidates.filter fun c =>
        c.sessionKey = card.sessionKey)) := by
    intro card hcard
    rw [← hleft card.sessionKey]
    simp only [List.mem_filter, hmem card hcard, true_and, Function.comp_apply, Bool.decide_eq_true]
  rw [List.filter_congr hfilter]
  cases plan.coverageMode with
  | false => simp
  | true =>
    rw [if_pos rfl]
    rfl

/-! ## The order of the candidates -/

/-- Cards of distinct memories have distinct places in an order that ends in the memory. -/
private theorem keyed_of_memory {κ : Type*} {key : ScoredCard → κ} {cards : List ScoredCard}
    (h : Keyed ScoredCard.memory cards) (last : κ → String)
    (hlast : ∀ card, last (key card) = card.memory) : Keyed key cards := by
  refine List.Nodup.of_map last ?_
  have hmap : (cards.map key).map last = cards.map ScoredCard.memory := by
    rw [List.map_map]
    exact List.map_congr_left fun card _ => hlast card
  rw [hmap]
  exact h

/-- Cards of distinct memories have distinct ranks. -/
theorem keyed_rank {cards : List ScoredCard} (h : Keyed ScoredCard.memory cards) :
    Keyed ScoredCard.rank cards :=
  keyed_of_memory h (fun p => (ofLex p).2) fun _ => rfl

/-- The order inside a session does not depend on that of the candidates. -/
theorem sortItems_congr {cards cards' : List ScoredCard} (h : Keyed ScoredCard.memory cards)
    (hp : cards.Perm cards') : sortItems preferDistilled cards' = sortItems preferDistilled cards :=
  (keyed_of_memory h (fun p => (ofLex (ofLex p).2).2) fun _ => rfl).orderBy_congr hp

/-- The buckets do not depend on the order of the candidates. -/
theorem sessionBuckets_congr {candidates permuted : List ScoredCard}
    (h : Keyed ScoredCard.memory candidates) (hp : candidates.Perm permuted) :
    (sessionGroups permuted).map
        (sessionBucket isAlphanumeric plan preferDistilled preferEpisodic) =
      (sessionGroups candidates).map
        (sessionBucket isAlphanumeric plan preferDistilled preferEpisodic) := by
  have hkeys : orderBy id (permuted.map ScoredCard.sessionKey).dedup =
      orderBy id (candidates.map ScoredCard.sessionKey).dedup := by
    refine Keyed.orderBy_congr ?_ (hp.map _).dedup
    unfold Keyed
    rw [List.map_id]
    exact List.nodup_dedup _
  unfold sessionGroups
  rw [hkeys, List.map_map, List.map_map]
  refine List.map_congr_left fun key _ => ?_
  have hsort := sortItems_congr preferDistilled (h.filter fun card => card.sessionKey = key)
    (hp.filter fun card => card.sessionKey = key)
  simp only [Function.comp_apply, sessionBucket, hsort]

/-- The selection does not depend on the order of the candidates. -/
theorem selectCandidates_congr {candidates permuted : List ScoredCard} (limit rounds : ℕ)
    (h : Keyed ScoredCard.memory candidates) (hp : candidates.Perm permuted) :
    selectCandidatesWithSessionHead isAlphanumeric rounds permuted limit plan preferDistilled
        preferEpisodic =
      selectCandidatesWithSessionHead isAlphanumeric rounds candidates limit plan preferDistilled
        preferEpisodic := by
  have hnil : permuted = [] ↔ candidates = [] := by
    rw [← List.length_eq_zero_iff, ← List.length_eq_zero_iff, hp.length_eq]
  unfold selectCandidatesWithSessionHead
  rw [sessionBuckets_congr isAlphanumeric plan preferDistilled preferEpisodic h hp]
  simp only [hnil]

/-! ## What is selected -/

/-- The selection ends. It takes from the cards in range, or without coverage mode from all, as many
as the limit and their memories allow, in the order of their scores. -/
theorem selectCandidates_taken (candidates : List ScoredCard) (limit : ℕ) :
    ∃ selected, (∀ rounds, limit < rounds → selectCandidatesWithSessionHead isAlphanumeric rounds
        candidates limit plan preferDistilled preferEpisodic = some selected) ∧
      Selection limit (if plan.coverageMode then inRange candidates else candidates) selected ∧
      selected.length = min limit (((if plan.coverageMode then inRange candidates else
        candidates).map ScoredCard.memory).dedup).length ∧
      selected.Pairwise fun a b => a.rank < b.rank := by
  -- Without a limit or a candidate the answer is empty.
  by_cases hempty : limit = 0 ∨ candidates = []
  · refine ⟨[], fun rounds _ => if_pos hempty, Taken.nil, ?_, List.Pairwise.nil⟩
    rcases hempty with rfl | rfl
    · simp
    · simp [inRange]
  · generalize hsessions : orderSessions plan ((sessionGroups candidates).map
      (sessionBucket isAlphanumeric plan preferDistilled preferEpisodic)) = sessions
    have hperm := flatMap_items_perm isAlphanumeric plan preferDistilled preferEpisodic candidates
    rw [hsessions] at hperm
    obtain ⟨taken, htaken, hloop⟩ := loop_selectBody limit sessions
    -- What is left over is offered after the rounds.
    have hselection : Selection limit (sessions.flatMap SessionBucket.items)
        ((orderBy ScoredCard.rank (sessions.flatMap SessionBucket.items)).foldl (takeCard limit)
          taken) :=
      htaken.foldl fun card hcard => (mem_orderBy _ _ _).mp hcard
    have hfull := foldl_takeNew_full ScoredCard.memory limit
      (orderBy ScoredCard.rank (sessions.flatMap SessionBucket.items)) taken
    have hlength := hselection.length_eq_dedup
      (hfull.imp_right fun hall card hcard => hall card ((mem_orderBy _ _ _).mpr hcard))
    -- The number that is taken is that of the distinct memories.
    rw [(hperm.map ScoredCard.memory).dedup.length_eq] at hlength
    have hsorted := orderBy_perm ScoredCard.rank ((orderBy ScoredCard.rank
      (sessions.flatMap SessionBucket.items)).foldl (takeCard limit) taken)
    refine ⟨orderBy ScoredCard.rank ((orderBy ScoredCard.rank
      (sessions.flatMap SessionBucket.items)).foldl (takeCard limit) taken),
      fun rounds hrounds => ?_, ⟨?_, fun card hcard => ?_, ?_⟩, ?_, ?_⟩
    · unfold selectCandidatesWithSessionHead
      rw [if_neg hempty, hsessions]
      dsimp only
      rw [hloop rounds hrounds]
      rfl
    · exact Keyed.perm hselection.nodup hsorted.symm
    · exact hperm.subset (hselection.subset (hsorted.subset hcard))
    · exact hsorted.length_eq.le.trans hselection.length_le
    · exact hsorted.length_eq.trans hlength
    · exact (keyed_rank hselection.nodup).orderBy_pairwise

/-- The selection of cards of distinct memories: as many as the limit and the cards that are taken
from allow, each once, in the order of their scores. -/
theorem selectCandidates_spec {candidates : List ScoredCard} (limit : ℕ)
    (h : Keyed ScoredCard.memory candidates) :
    ∃ selected, (∀ rounds, limit < rounds → selectCandidatesWithSessionHead isAlphanumeric rounds
        candidates limit plan preferDistilled preferEpisodic = some selected) ∧
      selected.length = min limit
        (if plan.coverageMode then inRange candidates else candidates).length ∧
      selected ⊆ candidates ∧ Keyed ScoredCard.memory selected ∧
      selected.Pairwise fun a b => a.rank < b.rank := by
  obtain ⟨selected, hrun, hselection, hlength, hsorted⟩ :=
    selectCandidates_taken isAlphanumeric plan preferDistilled preferEpisodic candidates limit
  have hsub : (if plan.coverageMode then inRange candidates else candidates).Sublist
      candidates := by
    split_ifs
    · exact List.filter_sublist
    · exact List.Sublist.refl _
  have hdistinct : ((if plan.coverageMode then inRange candidates else candidates).map
      ScoredCard.memory).Nodup := h.sublist (hsub.map _)
  rw [hdistinct.dedup, List.length_map] at hlength
  exact ⟨selected, hrun, hlength, fun card hcard => hsub.subset (hselection.subset hcard),
    hselection.nodup, hsorted⟩

/-- The selection ends with the cards that it is to have, in whatever order the candidates are: as
many as the limit and the candidates allow, each once, in the order of their scores. -/
def Selects (candidates : List ScoredCard) (limit : ℕ) : Prop :=
  ∃ selected,
    (∀ permuted, candidates.Perm permuted → ∀ rounds, limit < rounds →
      selectCandidatesWithSessionHead isAlphanumeric rounds permuted limit plan preferDistilled
        preferEpisodic = some selected) ∧
    selected.length = min limit candidates.length ∧ selected ⊆ candidates ∧
    Keyed ScoredCard.memory selected ∧ selected.Pairwise fun a b => a.rank < b.rank

/-- The selection is as it is to be exactly if, in coverage mode, there are enough cards of sessions
whose scores are in the range of `f32`. -/
theorem selectCandidates_iff {candidates : List ScoredCard} (limit : ℕ)
    (h : Keyed ScoredCard.memory candidates) :
    Selects isAlphanumeric plan preferDistilled preferEpisodic candidates limit ↔
      (plan.coverageMode = true → min limit candidates.length ≤ (inRange candidates).length) := by
  obtain ⟨selected, hrun, hlength, hsub, hkeyed, hsorted⟩ :=
    selectCandidates_spec isAlphanumeric plan preferDistilled preferEpisodic limit h
  have hle : (inRange candidates).length ≤ candidates.length := List.length_filter_le _ _
  constructor
  -- With fewer cards in range than the limit asks for, the count falls short.
  · rintro ⟨other, hother, hcount, -⟩ hmode
    have hsame := hrun _ (Nat.lt_succ_self limit)
    rw [hother candidates (List.Perm.refl _) _ (Nat.lt_succ_self limit)] at hsame
    rw [← Option.some.inj hsame, hcount, hmode, if_pos rfl] at hlength
    omega
  · intro henough
    -- The order of the candidates does not matter.
    refine ⟨selected, fun permuted hp rounds hrounds => ?_, ?_, hsub, hkeyed, hsorted⟩
    · rw [selectCandidates_congr isAlphanumeric plan preferDistilled preferEpisodic limit rounds h
        hp]
      exact hrun rounds hrounds
    · cases hmode : plan.coverageMode with
      | false =>
        rw [hmode, if_neg Bool.false_ne_true] at hlength
        exact hlength
      | true =>
        have hcards := henough hmode
        rw [hmode, if_pos rfl] at hlength
        omega

end

/-- A card of a session. -/
private def cardOf (memory session : String) (score : ℚ) (h : Format.binary32.Has score) :
    ScoredCard where
  claimText := "a note"
  sourceMemoryId := memory
  sourceSessionId := session
  cardId := none
  isLatest := true
  finalScore := score
  internalKind := .conversational
  createdAtMs := 0
  entityId := "alice"
  sourceTurnIndex := 0
  entityHits := 0
  lexicalHits := 0
  temporalHits := 0
  facetMask := 0
  scored := h

/-- A session of two cards and one of a single card. -/
private def twoSessions : List ScoredCard :=
  [cardOf "b-first" "b" (3 / 4) (by decide +kernel), cardOf "a-only" "a" (1 / 4) (by decide +kernel),
    cardOf "b-second" "b" (1 / 2) (by decide +kernel)]

/-- The best two of three cards of two sessions, in coverage mode. -/
theorem selectCandidates_iff_twoSessions :
    Selects Char.isAlphanum { QueryPlan.default with coverageMode := true } false true twoSessions
      2 :=
  (selectCandidates_iff Char.isAlphanum { QueryPlan.default with coverageMode := true } false true
    2 (by unfold Keyed; decide +kernel)).mpr fun _ => by decide +kernel

/-- `f32::MIN` is a score. -/
private theorem has_lowest : Format.binary32.Has (-((2 ^ 24 - 1) * 2 ^ 104)) := by
  decide +kernel

/-- A session of three cards that are all scored `f32::MIN`. -/
private def lowestSession : List ScoredCard :=
  [cardOf "first" "a" (-((2 ^ 24 - 1) * 2 ^ 104)) has_lowest,
    cardOf "second" "a" (-((2 ^ 24 - 1) * 2 ^ 104)) has_lowest,
    cardOf "third" "a" (-((2 ^ 24 - 1) * 2 ^ 104)) has_lowest]

/-- Of three cards nothing is selected in coverage mode: the weights of the three scores add up to
more than one, and the sum is `-∞`. -/
theorem selects_lowestSession :
    ¬ Selects Char.isAlphanum { QueryPlan.default with coverageMode := true } false false
      lowestSession 3 := by
  rintro ⟨selected, hrun, hlength, -⟩
  have hsame := hrun lowestSession (List.Perm.refl _) 4 (by decide)
  have hnone : selectCandidatesWithSessionHead Char.isAlphanum 4 lowestSession 3
      { QueryPlan.default with coverageMode := true } false false = some [] := by decide +kernel
  rw [hnone] at hsame
  rw [← Option.some.inj hsame] at hlength
  exact absurd hlength (by decide)

end Tellodb
