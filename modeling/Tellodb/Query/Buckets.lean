import Tellodb.Query.Coverage

/-!
# Sessions as candidates

`select_candidates_with_session_head` puts the evidence of each session into a bucket: in the order
of its scores, or with what covers more facets first, and with a score of its own, a weighted sum of
the three best scores and of small bonuses (`sessionScore`). The order inside a bucket loses no card
(`reorderItems_perm`). The score is a number, and all but `-∞`, unless the weighted sum is out of
the range of `f32`: that happens to a session of three or more cards that are all scored `f32::MIN`,
in coverage mode, whose weights add up to a little more than one (`sessionScore_eq_negInf`,
`afterLowest_le_sessionScore`). -/

namespace Tellodb

open Machine Machine.Format Relational

/-- `kind_priority` -/
def kindPriority (kind : MemoryKind) (preferDistilled : Bool) : ℕ :=
  if preferDistilled then
    match kind with
    | .fact => 4
    | .sessionSummary => 3
    | .lesson => 2
    | .conversational => 1
    | .syntheticQuery => 1
    | .decision => 0
    | .preference => 0
  else
    match kind with
    | .conversational => 4
    | .syntheticQuery => 4
    | .fact => 3
    | .sessionSummary => 2
    | .lesson => 1
    | .decision => 0
    | .preference => 0

/-- `routed_session_from_memory_id` -/
def routedSessionFromMemoryId (memoryId : String) : Option String :=
  match MemoryId.parse memoryId with
  | .ok id => if id.structured then some id.session else none
  | .error _ => none

/-- The session that a card counts for. -/
def ScoredCard.sessionKey (card : ScoredCard) : String :=
  if card.sourceSessionId.isEmpty then
    (routedSessionFromMemoryId card.sourceMemoryId).getD card.sourceMemoryId
  else card.sourceSessionId

/-- `SessionBucket` -/
structure SessionBucket where
  score : F32
  items : List ScoredCard
  requirementMask : UInt64
  facetMask : UInt64
  maxEntityHits : ℕ
  maxLexicalHits : ℕ
  maxTemporalHits : ℕ

/-! ## The order of the cards -/

/-- The best card so far in a round of `reorder_session_items_for_requirements`. -/
structure BestItem where
  idx : ℕ
  gain : ℕ
  score : F32

/-- A card that covers more, or as much with a better score, is the best one so far. -/
def BestItem.step (coveredMask : UInt64) (best : BestItem) (p : ScoredCard × ℕ) : BestItem :=
  let gain := countOnes (p.1.facetMask &&& ~~~coveredMask)
  if best.gain < gain ∨ gain = best.gain ∧ Number.Less best.score p.1.score then
    ⟨p.2, gain, p.1.score⟩
  else best

/-- The card that a round takes. -/
def bestItem (coveredMask : UInt64) (remaining : List ScoredCard) : BestItem :=
  remaining.zipIdx.foldl (BestItem.step coveredMask) ⟨0, 0, F32.lowest⟩

/-- The loop of `reorder_session_items_for_requirements`. Each round takes a card, so as many rounds
as cards are enough. -/
def reorderLoop : ℕ → UInt64 → List ScoredCard → List ScoredCard
  | 0, _, _ => []
  | rounds + 1, coveredMask, remaining =>
    match remaining[(bestItem coveredMask remaining).idx]? with
    | some item => item :: reorderLoop rounds (coveredMask ||| item.facetMask)
        (remaining.eraseIdx (bestItem coveredMask remaining).idx)
    | none => []

/-- `reorder_session_items_for_requirements` -/
def reorderItems (items : List ScoredCard) (plan : QueryPlan) : List ScoredCard :=
  if plan.requirements.isEmpty then items else reorderLoop items.length 0 items

/-- The place of the best card is the first one or one of those looked at. -/
private theorem idx_foldl_step (coveredMask : UInt64) (l : List (ScoredCard × ℕ))
    (best : BestItem) :
    (l.foldl (BestItem.step coveredMask) best).idx = best.idx ∨
      ∃ p ∈ l, (l.foldl (BestItem.step coveredMask) best).idx = p.2 := by
  induction l generalizing best with
  | nil => exact .inl rfl
  | cons p l ih =>
    rw [List.foldl_cons]
    rcases ih (BestItem.step coveredMask best p) with hsame | ⟨p', hp', hidx⟩
    · rw [hsame]
      unfold BestItem.step
      dsimp only
      split_ifs
      · exact .inr ⟨p, List.mem_cons_self, rfl⟩
      · exact .inl rfl
    · exact .inr ⟨p', List.mem_cons_of_mem _ hp', hidx⟩

/-- The best card is one of the cards. -/
theorem bestItem_idx_lt (coveredMask : UInt64) {remaining : List ScoredCard} (h : remaining ≠ []) :
    (bestItem coveredMask remaining).idx < remaining.length := by
  unfold bestItem
  rcases idx_foldl_step coveredMask remaining.zipIdx ⟨0, 0, F32.lowest⟩ with hzero | ⟨p, hp, hidx⟩
  · rw [hzero]
    exact List.length_pos_iff.mpr h
  · rw [hidx]
    have hlt := List.snd_lt_of_mem_zipIdx hp
    omega

/-- The rounds take every card once. -/
theorem reorderLoop_perm (coveredMask : UInt64) (remaining : List ScoredCard) :
    (reorderLoop remaining.length coveredMask remaining).Perm remaining := by
  generalize hrounds : remaining.length = rounds
  induction rounds generalizing coveredMask remaining with
  | zero =>
    rw [List.length_eq_zero_iff.mp hrounds]
    exact List.Perm.nil
  | succ rounds ih =>
    have hne : remaining ≠ [] := List.ne_nil_of_length_eq_add_one hrounds
    have hlt := bestItem_idx_lt coveredMask hne
    rw [reorderLoop, List.getElem?_eq_getElem hlt]
    dsimp only
    have hlength : (remaining.eraseIdx (bestItem coveredMask remaining).idx).length = rounds := by
      rw [List.length_eraseIdx_of_lt hlt]
      omega
    exact ((ih _ _ hlength).cons _).trans (List.getElem_cons_eraseIdx_perm hlt)

/-- No card is lost or repeated. -/
theorem reorderItems_perm (items : List ScoredCard) (plan : QueryPlan) :
    (reorderItems items plan).Perm items := by
  unfold reorderItems
  split_ifs
  · exact List.Perm.refl _
  · exact reorderLoop_perm 0 items

/-! ## The score of a session -/

/-- `items.get(i).map_or(0.0, |item| item.final_score)` -/
def topScore (items : List ScoredCard) (i : ℕ) : F32 :=
  (items[i]?).elim 0 ScoredCard.score

/-- `.map(..).max().unwrap_or(0)` -/
def maxHits (hits : ScoredCard → ℕ) (items : List ScoredCard) : ℕ :=
  items.foldl (fun most item => max most (hits item)) 0

/-- The weighted sum of the three best scores. -/
def weightedTop (coverageMode : Bool) (items : List ScoredCard) : F32 :=
  topScore items 0 * (if coverageMode then 0.46 else 0.68) +
    topScore items 1 * (if coverageMode then 0.31 else 0.22) +
    topScore items 2 * (if coverageMode then 0.23 else 0.10)

/-- `facet_mask` of a bucket. -/
def facetMaskOf (items : List ScoredCard) : UInt64 :=
  items.foldl (fun mask item => mask ||| item.facetMask) 0

section

variable (isAlphanumeric : Char → Bool) (plan : QueryPlan) (preferDistilled preferEpisodic : Bool)

/-- `session_score` -/
def sessionScore (items : List ScoredCard) : F32 :=
  let multiHitBonus : F32 := ((min (items.length - 1) 3 : ℕ) : F32) * 0.02
  let lexicalBonus : F32 := (maxHits ScoredCard.lexicalHits items : F32).min 4 * 0.012
  let temporalBonus : F32 := (maxHits ScoredCard.temporalHits items : F32).min 2 * 0.018
  let entityBonus : F32 := (maxHits ScoredCard.entityHits items : F32).min 3 * 0.02
  let distilledBonus : F32 :=
    if preferDistilled && items.any fun item => item.internalKind.isDistilled then 0.03 else 0
  let episodicBonus : F32 :=
    if preferEpisodic then
      if items.any fun item => item.internalKind = .conversational then 0.04 else -0.03
    else 0
  let coverageBonus : F32 := sessionCoverageBonus isAlphanumeric items plan
  let coverageModeBonus : F32 :=
    if plan.coverageMode then
      (countOnes (facetMaskOf items) : F32).min 5 * 0.038 +
        (maxHits ScoredCard.lexicalHits items : F32).min 5 * 0.014 +
        ((min items.length 4 : ℕ) : F32) * 0.014
    else 0
  weightedTop plan.coverageMode items + multiHitBonus + lexicalBonus + temporalBonus +
    entityBonus + distilledBonus + episodicBonus + coverageBonus + coverageModeBonus

/-- The cards of a session, the best first. -/
def sortItems (items : List ScoredCard) : List ScoredCard :=
  orderBy (fun card => toLex (-card.finalScore,
    toLex (-(kindPriority card.internalKind preferDistilled : ℤ), card.sourceMemoryId))) items

/-- The bucket of the cards of a session. -/
def sessionBucket (cards : List ScoredCard) : SessionBucket :=
  let items := sortItems preferDistilled cards
  { score := sessionScore isAlphanumeric plan preferDistilled preferEpisodic items
    items := reorderItems items plan
    requirementMask := sessionRequirementMask isAlphanumeric items plan
    facetMask := facetMaskOf items
    maxEntityHits := maxHits ScoredCard.entityHits items
    maxLexicalHits := maxHits ScoredCard.lexicalHits items
    maxTemporalHits := maxHits ScoredCard.temporalHits items }

end

/-- Adding the bonuses of a session, one after the other, keeps what adding a small number keeps. -/
private theorem sessionScore_of_add {P : F32 → Prop} (isAlphanumeric : Char → Bool)
    (plan : QueryPlan) (preferDistilled preferEpisodic : Bool) (items : List ScoredCard)
    (hadd : ∀ (x y : F32) (c : ℕ), P x → y.Within c → c ≤ 64 → P (x + y))
    (h : P (weightedTop plan.coverageMode items)) :
    P (sessionScore isAlphanumeric plan preferDistilled preferEpisodic items) := by
  unfold sessionScore
  extract_lets multiHitBonus lexicalBonus temporalBonus entityBonus distilledBonus episodicBonus
    coverageBonus coverageModeBonus
  -- Each part of the score is bounded by a small number.
  have hmulti : multiHitBonus.Within 3 :=
    F32.within_mul (F32.within_natCast (Nat.min_le_right _ 3) (by decide)) (d := 1)
      (by decide +kernel) (by decide)
  have hlexical : lexicalBonus.Within 4 :=
    F32.within_mul (F32.within_natCast_min _ (c := 4) (by decide)) (d := 1) (by decide +kernel)
      (by decide)
  have htemporal : temporalBonus.Within 2 :=
    F32.within_mul (F32.within_natCast_min _ (c := 2) (by decide)) (d := 1) (by decide +kernel)
      (by decide)
  have hentity : entityBonus.Within 3 :=
    F32.within_mul (F32.within_natCast_min _ (c := 3) (by decide)) (d := 1) (by decide +kernel)
      (by decide)
  have hdistilled : distilledBonus.Within 1 :=
    Number.Within.ite (by decide +kernel) (by decide +kernel)
  have hepisodic : episodicBonus.Within 1 :=
    Number.Within.ite (Number.Within.ite (by decide +kernel) (by decide +kernel))
      (by decide +kernel)
  have hcoverage : coverageBonus.Within 13 := by
    refine Number.Within.ite ?_ (SessionSignals.within_bonus _ plan)
    decide +kernel
  have hmode : coverageModeBonus.Within 14 := by
    refine Number.Within.ite ?_ (by decide +kernel)
    refine F32.within_add (c := 10) (d := 4) (F32.within_add (c := 5) (d := 5) ?_ ?_ (by decide))
      ?_ (by decide)
    · exact F32.within_mul (F32.within_natCast_min _ (c := 5) (by decide)) (d := 1)
        (by decide +kernel) (by decide)
    · exact F32.within_mul (F32.within_natCast_min _ (c := 5) (by decide)) (d := 1)
        (by decide +kernel) (by decide)
    · exact F32.within_mul (F32.within_natCast (Nat.min_le_right _ 4) (by decide)) (d := 1)
        (by decide +kernel) (by decide)
  -- The parts are added in the order of the source.
  have h₁ := hadd _ _ _ h hmulti (by decide)
  have h₂ := hadd _ _ _ h₁ hlexical (by decide)
  have h₃ := hadd _ _ _ h₂ htemporal (by decide)
  have h₄ := hadd _ _ _ h₃ hentity (by decide)
  have h₅ := hadd _ _ _ h₄ hdistilled (by decide)
  have h₆ := hadd _ _ _ h₅ hepisodic (by decide)
  have h₇ := hadd _ _ _ h₆ hcoverage (by decide)
  exact hadd _ _ _ h₇ hmode (by decide)

/-- Three or more cards that are all scored `f32::MIN`. -/
def AllLowest (items : List ScoredCard) : Prop :=
  3 ≤ items.length ∧ ∀ item ∈ items, item.score = F32.lowest

instance decidableAllLowest (items : List ScoredCard) : Decidable (AllLowest items) :=
  inferInstanceAs (Decidable (3 ≤ items.length ∧ ∀ item ∈ items, item.score = F32.lowest))

/-- The best score of a bucket is bounded. -/
theorem within_topScore (items : List ScoredCard) (i : ℕ) :
    (topScore items i).Within F32.greatest := by
  unfold topScore
  cases items[i]? with
  | none => decide +kernel
  | some item => exact F32.within_greatest item.scored

/-- Products with a weight are finite. -/
private theorem within_topScore_mul (items : List ScoredCard) (i : ℕ) {w : F32} (hw : w.Within 1) :
    (topScore items i * w).Within (F32.greatest * 1) :=
  (within_topScore items i).mul hw (by decide +kernel)

/-- The weights of the sum. -/
private theorem weights (coverageMode : Bool) :
    ((if coverageMode then 0.46 else 0.68 : F32).Within 1 ∧
      (0 : F32) < if coverageMode then 0.46 else 0.68) ∧
    ((if coverageMode then 0.31 else 0.22 : F32).Within 1 ∧
      (0 : F32) < if coverageMode then 0.31 else 0.22) ∧
    (if coverageMode then 0.23 else 0.10 : F32).Within 1 ∧
      (0 : F32) < if coverageMode then 0.23 else 0.10 := by
  cases coverageMode
  · decide +kernel
  · decide +kernel

/-- The weighted sum is in the order of the scores. -/
theorem le_weightedTop {coverageMode : Bool} {items : List ScoredCard} {a b c : F32}
    (ha : a ≤ topScore items 0) (hb : b ≤ topScore items 1) (hc : c ≤ topScore items 2) :
    a * (if coverageMode then 0.46 else 0.68) + b * (if coverageMode then 0.31 else 0.22) +
      c * (if coverageMode then 0.23 else 0.10) ≤ weightedTop coverageMode items := by
  obtain ⟨⟨hw₀, hpos₀⟩, ⟨hw₁, hpos₁⟩, hw₂, hpos₂⟩ := weights coverageMode
  have hfirst := within_topScore_mul items 0 hw₀
  have hsum : topScore items 0 * (if coverageMode then 0.46 else 0.68) +
      topScore items 1 * (if coverageMode then 0.31 else 0.22) ≠ .nan :=
    Number.add_ne_nan hfirst.ne_nan (within_topScore_mul items 1 hw₁)
  exact Number.add_le_add
    (Number.add_le_add (Number.mul_le_mul ha hw₀ hpos₀) (Number.mul_le_mul hb hw₁ hpos₁) hsum)
    (Number.mul_le_mul hc hw₂ hpos₂)
    (Number.add_ne_nan hsum (within_topScore_mul items 2 hw₂))

/-- Three scores of `f32::MIN` are out of range in coverage mode. -/
theorem weightedTop_eq_negInf {items : List ScoredCard} (h : AllLowest items) :
    weightedTop true items = .negInf := by
  have htop : ∀ i < 3, topScore items i = F32.lowest := by
    intro i hi
    have hlt : i < items.length := hi.trans_le h.1
    unfold topScore
    rw [List.getElem?_eq_getElem hlt]
    exact h.2 _ (List.getElem_mem hlt)
  unfold weightedTop
  rw [htop 0 (by decide), htop 1 (by decide), htop 2 (by decide)]
  decide +kernel

/-- The weighted sum of sorted scores is after `f32::MIN` otherwise. -/
theorem afterLowest_le_weightedTop {coverageMode : Bool} {items : List ScoredCard}
    (hsorted : items.Pairwise fun a b => b.finalScore ≤ a.finalScore)
    (h : coverageMode = true → ¬ AllLowest items) :
    F32.afterLowest ≤ weightedTop coverageMode items := by
  have hlowest := fun i => F32.lowest_le (within_topScore items i)
  -- In coverage mode the weights are other ones, and the best three scores matter.
  cases coverageMode with
  | false =>
    exact le_trans (by decide +kernel) (le_weightedTop (hlowest 0) (hlowest 1) (hlowest 2))
  | true =>
    have hnot := h rfl
    by_cases hlength : 3 ≤ items.length
    · -- The best score is after `f32::MIN`, or all would be it.
      have hfirst : F32.afterLowest ≤ topScore items 0 := by
        cases items with
        | nil => exact absurd hlength (by decide)
        | cons first rest =>
          refine F32.afterLowest_le fun hlow => hnot ⟨hlength, fun item hitem => ?_⟩
          rcases List.mem_cons.mp hitem with rfl | hrest
          · exact hlow
          · have hle := (List.pairwise_cons.mp hsorted).1 item hrest
            refine le_antisymm ?_ (F32.lowest_le (F32.within_greatest item.scored))
            exact (Number.fin_le_fin.mpr hle).trans hlow.le
      exact le_trans (by decide +kernel) (le_weightedTop hfirst (hlowest 1) (hlowest 2))
    -- With less than three items the third score is zero.
    · have hthird : (0 : F32) ≤ topScore items 2 := by
        unfold topScore
        rw [List.getElem?_eq_none (by omega)]
        exact le_refl _
      exact le_trans (by decide +kernel) (le_weightedTop (hlowest 0) (hlowest 1) hthird)

section

variable (isAlphanumeric : Char → Bool) (plan : QueryPlan) (preferDistilled preferEpisodic : Bool)
variable {items : List ScoredCard}

/-- The score of a session whose weighted sum is out of range. -/
theorem sessionScore_eq_negInf (hmode : plan.coverageMode = true) (h : AllLowest items) :
    sessionScore isAlphanumeric plan preferDistilled preferEpisodic items = .negInf := by
  refine sessionScore_of_add (P := fun x => x = .negInf) isAlphanumeric plan preferDistilled
    preferEpisodic items ?_ ?_
  · rintro x y c rfl hy -
    exact Number.negInf_add_of_within hy
  · rw [hmode]
    exact weightedTop_eq_negInf h

/-- The score of any other session is after `f32::MIN`. -/
theorem afterLowest_le_sessionScore
    (hsorted : items.Pairwise fun a b => b.finalScore ≤ a.finalScore)
    (h : plan.coverageMode = true → ¬ AllLowest items) :
    F32.afterLowest ≤ sessionScore isAlphanumeric plan preferDistilled preferEpisodic items :=
  sessionScore_of_add (P := fun x => F32.afterLowest ≤ x) isAlphanumeric plan preferDistilled
    preferEpisodic items (fun _ _ _ hx hy hc => F32.afterLowest_le_add hx hy hc)
    (afterLowest_le_weightedTop hsorted h)

/-- Sorting keeps the cards. -/
theorem sortItems_perm (cards : List ScoredCard) :
    (sortItems preferDistilled cards).Perm cards :=
  orderBy_perm _ cards

/-- The cards come in the order of their scores. -/
theorem sortItems_pairwise (cards : List ScoredCard) :
    (sortItems preferDistilled cards).Pairwise fun a b => b.finalScore ≤ a.finalScore := by
  refine (orderBy_pairwise_le _ cards).imp fun {a b} hle => ?_
  rcases (Prod.Lex.toLex_le_toLex.mp hle) with hlt | ⟨heq, -⟩
  · exact (neg_lt_neg_iff.mp hlt).le
  · exact (neg_inj.mp heq).ge

end

end Tellodb
