import Tellodb.Collections.Covering
import Tellodb.Query.Buckets

/-!
# What the first cards of a session cover

A query may ask for several things (`coverage_facets`), and a session is shown from the front of its
bucket, a card or two in most answers. `reorder_session_items_for_requirements` puts in front what
covers most of what is asked for and not covered yet. `sessionBucket_coversFirst` says what that is
worth: the first cards cover nearly as much as any cards of the session that could be chosen in
their place, there are never more cards in front than facets, and after those the cards keep the
order of their scores. -/

namespace Tellodb

open Collections Machine Machine.Format

/-! ## Facets -/

/-- The facets that a card covers. -/
def ScoredCard.facets (card : ScoredCard) : Finset ℕ :=
  bitsOf card.facetMask

/-- The mask of some cards is of the facets that they cover. -/
theorem bitsOf_foldl (mask : UInt64) (items : List ScoredCard) :
    bitsOf (items.foldl (fun mask item => mask ||| item.facetMask) mask) =
      covered ScoredCard.facets (bitsOf mask) items := by
  induction items generalizing mask with
  | nil => rfl
  | cons item items ih =>
    rw [List.foldl_cons, ih, bitsOf_or]
    rfl

/-- The mask of a list is the union of the facets of its cards. -/
theorem bitsOf_facetMaskOf (items : List ScoredCard) :
    bitsOf (facetMaskOf items) = covered ScoredCard.facets ∅ items := by
  unfold facetMaskOf
  rw [bitsOf_foldl, bitsOf_zero]

/-! ## A round -/

/-- What a card adds to the facets that are covered. -/
def ScoredCard.gain (coveredMask : UInt64) (card : ScoredCard) : ℕ :=
  (card.facets \ bitsOf coveredMask).card

/-- What a card adds to the mask is its gain. -/
theorem countOnes_gain (coveredMask : UInt64) (card : ScoredCard) :
    countOnes (card.facetMask &&& ~~~coveredMask) = card.gain coveredMask := by
  rw [countOnes_eq_card, bitsOf_and_not]
  rfl

section

variable {coveredMask : UInt64} {remaining : List ScoredCard}

/-- A round so far: the best card is one that was looked at, with its gain, or the first one while
no card that was looked at adds a facet. No card that was looked at adds more. -/
structure BestItem.Spec (coveredMask : UInt64) (seen : List (ScoredCard × ℕ)) (best : BestItem) :
    Prop where
  found : best.idx = 0 ∧ best.gain = 0 ∨
    ∃ p ∈ seen, best.idx = p.2 ∧ best.gain = p.1.gain coveredMask
  most : ∀ p ∈ seen, p.1.gain coveredMask ≤ best.gain

/-- One card more is looked at. -/
theorem BestItem.Spec.step {seen : List (ScoredCard × ℕ)} {best : BestItem}
    (h : best.Spec coveredMask seen) (p : ScoredCard × ℕ) :
    (best.step coveredMask p).Spec coveredMask (seen ++ [p]) := by
  unfold BestItem.step
  rw [countOnes_gain]
  dsimp only
  split_ifs with hbetter
  · refine ⟨.inr ⟨p, by simp, rfl, rfl⟩, fun p' hp' => ?_⟩
    have hle : best.gain ≤ p.1.gain coveredMask := by
      rcases hbetter with hlt | ⟨heq, -⟩
      · exact hlt.le
      · exact heq.ge
    rcases List.mem_append.mp hp' with hp' | hp'
    · exact (h.most p' hp').trans hle
    · rw [List.mem_singleton.mp hp']
  · refine ⟨?_, fun p' hp' => ?_⟩
    · rcases h.found with hfirst | ⟨p', hp', hidx, hgain⟩
      · exact .inl hfirst
      · exact .inr ⟨p', List.mem_append_left _ hp', hidx, hgain⟩
    · rcases List.mem_append.mp hp' with hp' | hp'
      · exact h.most p' hp'
      · rw [List.mem_singleton.mp hp']
        exact Nat.not_lt.mp fun hlt => hbetter (.inl hlt)

/-- A round looks at all cards. -/
theorem bestItem_spec (coveredMask : UInt64) (remaining : List ScoredCard) :
    (bestItem coveredMask remaining).Spec coveredMask remaining.zipIdx := by
  unfold bestItem
  generalize remaining.zipIdx = pairs
  induction pairs using List.reverseRecOn with
  | nil => exact ⟨.inl ⟨rfl, rfl⟩, fun p hp => absurd hp List.not_mem_nil⟩
  | append_singleton pairs p ih =>
    rw [List.foldl_concat]
    exact ih.step p

/-- The card that a round takes adds as many facets as any. -/
theorem gain_le_taken {taken : ScoredCard}
    (htaken : remaining[(bestItem coveredMask remaining).idx]? = some taken) {card : ScoredCard}
    (hcard : card ∈ remaining) : card.gain coveredMask ≤ taken.gain coveredMask := by
  have hspec := bestItem_spec coveredMask remaining
  obtain ⟨i, hi⟩ := List.getElem?_of_mem hcard
  have hmost := hspec.most (card, i) (List.mem_zipIdx_iff_getElem?.mpr hi)
  refine hmost.trans ?_
  rcases hspec.found with ⟨-, hgain⟩ | ⟨p, hp, hidx, hgain⟩
  · rw [hgain]
    exact Nat.zero_le _
  · have hp' := List.mem_zipIdx_iff_getElem?.mp hp
    rw [← hidx, htaken] at hp'
    rw [hgain, ← Option.some.inj hp']

/-- A card that adds no facet and is not scored better leaves the best one as it is. -/
theorem foldl_step_of_le {best : BestItem} (hgain : best.gain = 0) {pairs : List (ScoredCard × ℕ)}
    (h : ∀ p ∈ pairs, p.1.gain coveredMask = 0 ∧ p.1.score ≤ best.score) :
    pairs.foldl (BestItem.step coveredMask) best = best := by
  induction pairs with
  | nil => rfl
  | cons p pairs ih =>
    obtain ⟨hp, hscore⟩ := h p List.mem_cons_self
    have hsame : best.step coveredMask p = best := by
      unfold BestItem.step
      rw [countOnes_gain, hp, hgain]
      exact if_neg fun hbetter => hbetter.elim (Nat.lt_irrefl 0) fun hless =>
        absurd hless.2.2 (not_lt.mpr hscore)
    rw [List.foldl_cons, hsame]
    exact ih fun q hq => h q (List.mem_cons_of_mem _ hq)

/-- A round takes the first card, when no card adds a facet and the cards come in the order of their
scores. -/
theorem bestItem_idx_of_covered (hcovered : ∀ card ∈ remaining, card.gain coveredMask = 0)
    (hsorted : remaining.Pairwise fun a b => b.finalScore ≤ a.finalScore) :
    (bestItem coveredMask remaining).idx = 0 := by
  unfold bestItem
  cases remaining with
  | nil => rfl
  | cons first rest =>
    rw [List.zipIdx_cons, List.foldl_cons]
    obtain ⟨score, hstep, hscore⟩ : ∃ score,
        BestItem.step coveredMask ⟨0, 0, F32.lowest⟩ (first, 0) = ⟨0, 0, score⟩ ∧
          first.score ≤ score := by
      unfold BestItem.step
      rw [countOnes_gain, hcovered first List.mem_cons_self]
      dsimp only
      split_ifs with hbetter
      · exact ⟨first.score, rfl, le_refl _⟩
      · refine ⟨F32.lowest, rfl, ?_⟩
        by_contra hlt
        exact hbetter (.inr ⟨rfl, by simp [F32.lowest], not_le.mp hlt⟩)
    rw [hstep, foldl_step_of_le rfl]
    intro p hp
    have hmem : p.1 ∈ rest := List.fst_mem_of_mem_zipIdx hp
    refine ⟨hcovered p.1 (List.mem_cons_of_mem _ hmem), le_trans ?_ hscore⟩
    exact Number.fin_le_fin.mpr ((List.pairwise_cons.mp hsorted).1 p.1 hmem)

/-! ## The rounds -/

/-- A round takes a card, and the rounds after it work on the others. -/
theorem reorderLoop_cons {rounds : ℕ} {taken : ScoredCard}
    (htaken : remaining[(bestItem coveredMask remaining).idx]? = some taken) :
    reorderLoop (rounds + 1) coveredMask remaining =
      taken :: reorderLoop rounds (coveredMask ||| taken.facetMask)
        (remaining.eraseIdx (bestItem coveredMask remaining).idx) := by
  rw [reorderLoop, htaken]

/-- A round takes a card as long as there is one. -/
theorem exists_taken (coveredMask : UInt64) {rounds : ℕ} (hrounds : remaining.length = rounds + 1) :
    ∃ taken, remaining[(bestItem coveredMask remaining).idx]? = some taken ∧
      (remaining.eraseIdx (bestItem coveredMask remaining).idx).length = rounds := by
  have hlt := bestItem_idx_lt coveredMask (List.ne_nil_of_length_eq_add_one hrounds)
  refine ⟨_, List.getElem?_eq_getElem hlt, ?_⟩
  rw [List.length_eraseIdx_of_lt hlt]
  omega

/-- The loop takes a card of the greatest gain at each step. -/
theorem coversGreedily_reorderLoop (coveredMask : UInt64) (remaining : List ScoredCard) :
    CoversGreedily ScoredCard.facets (bitsOf coveredMask)
      (reorderLoop remaining.length coveredMask remaining) := by
  generalize hrounds : remaining.length = rounds
  induction rounds generalizing coveredMask remaining with
  | zero => exact trivial
  | succ rounds ih =>
    obtain ⟨taken, htaken, hlength⟩ := exists_taken coveredMask hrounds
    have hrest := ih (coveredMask ||| taken.facetMask) _ hlength
    rw [bitsOf_or] at hrest
    rw [reorderLoop_cons htaken, coversGreedily_cons]
    refine ⟨fun card hcard => gain_le_taken htaken ?_, hrest⟩
    rw [← hlength] at hcard
    exact List.mem_of_mem_eraseIdx ((reorderLoop_perm _ _).mem_iff.mp hcard)

/-- Once all facets of the cards are covered, the other cards keep their order. -/
theorem reorderLoop_drop_sublist
    (hsorted : remaining.Pairwise fun a b => b.finalScore ≤ a.finalScore) {n : ℕ}
    (hcovered : ∀ card ∈ remaining, card.facets ⊆ covered ScoredCard.facets (bitsOf coveredMask)
      ((reorderLoop remaining.length coveredMask remaining).take n)) :
    ((reorderLoop remaining.length coveredMask remaining).drop n).Sublist remaining := by
  generalize hrounds : remaining.length = rounds at hcovered ⊢
  induction rounds generalizing coveredMask remaining n with
  | zero =>
    rw [reorderLoop, List.drop_nil]
    exact List.nil_sublist _
  | succ rounds ih =>
    obtain ⟨taken, htaken, hlength⟩ := exists_taken coveredMask hrounds
    have hsorted' := hsorted.sublist
      (List.eraseIdx_sublist remaining (bestItem coveredMask remaining).idx)
    rw [reorderLoop_cons htaken] at hcovered ⊢
    cases n with
    | zero =>
      -- Nothing is left to cover, so the round takes the first card.
      have hidx : (bestItem coveredMask remaining).idx = 0 := by
        refine bestItem_idx_of_covered (fun card hcard => ?_) hsorted
        have hsub : card.facets ⊆ bitsOf coveredMask := hcovered card hcard
        unfold ScoredCard.gain
        rw [Finset.sdiff_eq_empty_iff_subset.mpr hsub, Finset.card_empty]
      rw [hidx] at htaken hlength hsorted' ⊢
      cases remaining with
      | nil => cases htaken
      | cons first rest =>
        obtain rfl : first = taken := Option.some.inj htaken
        rw [List.eraseIdx_cons_zero] at hlength hsorted' ⊢
        refine List.Sublist.cons_cons first ?_
        refine ih (n := 0) hsorted' hlength fun card hcard => ?_
        rw [List.take_zero, covered_nil, bitsOf_or]
        exact (hcovered card (List.mem_cons_of_mem _ hcard)).trans Finset.subset_union_left
    | succ n =>
      rw [List.drop_succ_cons]
      refine (ih hsorted' hlength fun card hcard => ?_).trans (List.eraseIdx_sublist remaining _)
      rw [bitsOf_or]
      exact hcovered card (List.mem_of_mem_eraseIdx hcard)

end

/-! ## The bucket -/

/-- Cards in an order that covers first. -/
structure CoversFirst (items ordered : List ScoredCard) : Prop where
  /-- No card is lost or repeated. -/
  perm : ordered.Perm items
  /-- What any `k` cards cover more than the first `n` ones do is at most `(1 - 1 / k) ^ n` of all
  that they cover. -/
  nearly : ∀ (n : ℕ) (chosen : List ScoredCard), chosen ⊆ items →
    chosen.length ^ n * (countOnes (facetMaskOf chosen) - countOnes (facetMaskOf (ordered.take n))) ≤
      (chosen.length - 1) ^ n * countOnes (facetMaskOf chosen)
  /-- As many cards as there are facets cover them all. -/
  whole : facetMaskOf (ordered.take (countOnes (facetMaskOf items))) = facetMaskOf items
  /-- Once all facets are covered, the cards keep their order. -/
  rest : ∀ n, facetMaskOf (ordered.take n) = facetMaskOf items → (ordered.drop n).Sublist items

/-- The facets of permuted cards. -/
theorem covered_perm {items ordered : List ScoredCard} (h : ordered.Perm items) :
    covered ScoredCard.facets ∅ ordered = covered ScoredCard.facets ∅ items := by
  ext idx
  rw [mem_covered, mem_covered]
  simp only [h.mem_iff]

/-- `reorder_session_items_for_requirements` of cards in the order of their scores. -/
theorem reorderLoop_coversFirst {items : List ScoredCard}
    (hsorted : items.Pairwise fun a b => b.finalScore ≤ a.finalScore) :
    CoversFirst items (reorderLoop items.length 0 items) := by
  have hperm := reorderLoop_perm 0 items
  have hgreedy := coversGreedily_reorderLoop 0 items
  rw [bitsOf_zero] at hgreedy
  refine ⟨hperm, fun n chosen hchosen => ?_, ?_, fun n hn => ?_⟩
  · rw [countOnes_eq_card, countOnes_eq_card, bitsOf_facetMaskOf, bitsOf_facetMaskOf]
    have hmissing := missing_take_le hgreedy
      (fun card hcard => .inl (hperm.mem_iff.mpr (hchosen hcard))) n
    rwa [Finset.card_empty, Nat.sub_zero] at hmissing
  · refine bitsOf_injective ?_
    rw [bitsOf_facetMaskOf, bitsOf_facetMaskOf, countOnes_eq_card, bitsOf_facetMaskOf]
    refine Finset.Subset.antisymm (fun idx hidx => ?_) ?_
    · obtain hidx | ⟨card, hcard, hfacet⟩ := mem_covered.mp hidx
      · exact absurd hidx (Finset.notMem_empty idx)
      · exact mem_covered.mpr
          (.inr ⟨card, hperm.mem_iff.mp (List.mem_of_mem_take hcard), hfacet⟩)
    · rw [← covered_perm hperm]
      exact hgreedy.covered_subset_take (Finset.card_le_card Finset.sdiff_subset)
  · refine reorderLoop_drop_sublist hsorted fun card hcard idx hidx => ?_
    have hfacets := congrArg bitsOf hn
    rw [bitsOf_facetMaskOf, bitsOf_facetMaskOf] at hfacets
    rw [bitsOf_zero, hfacets]
    exact mem_covered.mpr (.inr ⟨card, hcard, hidx⟩)

/-- A session is shown in the order of the scores of its cards, and where the query has requirements
with the cards in front that cover its facets. -/
theorem sessionBucket_coversFirst (isAlphanumeric : Char → Bool) (plan : QueryPlan)
    (preferDistilled preferEpisodic : Bool) (cards : List ScoredCard) :
    if plan.requirements.isEmpty then
      (sessionBucket isAlphanumeric plan preferDistilled preferEpisodic cards).items =
        sortItems preferDistilled cards
    else CoversFirst (sortItems preferDistilled cards)
      (sessionBucket isAlphanumeric plan preferDistilled preferEpisodic cards).items := by
  have hitems : (sessionBucket isAlphanumeric plan preferDistilled preferEpisodic cards).items =
      reorderItems (sortItems preferDistilled cards) plan := rfl
  rw [hitems]
  unfold reorderItems
  split_ifs
  · rfl
  · exact reorderLoop_coversFirst (sortItems_pairwise preferDistilled cards)

end Tellodb
