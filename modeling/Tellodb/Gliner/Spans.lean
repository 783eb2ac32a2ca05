import Tellodb.Collections.Greedy
import Tellodb.Relational.OrderBy
import Mathlib.Data.String.Basic

/-!
# Flat tagging

The end of `GlinerModel::predict`: of the candidate spans, the best first, each is selected that has
no word of one selected before it. Which words are taken is kept in an array (`Marks`), so the loop
selects what is taken apart (`flatTagging_eq`): spans that do not overlap, in the order of their
words, and each other candidate overlaps a selected one that comes before it
(`flatTagging_spec`). -/

namespace Tellodb

open Collections Relational

/-- `SpanPrediction`. Scores are compared in a linear order, in which `NaN` has no place. -/
structure SpanPrediction (V : Type*) where
  label : String
  text : List Char
  startWord : ℕ
  /-- Inclusive. -/
  endWord : ℕ
  score : V
  deriving DecidableEq

variable {V : Type*}

/-- `candidate.start_word..=candidate.end_word` -/
def SpanPrediction.words (span : SpanPrediction V) : List ℕ :=
  List.range' span.startWord (span.endWord + 1 - span.startWord)

/-- Two spans have a word in common. -/
def SpanPrediction.Overlaps (a b : SpanPrediction V) : Prop :=
  a.startWord ≤ b.endWord ∧ b.startWord ≤ a.endWord

instance decidableOverlaps : DecidableRel (SpanPrediction.Overlaps (V := V)) := fun a b =>
  inferInstanceAs (Decidable (a.startWord ≤ b.endWord ∧ b.startWord ≤ a.endWord))

/-! ## The code -/

/-- `any(|word| taken[word])`. A word out of bounds is a panic, unless one before it is taken. -/
def anyTaken (taken : List Bool) : List ℕ → Option Bool
  | [] => some false
  | word :: rest => (taken[word]?).bind fun mark => if mark then some true else anyTaken taken rest

/-- `taken[start..=end].fill(true)` -/
def fillTaken (taken : List Bool) (start stop : ℕ) : Option (List Bool) :=
  if start ≤ stop + 1 ∧ stop < taken.length then
    some (taken.mapIdx fun word mark => decide (start ≤ word ∧ word ≤ stop) || mark)
  else none

/-- A candidate is selected if its words are free. -/
def tagStep (s : List Bool × List (SpanPrediction V)) (candidate : SpanPrediction V) :
    Option (List Bool × List (SpanPrediction V)) :=
  (anyTaken s.1 candidate.words).bind fun clash =>
    if clash then some s
    else (fillTaken s.1 candidate.startWord candidate.endWord).map fun taken =>
      (taken, s.2 ++ [candidate])

section

variable [LinearOrder V]

/-- The order in which candidates are looked at: by score, the best first, then by their first word
and their label. -/
def SpanPrediction.rank (span : SpanPrediction V) : Vᵒᵈ ×ₗ ℕ ×ₗ String :=
  toLex (OrderDual.toDual span.score, toLex (span.startWord, span.label))

/-- The candidates in that order. -/
def rankedSpans (candidates : List (SpanPrediction V)) : List (SpanPrediction V) :=
  orderBy SpanPrediction.rank candidates

/-- The spans that are selected of the candidates, over so many words. -/
def flatTagging (keptWords : ℕ) (candidates : List (SpanPrediction V)) :
    Option (List (SpanPrediction V)) :=
  ((rankedSpans candidates).foldlM tagStep (List.replicate keptWords false, [])).map fun s =>
    orderBy SpanPrediction.startWord s.2

end

/-! ## The array -/

/-- A span has a word, and all its words are kept. -/
structure SpanPrediction.Within (span : SpanPrediction V) (keptWords : ℕ) : Prop where
  le : span.startWord ≤ span.endWord
  lt : span.endWord < keptWords

/-- The words that are marked are those of the spans that are selected. -/
structure Marks (keptWords : ℕ) (taken : List Bool) (selected : List (SpanPrediction V)) : Prop where
  length : taken.length = keptWords
  marked : ∀ word < keptWords, taken[word]? = some (decide
    (∃ span ∈ selected, span.startWord ≤ word ∧ word ≤ span.endWord))

variable {keptWords : ℕ} {taken : List Bool} {selected : List (SpanPrediction V)}

/-- Words in bounds are taken if one of them is. -/
theorem anyTaken_eq {words : List ℕ} (h : ∀ word ∈ words, word < taken.length) :
    anyTaken taken words = some (decide (∃ word ∈ words, taken[word]? = some true)) := by
  induction words with
  | nil => simp [anyTaken]
  | cons word rest ih =>
    obtain ⟨hword, hrest⟩ := List.forall_mem_cons.mp h
    rw [anyTaken, List.getElem?_eq_getElem hword, Option.bind_some]
    cases hmark : taken[word] with
    | true =>
      have hsome : taken[word]? = some true := by rw [List.getElem?_eq_getElem hword, hmark]
      rw [if_pos rfl, decide_eq_true ⟨word, List.mem_cons_self, hsome⟩]
    | false =>
      rw [if_neg Bool.false_ne_true, ih hrest]
      refine congrArg some (decide_eq_decide.mpr ⟨?_, ?_⟩)
      · rintro ⟨other, hother, htaken⟩
        exact ⟨other, List.mem_cons_of_mem _ hother, htaken⟩
      · rintro ⟨other, hother, htaken⟩
        rcases List.mem_cons.mp hother with rfl | hmem
        · rw [List.getElem?_eq_getElem hword, hmark] at htaken
          exact absurd (Option.some.inj htaken) (by decide)
        · exact ⟨other, hmem, htaken⟩

/-- The words of a span are taken if it overlaps one that is selected. -/
theorem Marks.anyTaken (h : Marks keptWords taken selected) {candidate : SpanPrediction V}
    (hc : candidate.Within keptWords) (hs : ∀ span ∈ selected, span.Within keptWords) :
    anyTaken taken candidate.words =
      some (decide (∃ span ∈ selected, span.Overlaps candidate)) := by
  obtain ⟨hle, hlt⟩ := hc
  have hwords : ∀ word, word ∈ candidate.words ↔
      candidate.startWord ≤ word ∧ word ≤ candidate.endWord := by
    intro word
    unfold SpanPrediction.words
    rw [List.mem_range'_1]
    omega
  rw [anyTaken_eq fun word hword => by rw [h.length]; have := (hwords word).mp hword; omega]
  refine congrArg some (decide_eq_decide.mpr ⟨?_, ?_⟩)
  · rintro ⟨word, hword, htaken⟩
    obtain ⟨hfrom, hto⟩ := (hwords word).mp hword
    rw [h.marked word (by omega)] at htaken
    obtain ⟨span, hspan, hstart, hend⟩ := of_decide_eq_true (Option.some.inj htaken)
    exact ⟨span, hspan, by omega, by omega⟩
  · rintro ⟨span, hspan, hstart, hend⟩
    have hwithin := hs span hspan
    -- The later one of the two first words is in both.
    refine ⟨max span.startWord candidate.startWord, (hwords _).mpr ⟨by omega, ?_⟩, ?_⟩
    · exact max_le hstart hle
    · rw [h.marked _ (by omega)]
      have hin := hwithin.le
      exact congrArg some (decide_eq_true ⟨span, hspan, by omega, by omega⟩)

/-- The words of a span that is selected are marked. -/
theorem Marks.fillTaken (h : Marks keptWords taken selected) {candidate : SpanPrediction V}
    (hc : candidate.Within keptWords) :
    ∃ taken', fillTaken taken candidate.startWord candidate.endWord = some taken' ∧
      Marks keptWords taken' (selected ++ [candidate]) := by
  obtain ⟨hle, hlt⟩ := hc
  refine ⟨taken.mapIdx fun word mark =>
    decide (candidate.startWord ≤ word ∧ word ≤ candidate.endWord) || mark, ?_, ?_, ?_⟩
  · unfold Tellodb.fillTaken
    rw [if_pos ⟨by omega, by rw [h.length]; exact hlt⟩]
  · rw [List.length_mapIdx]
    exact h.length
  · intro word hword
    rw [List.getElem?_mapIdx, h.marked word hword, Option.map_some]
    refine congrArg some ?_
    rw [← Bool.decide_or, decide_eq_decide]
    constructor
    · rintro (hnew | ⟨span, hspan, hin⟩)
      · exact ⟨candidate, List.mem_append_right _ List.mem_cons_self, hnew⟩
      · exact ⟨span, List.mem_append_left _ hspan, hin⟩
    · rintro ⟨span, hspan, hin⟩
      rcases List.mem_append.mp hspan with hold | hnew
      · exact .inr ⟨span, hold, hin⟩
      · rw [List.mem_singleton.mp hnew] at hin
        exact .inl hin

/-- Before a span is selected nothing is marked. -/
theorem Marks.start : Marks keptWords (List.replicate keptWords false)
    ([] : List (SpanPrediction V)) := by
  refine ⟨List.length_replicate, fun word hword => ?_⟩
  rw [List.getElem?_replicate, if_pos hword]
  simp

/-- The loop takes the candidates apart. -/
theorem foldlM_tagStep (candidates : List (SpanPrediction V))
    (h : ∀ candidate ∈ candidates, candidate.Within keptWords) :
    ∃ taken, candidates.foldlM tagStep (List.replicate keptWords false, []) =
        some (taken, greedy SpanPrediction.Overlaps candidates) ∧
      Marks keptWords taken (greedy SpanPrediction.Overlaps candidates) := by
  induction candidates using List.reverseRecOn with
  | nil => exact ⟨_, rfl, Marks.start⟩
  | append_singleton candidates candidate ih =>
    have hcandidate := h candidate (List.mem_append_right _ List.mem_cons_self)
    obtain ⟨taken, hrun, hmarks⟩ := ih fun c hc => h c (List.mem_append_left _ hc)
    have hselected : ∀ span ∈ greedy SpanPrediction.Overlaps candidates, span.Within keptWords :=
      fun span hspan => h span (List.mem_append_left _ ((greedy_sublist _ _).subset hspan))
    -- The loop is followed by one more step.
    have hstep : ∀ s, tagStep (taken, greedy SpanPrediction.Overlaps candidates) candidate = some s →
        (candidates ++ [candidate]).foldlM tagStep (List.replicate keptWords false, []) = some s := by
      intro s hs
      rw [List.foldlM_append, hrun]
      exact (Option.bind_some _ _).trans (by rw [List.foldlM_cons, hs]; rfl)
    rw [greedy_concat]
    unfold takeApart
    -- The span is taken unless one of the selected overlaps it.
    by_cases hclash : ∃ span ∈ greedy SpanPrediction.Overlaps candidates, span.Overlaps candidate
    · rw [if_pos hclash]
      refine ⟨taken, hstep _ ?_, hmarks⟩
      unfold tagStep
      rw [hmarks.anyTaken hcandidate hselected, decide_eq_true hclash]
      rfl
    · rw [if_neg hclash]
      obtain ⟨taken', hfill, hmarks'⟩ := hmarks.fillTaken hcandidate
      refine ⟨taken', hstep _ ?_, hmarks'⟩
      unfold tagStep
      rw [hmarks.anyTaken hcandidate hselected, decide_eq_false hclash, Option.bind_some,
        if_neg Bool.false_ne_true, hfill]
      rfl

/-! ## What is selected -/

/-- A span overlaps itself. -/
theorem SpanPrediction.Within.overlaps_self {span : SpanPrediction V} (h : span.Within keptWords) :
    span.Overlaps span :=
  ⟨h.le, h.le⟩

/-- Spans that do not overlap, in the order of their first words, end before the next one begins. -/
theorem orderBy_startWord_pairwise {spans : List (SpanPrediction V)}
    (hwithin : ∀ span ∈ spans, span.Within keptWords)
    (h : spans.Pairwise fun a b => ¬ a.Overlaps b) :
    (orderBy SpanPrediction.startWord spans).Pairwise fun a b => a.endWord < b.startWord := by
  have hsymm : ∀ a b : SpanPrediction V, ¬ a.Overlaps b → ¬ b.Overlaps a :=
    fun a b hab hba => hab ⟨hba.2, hba.1⟩
  have happart : (orderBy SpanPrediction.startWord spans).Pairwise fun a b => ¬ a.Overlaps b :=
    (List.Perm.pairwise_iff (fun {a b} hab => hsymm a b hab) (orderBy_perm _ spans).symm).mp h
  refine ((orderBy_pairwise_le SpanPrediction.startWord spans).and happart).imp_of_mem
    fun {a b} ha hb hab => ?_
  have hbwithin := hwithin b ((mem_orderBy _ _ _).mp hb)
  have hle := hbwithin.le
  obtain ⟨hstart, hclash⟩ := hab
  by_contra hend
  exact hclash ⟨by omega, by omega⟩

section

variable [LinearOrder V] {candidates : List (SpanPrediction V)}

/-- What is selected is what is taken apart, in the order of the words. -/
theorem flatTagging_eq (h : ∀ candidate ∈ candidates, candidate.Within keptWords) :
    flatTagging keptWords candidates = some (orderBy SpanPrediction.startWord
      (greedy SpanPrediction.Overlaps (rankedSpans candidates))) := by
  obtain ⟨taken, hrun, -⟩ := foldlM_tagStep (rankedSpans candidates)
    fun candidate hc => h candidate ((mem_orderBy _ _ _).mp hc)
  unfold flatTagging
  rw [hrun]
  rfl

/-- The spans that are selected do not overlap and are in the order of their words, and any other
candidate overlaps a selected one that comes before it. -/
theorem flatTagging_spec (h : ∀ candidate ∈ candidates, candidate.Within keptWords) :
    ∃ selected, flatTagging keptWords candidates = some selected ∧ selected.Subperm candidates ∧
      (selected.Pairwise fun a b => a.endWord < b.startWord) ∧
      ∀ before candidate after, rankedSpans candidates = before ++ candidate :: after →
        (candidate ∈ selected ∧ candidate ∉ before) ∨
          ∃ span ∈ selected, span ∈ before ∧ span.rank ≤ candidate.rank ∧
            span.Overlaps candidate := by
  -- The selected spans are among the candidates.
  have hwithin : ∀ span ∈ greedy SpanPrediction.Overlaps (rankedSpans candidates),
      span.Within keptWords := fun span hspan =>
    h span ((mem_orderBy _ _ _).mp ((greedy_sublist _ _).subset hspan))
  refine ⟨_, flatTagging_eq h, ?_, orderBy_startWord_pairwise hwithin (greedy_pairwise _ _),
    fun before candidate after hranked => ?_⟩
  · exact ((orderBy_perm _ _).subperm.trans (greedy_sublist _ _).subperm).trans
      (orderBy_perm _ _).subperm
  -- What comes before in the order has no lower rank.
  · have hrank : ∀ span ∈ before, span.rank ≤ candidate.rank := by
      intro span hspan
      have hsorted := orderBy_pairwise_le SpanPrediction.rank candidates
      rw [show orderBy SpanPrediction.rank candidates = before ++ candidate :: after from hranked]
        at hsorted
      exact (List.pairwise_append.mp hsorted).2.2 span hspan candidate List.mem_cons_self
    rcases mem_greedy_or_clash SpanPrediction.Overlaps hranked with hmem | hclash
    · by_cases hbefore : candidate ∈ before
      · exact .inr ⟨candidate, (mem_orderBy _ _ _).mpr hmem, hbefore, le_refl _,
          (hwithin candidate hmem).overlaps_self⟩
      · exact .inl ⟨(mem_orderBy _ _ _).mpr hmem, hbefore⟩
    · obtain ⟨span, hspan, hbefore, hoverlaps⟩ := hclash
      exact .inr ⟨span, (mem_orderBy _ _ _).mpr hspan, hbefore, hrank span hbefore, hoverlaps⟩

end

/-- A city, a longer span around it with a lower score, and the same city under another label. -/
private def cityCandidates : List (SpanPrediction ℕ) :=
  [⟨"city", "Austin".toList, 3, 3, 9⟩, ⟨"home", "in Austin".toList, 2, 3, 7⟩,
    ⟨"home", "Austin".toList, 3, 3, 9⟩, ⟨"person", "Ann".toList, 0, 0, 5⟩]

/-- What is selected of four candidates. -/
theorem flatTagging_spec_city :
    ∃ selected, flatTagging 4 cityCandidates = some selected ∧ selected.Subperm cityCandidates ∧
      (selected.Pairwise fun a b => a.endWord < b.startWord) ∧
      ∀ before candidate after, rankedSpans cityCandidates = before ++ candidate :: after →
        (candidate ∈ selected ∧ candidate ∉ before) ∨
          ∃ span ∈ selected, span ∈ before ∧ span.rank ≤ candidate.rank ∧
            span.Overlaps candidate :=
  flatTagging_spec fun candidate hcandidate => by
    have hall : ∀ c ∈ cityCandidates, c.startWord ≤ c.endWord ∧ c.endWord < 4 := by decide
    exact ⟨(hall candidate hcandidate).1, (hall candidate hcandidate).2⟩

example : (flatTagging 4 cityCandidates).map (List.map SpanPrediction.label) =
    some ["person", "city"] := by
  decide +kernel

end Tellodb
