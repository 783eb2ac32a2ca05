import Tellodb.Calendar.Window
import Tellodb.Expansion.Chunks
import Tellodb.Machine.Masks
import Tellodb.Machine.Numbers
import Tellodb.Query.Plan
import Tellodb.Query.Response

/-!
# What the evidence of a session covers

The signals of `session_coverage_bonus` and the requirements of `session_requirement_mask`, from
`api/plan/scoring.rs`, with the functions on texts that they call. Scores are numbers of `f32`. The
bonus is a sum of a few terms that are each small (`SessionSignals.within_bonus`).

`char::is_alphanumeric` is a parameter. -/

namespace Tellodb

open Machine Machine.Format

/-- `EvidenceCard` with the signals that the selection reads, and a score that is finite. -/
structure ScoredCard extends EvidenceCard where
  entityHits : ℕ
  lexicalHits : ℕ
  temporalHits : ℕ
  facetMask : UInt64
  scored : Format.binary32.Has finalScore
  deriving DecidableEq

/-- `final_score` -/
def ScoredCard.score (card : ScoredCard) : F32 :=
  .fin card.finalScore card.scored

/-! ## Texts -/

section

variable (isAlphanumeric : Char → Bool)

/-- `tokenize_for_similarity` -/
def tokenizeForSimilarity (text : String) : List (List Char) :=
  ((text.toList.splitOnP fun c => !isAlphanumeric c).filter fun token =>
    !token.isEmpty && 1 < utf8Len token).map (List.map Char.toLower)

/-- `singularize_token` -/
def singularizeToken (token : List Char) : List Char :=
  let token := token.map Char.toLower
  if 3 < utf8Len token && "ies".toList.isSuffixOf token then
    token.take (token.length - 3) ++ ['y']
  else if 2 < utf8Len token && ['s'].isSuffixOf token && !"ss".toList.isSuffixOf token then
    token.dropLast
  else token

/-- The tokens that a text is compared by. -/
def tokenSet (text : String) : List String :=
  (tokenizeForSimilarity isAlphanumeric text).map fun token =>
    String.ofList (singularizeToken token)

end

/-- `extract_temporal_terms` -/
def extractTemporalTerms (query : List Char) : List String :=
  let lower := query.map Char.toLower
  let years := (lower.splitOnP fun c => !c.isAlphanum).filter fun token =>
    token.length = 4 && token.all Char.isDigit
  let temporalTerms := ["spring", "summer", "fall", "autumn", "winter", "weekend", "week", "month",
    "year", "yesterday", "today", "tomorrow", "recently", "latest", "last", "recent"]
  (years.map String.ofList ++ fullMonthNames.filter (containsPhrase lower) ++
    temporalTerms.filter (containsPhrase lower)).eraseDups

/-- `lower.contains(entity.to_ascii_lowercase().as_str())` -/
def mentions (lower : List Char) (entity : String) : Bool :=
  containsPhrase lower (String.ofList (entity.toList.map Char.toLower))

/-! ## Masks -/

/-- The mask of the first places, of all places from 64 on. -/
def fullMask (count : ℕ) : UInt64 :=
  if count = 0 then 0 else if 64 ≤ count then UInt64.ofNat (2 ^ 64 - 1)
  else UInt64.ofNat (2 ^ count - 1)

/-! ## Sessions -/

/-- The cards of a session that are looked at. -/
def inspected (items : List ScoredCard) (plan : QueryPlan) : List ScoredCard :=
  items.take (if plan.needsDecomposition then 6 else 4)

/-- A fact, a summary or a lesson. -/
def MemoryKind.isDistilled (kind : MemoryKind) : Bool :=
  kind = .fact || kind = .sessionSummary || kind = .lesson

/-- What `session_coverage_bonus` gathers from the cards that it looks at. Of the sets of terms it
asks for their sizes. -/
structure SessionSignals where
  lexicalUnion : ℕ
  temporalUnion : ℕ
  entityUnion : ℕ
  kindUnion : ℕ
  supportItems : ℕ
  maxEntityHits : ℕ
  hasDistilled : Bool
  hasEpisodic : Bool
  facetUnionMask : UInt64
  maxFacetHits : ℕ

/-- The signals of the cards of a session. -/
def sessionSignals (isAlphanumeric : Char → Bool) (items : List ScoredCard) (plan : QueryPlan) :
    SessionSignals where
  lexicalUnion := ((inspected items plan).flatMap fun item => plan.lexicalTerms.filter fun term =>
    term ∈ tokenSet isAlphanumeric item.claimText).eraseDups.length
  temporalUnion := ((inspected items plan).flatMap fun item => plan.temporalTerms.filter fun term =>
    containsPhrase (item.claimText.toList.map Char.toLower) term).eraseDups.length
  entityUnion := ((inspected items plan).flatMap fun item =>
    plan.subjectEntities.filter fun entity =>
      mentions (item.claimText.toList.map Char.toLower) entity).eraseDups.length
  kindUnion := ((inspected items plan).map fun item => item.internalKind).eraseDups.length
  supportItems := ((inspected items plan).filter fun item =>
    0 < item.lexicalHits || 0 < item.temporalHits || 0 < item.entityHits).length
  maxEntityHits := (inspected items plan).foldl (fun most item => max most item.entityHits) 0
  hasDistilled := (inspected items plan).any fun item => item.internalKind.isDistilled
  hasEpisodic := (inspected items plan).any fun item => item.internalKind = .conversational
  facetUnionMask := (inspected items plan).foldl (fun mask item => mask ||| item.facetMask) 0
  maxFacetHits := (inspected items plan).foldl (fun most item =>
    max most (countOnes item.facetMask)) 0

/-- The part of the terms that is found, none without terms. -/
def coverageOf (found terms : ℕ) : F32 :=
  if terms = 0 then 0 else (found : F32) / (terms : F32)

/-- The sum of `session_coverage_bonus`. -/
def SessionSignals.bonus (signals : SessionSignals) (plan : QueryPlan) : F32 :=
  let lexicalCoverage := coverageOf signals.lexicalUnion plan.lexicalTerms.length
  let temporalCoverage := coverageOf signals.temporalUnion plan.temporalTerms.length
  let entityCoverage := coverageOf signals.entityUnion plan.subjectEntities.length
  let facetCoverage := coverageOf (countOnes signals.facetUnionMask)
    (min plan.coverageFacets.length 64)
  let bonus : F32 := 0
  let bonus := bonus + lexicalCoverage.min 1 * if plan.needsDecomposition then 0.05 else 0.02
  let bonus := bonus + temporalCoverage.min 1 *
    if plan.intent = .temporalAggregation then 0.05 else 0.02
  let bonus := bonus + entityCoverage.min 1 *
    if plan.crossEntity then 0.10 else if !plan.subjectEntities.isEmpty then 0.03 else 0
  let bonus := if plan.needsDecomposition && 2 ≤ signals.supportItems then
      bonus + (0.03 + ((min (signals.supportItems - 2) 2 : ℕ) : F32) * 0.01)
    else bonus
  let bonus := if Number.Less 0 facetCoverage then
      bonus + facetCoverage.min 1 * if plan.needsDecomposition then 0.10 else 0.03
    else bonus
  let bonus := if plan.needsDecomposition && 2 ≤ countOnes signals.facetUnionMask &&
      signals.maxFacetHits < countOnes signals.facetUnionMask then bonus + 0.05 else bonus
  let bonus := if plan.needsDecomposition && signals.hasDistilled && signals.hasEpisodic then
      bonus + 0.04
    else bonus
  let bonus := if 2 ≤ signals.kindUnion then
      bonus + ((min (signals.kindUnion - 1) 2 : ℕ) : F32) * 0.015
    else bonus
  let bonus := if plan.crossEntity && signals.entityUnion = plan.subjectEntities.length &&
      signals.maxEntityHits < plan.subjectEntities.length then bonus + 0.08
    else if plan.crossEntity ∧ Number.Less entityCoverage 1 then bonus - 0.03
    else bonus
  if plan.ordinalRank.isSome ∧ signals.hasDistilled ∧ Number.Less 0 temporalCoverage then
    bonus + 0.03
  else bonus

/-- `session_coverage_bonus` -/
def sessionCoverageBonus (isAlphanumeric : Char → Bool) (items : List ScoredCard)
    (plan : QueryPlan) : F32 :=
  if items.isEmpty then 0 else (sessionSignals isAlphanumeric items plan).bonus plan

/-- Whether a session meets a requirement, by the terms and entities of its cards. -/
def QueryRequirement.met (requirement : QueryRequirement) (lexicalUnion temporalUnion entityUnion :
    List String) : Bool :=
  let lexicalHits := (requirement.lexicalTerms.filter fun term => term ∈ lexicalUnion).length
  (if requirement.lexicalTerms.length ≤ 2 then decide (1 ≤ lexicalHits) else 2 ≤ lexicalHits) &&
    (requirement.temporalTerms.isEmpty ||
      requirement.temporalTerms.any fun term => term ∈ temporalUnion) &&
    (requirement.entities.isEmpty ||
      if requirement.requireAllEntities then
        requirement.entities.all fun entity => entity ∈ entityUnion
      else requirement.entities.any fun entity => entity ∈ entityUnion)

/-- `session_requirement_mask` -/
def sessionRequirementMask (isAlphanumeric : Char → Bool) (items : List ScoredCard)
    (plan : QueryPlan) : UInt64 :=
  let lower := fun item : ScoredCard => item.claimText.toList.map Char.toLower
  let lexicalUnion := (inspected items plan).flatMap fun item =>
    tokenSet isAlphanumeric item.claimText
  let temporalUnion := (inspected items plan).flatMap fun item => extractTemporalTerms (lower item)
  let entityUnion := (inspected items plan).flatMap fun item =>
    plan.subjectEntities.filter (mentions (lower item))
  ((plan.requirements.take 64).zipIdx.filter fun p =>
    p.1.met lexicalUnion temporalUnion entityUnion).foldl
      (fun mask p => mask ||| (1 <<< UInt64.ofNat p.2)) 0

/-! ## The size of the bonus -/

/-- A coverage is 1 at most. -/
theorem within_coverageOf (found terms : ℕ) : ((coverageOf found terms).min 1).Within 1 := by
  refine Number.NonNeg.within_min_ofNat ?_ (F32.has_natCast (by decide))
  unfold coverageOf
  split_ifs
  · exact .inr (le_refl _)
  · exact (Number.nonNeg_natCast found).div (Number.nonNeg_natCast terms)

/-- One of two weights of a term. -/
private theorem within_weight {p : Prop} [Decidable p] {x y : F32} (hx : x.Within 1)
    (hy : y.Within 1) : (if p then x else y).Within 1 :=
  hx.ite hy

/-- The terms of the bonus are small. -/
theorem SessionSignals.within_bonus (signals : SessionSignals) (plan : QueryPlan) :
    (signals.bonus plan).Within 13 := by
  unfold SessionSignals.bonus
  extract_lets lexicalCoverage temporalCoverage entityCoverage facetCoverage start withLexical
    withTemporal withEntity withSupport withFacets withSpread withKinds withMixed withEntities
  -- The parts are added in turn, and each of them is at most what its weight allows.
  have hstart : start.Within 0 := by decide +kernel
  have hlexical : withLexical.Within 1 :=
    F32.within_add hstart (F32.within_mul (within_coverageOf _ _)
      (within_weight (by decide +kernel) (by decide +kernel)) (by decide)) (by decide)
  have htemporal : withTemporal.Within 2 :=
    F32.within_add hlexical (F32.within_mul (within_coverageOf _ _)
      (within_weight (by decide +kernel) (by decide +kernel)) (by decide)) (by decide)
  have hentity : withEntity.Within 3 :=
    F32.within_add htemporal (F32.within_mul (within_coverageOf _ _)
      (within_weight (by decide +kernel) (within_weight (by decide +kernel) (by decide +kernel)))
      (by decide)) (by decide)
  have hsupport : withSupport.Within 6 :=
    F32.within_add_if hentity (F32.within_add (c := 1) (d := 2) (by decide +kernel)
      (F32.within_mul (F32.within_natCast (Nat.min_le_right _ 2) (by decide))
        (d := 1) (by decide +kernel) (by decide)) (by decide)) (by decide)
  have hfacets : withFacets.Within 7 :=
    F32.within_add_if hsupport (F32.within_mul (within_coverageOf _ _)
      (within_weight (by decide +kernel) (by decide +kernel)) (by decide)) (by decide)
  have hspread : withSpread.Within 8 :=
    F32.within_add_if hfacets (d := 1) (by decide +kernel) (by decide)
  have hkinds : withKinds.Within 9 :=
    F32.within_add_if hspread (d := 1) (by decide +kernel) (by decide)
  have hmixed : withMixed.Within 11 :=
    F32.within_add_if hkinds (F32.within_mul (F32.within_natCast (Nat.min_le_right _ 2)
      (by decide)) (d := 1) (by decide +kernel) (by decide)) (by decide)
  have hentities : withEntities.Within 12 :=
    (F32.within_add (d := 1) hmixed (by decide +kernel) (by decide)).ite
      (F32.within_sub_if (d := 1) hmixed (by decide +kernel) (by decide))
  exact F32.within_add_if (d := 1) hentities (by decide +kernel) (by decide)

end Tellodb
