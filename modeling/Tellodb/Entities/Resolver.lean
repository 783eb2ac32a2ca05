import Tellodb.Expansion.Chunks
import Tellodb.Lifecycle.Retention
import Tellodb.Relational.OrderBy

/-!
# Names of entities

Which of the known names a mention stands for, as `resolve_name` of `storage/entity_resolver.rs`
decides. It asks the tiers one after the other, equality, similarity of the letters, sound and
embedding, and the first that has a match answers. Their priorities rank the embedding before the
sound, so that the answer is of the highest tier unless these two are the ones that match
(`resolveName_highest_iff`). -/

namespace Tellodb

open Relational

/-! ## Keys -/

/-- `soundex_code` -/
def soundexCode (c : Char) : Char :=
  if c ∈ ['b', 'f', 'p', 'v'] then '1'
  else if c ∈ ['c', 'g', 'j', 'k', 'q', 's', 'x', 'z'] then '2'
  else if c ∈ ['d', 't'] then '3'
  else if c = 'l' then '4'
  else if c ∈ ['m', 'n'] then '5'
  else if c = 'r' then '6'
  else '0'

/-- The codes behind the first letter, as many as there is room for. A code that is the one before
it is left out. -/
def soundexCodes : ℕ → Char → List Char → List Char
  | 0, _, _ => []
  | _, _, [] => []
  | room + 1, previous, c :: rest =>
    if soundexCode c ≠ '0' ∧ soundexCode c ≠ previous then
      soundexCode c :: soundexCodes room (soundexCode c) rest
    else soundexCodes (room + 1) (soundexCode c) rest

/-- `soundex_key` -/
def soundexKey (name : List Char) : List Char :=
  match (name.filter Char.isAlpha).map Char.toLower with
  | [] => []
  | first :: rest => ((first :: soundexCodes 3 (soundexCode first) rest) ++ ['0', '0', '0']).take 4

/-- The pairs of letters that `phonetic_key` writes as one. -/
def rewriteDigraphs : List Char → List Char
  | 'p' :: 'h' :: rest => 'f' :: rewriteDigraphs rest
  | 'c' :: 'k' :: rest => 'k' :: rewriteDigraphs rest
  | 'k' :: 'n' :: rest => 'n' :: rewriteDigraphs rest
  | 'w' :: 'r' :: rest => 'r' :: rewriteDigraphs rest
  | c :: rest => c :: rewriteDigraphs rest
  | [] => []

/-- `phonetic_key` -/
def phoneticKey (name : String) : String :=
  String.ofList (soundexKey (rewriteDigraphs (name.toList.map Char.toLower)))

example : phoneticKey "Phillip" = phoneticKey "Filip" := by decide +kernel

/-! ## Tiers -/

/-- `ResolverTier` -/
inductive ResolverTier where
  | exact
  | fuzzy (score : ℚ)
  | phonetic
  | embedding (similarity : ℚ)
  deriving DecidableEq

/-- `ResolverTier::priority` -/
def ResolverTier.priority : ResolverTier → ℕ
  | exact => 4
  | fuzzy _ => 3
  | embedding _ => 2
  | phonetic => 1

/-- The embedding tier ranks at 2, whatever its similarity. -/
theorem priority_embedding (similarity : ℚ) : (ResolverTier.embedding similarity).priority = 2 :=
  rfl

/-- The phonetic tier ranks at 1. -/
theorem priority_phonetic : ResolverTier.phonetic.priority = 1 := rfl

/-- `EntityResolution` -/
structure EntityResolution where
  matchedName : Option String
  tier : ResolverTier
  deriving DecidableEq

/-- `ResolutionConfig` -/
structure ResolutionConfig where
  fuzzyThreshold : ℚ
  embeddingThreshold : ℚ

/-- `EntityCandidate` -/
structure EntityCandidate where
  name : String
  aliases : List String
  soundexKey : String
  embedding : Option (List ℚ)

/-- The computations with floating-point numbers. -/
structure NameSimilarity where
  /-- `strsim::jaro_winkler` -/
  jaroWinkler : String → String → ℚ
  /-- `cosine_similarity` -/
  cosineSimilarity : List ℚ → List ℚ → ℚ
  /-- A double as a float. -/
  toF32 : ℚ → ℚ

section

variable (R : NameSimilarity) (config : ResolutionConfig)

/-- The mention is the name of a candidate or an alias, but for case. -/
def exactMatch (nameLower : String) (c : EntityCandidate) : Bool :=
  toAsciiLowercase c.name = nameLower || c.aliases.any fun a => toAsciiLowercase a = nameLower

/-- How similar the letters of a candidate are, where similar enough. The aliases count if the name
is not. -/
def fuzzyScore (nameLower : String) (c : EntityCandidate) : Option ℚ :=
  let score := R.jaroWinkler nameLower (toAsciiLowercase c.name)
  if config.fuzzyThreshold ≤ score then some score
  else ((c.aliases.map fun a => R.jaroWinkler nameLower (toAsciiLowercase a)).max?).filter
    fun score => config.fuzzyThreshold ≤ score

/-- A candidate sounds as the mention. -/
def phoneticMatch (name : String) (c : EntityCandidate) : Bool :=
  !(phoneticKey name).isEmpty && c.soundexKey = phoneticKey name

/-- How similar the embedding of a candidate is, where similar enough. -/
def embeddingScore (nameEmbedding : Option (List ℚ)) (c : EntityCandidate) : Option ℚ :=
  (nameEmbedding.bind fun embedding => c.embedding.map (R.cosineSimilarity embedding)).filter
    fun similarity => config.embeddingThreshold ≤ similarity

/-- The first of the candidates with the best score. -/
def bestMatch (score : EntityCandidate → Option ℚ) (candidates : List EntityCandidate) :
    Option (EntityCandidate × ℚ) :=
  firstBy (fun m : EntityCandidate × ℚ => -m.2)
    (candidates.filterMap fun c => (score c).map fun s => (c, s))

variable (candidates : List EntityCandidate) (nameEmbedding : Option (List ℚ))

/-- The match of the first tier. -/
def exactAnswer (name : String) : Option EntityResolution :=
  (candidates.find? (exactMatch (toAsciiLowercase name))).map fun c => ⟨some c.name, .exact⟩

/-- The match of the second tier. -/
def fuzzyAnswer (name : String) : Option EntityResolution :=
  (bestMatch (fuzzyScore R config (toAsciiLowercase name)) candidates).map fun m =>
    ⟨some m.1.name, .fuzzy (R.toF32 m.2)⟩

/-- The match of the third tier. -/
def phoneticAnswer (name : String) : Option EntityResolution :=
  (candidates.find? (phoneticMatch name)).map fun c => ⟨some c.name, .phonetic⟩

/-- The match of the fourth tier. -/
def embeddingAnswer : Option EntityResolution :=
  (bestMatch (embeddingScore R config nameEmbedding) candidates).map fun m =>
    ⟨some m.1.name, .embedding m.2⟩

/-- The match of the first tier that has one. -/
def firstAnswer (name : String) : Option EntityResolution :=
  (exactAnswer candidates name).or <| (fuzzyAnswer R config candidates name).or <|
    (phoneticAnswer candidates name).or (embeddingAnswer R config candidates nameEmbedding)

/-- `resolve_name`: a mention of one byte is not looked up. -/
def resolveName (name : String) : EntityResolution :=
  let trimmed := trim name.toList
  if utf8Len trimmed < 2 then ⟨none, .exact⟩
  else (firstAnswer R config candidates nameEmbedding (String.ofList trimmed)).getD ⟨none, .exact⟩

/-! ## The highest tier -/

/-- What a tier looks for in a candidate, whatever its score. -/
def ResolverTier.holds (name : String) (c : EntityCandidate) : ResolverTier → Bool
  | exact => exactMatch (toAsciiLowercase name) c
  | fuzzy _ => (fuzzyScore R config (toAsciiLowercase name) c).isSome
  | phonetic => phoneticMatch name c
  | embedding _ => (embeddingScore R config nameEmbedding c).isSome

/-- A tier matches a mention to a candidate. A mention of one byte is not matched. -/
def ResolverTier.finds (tier : ResolverTier) (name : String) (c : EntityCandidate) : Bool :=
  2 ≤ utf8Len (trim name.toList) &&
    tier.holds R config nameEmbedding (String.ofList (trim name.toList)) c

/-- The answer is a match of its tier, and no tier of a higher priority has one. Without a match it
is no name. -/
def IsHighest (name : String) (r : EntityResolution) : Prop :=
  (∃ c ∈ candidates, r.matchedName = some c.name ∧
      r.tier.finds R config nameEmbedding name c = true ∧
      ∀ tier : ResolverTier, ∀ c' ∈ candidates, tier.finds R config nameEmbedding name c' = true →
        tier.priority ≤ r.tier.priority) ∨
    (r.matchedName = none ∧ ∀ tier : ResolverTier, ∀ c ∈ candidates,
      tier.finds R config nameEmbedding name c = false)

/-- The sound matches and the embedding too, and nothing of a higher priority. -/
def SoundAndMeaning (name : String) : Prop :=
  (∀ c ∈ candidates, ResolverTier.exact.finds R config nameEmbedding name c = false ∧
      (ResolverTier.fuzzy 0).finds R config nameEmbedding name c = false) ∧
    (∃ c ∈ candidates, ResolverTier.phonetic.finds R config nameEmbedding name c = true) ∧
    ∃ c ∈ candidates, (ResolverTier.embedding 0).finds R config nameEmbedding name c = true

end

/-- The best match is a candidate with its score. -/
theorem bestMatch_eq_some {score : EntityCandidate → Option ℚ} {candidates : List EntityCandidate}
    {m : EntityCandidate × ℚ} (h : bestMatch score candidates = some m) :
    m.1 ∈ candidates ∧ score m.1 = some m.2 := by
  have hmem := List.mem_of_mem_head? h
  rw [mem_orderBy] at hmem
  obtain ⟨c, hc, hm⟩ := List.mem_filterMap.mp hmem
  obtain ⟨s, hs, rfl⟩ := Option.map_eq_some_iff.mp hm
  exact ⟨hc, hs⟩

/-- There is no best match without a score. -/
theorem bestMatch_eq_none {score : EntityCandidate → Option ℚ} {candidates : List EntityCandidate} :
    bestMatch score candidates = none ↔ ∀ c ∈ candidates, score c = none := by
  unfold bestMatch firstBy
  rw [List.head?_eq_none_iff, orderBy_eq_nil, List.filterMap_eq_nil_iff]
  exact forall₂_congr fun c _ => Option.map_eq_none_iff

section

variable {R : NameSimilarity} {config : ResolutionConfig} {candidates : List EntityCandidate}
  {nameEmbedding : Option (List ℚ)}

/-- An answer of a tier: a match that it has, or none if it has none. -/
structure Answers (R : NameSimilarity) (config : ResolutionConfig)
    (candidates : List EntityCandidate) (nameEmbedding : Option (List ℚ)) (name : String)
    (tier : ResolverTier) (answer : Option EntityResolution) : Prop where
  found : ∀ r, answer = some r → ∃ c ∈ candidates, r.matchedName = some c.name ∧
    r.tier.holds R config nameEmbedding name c = true ∧
    tier.holds R config nameEmbedding name c = true ∧ r.tier.priority = tier.priority
  missed : answer = none → ∀ c ∈ candidates, tier.holds R config nameEmbedding name c = false

/-- A tier that takes the first candidate of a test answers, if the test is the tier's. -/
theorem answers_find? {name : String} {tier : ResolverTier} {p : EntityCandidate → Bool}
    (h : ∀ c, p c = tier.holds R config nameEmbedding name c) :
    Answers R config candidates nameEmbedding name tier
      ((candidates.find? p).map fun c => ⟨some c.name, tier⟩) where
  found r hr := by
    obtain ⟨c, hc, rfl⟩ := Option.map_eq_some_iff.mp hr
    have hholds := List.find?_some hc
    rw [h] at hholds
    exact ⟨c, List.mem_of_find?_eq_some hc, rfl, hholds, hholds, rfl⟩
  missed hnone c hc := by
    rw [← h]
    exact Bool.eq_false_iff.mpr (List.find?_eq_none.mp (Option.map_eq_none_iff.mp hnone) c hc)

/-- A tier that takes the best score answers, if it scores the candidates that it holds of. -/
theorem answers_bestMatch {name : String} (tier : ℚ → ResolverTier)
    {score : EntityCandidate → Option ℚ} (f : ℚ → ℚ)
    (h : ∀ s c, (score c).isSome = (tier s).holds R config nameEmbedding name c)
    (hpriority : ∀ s s', (tier s).priority = (tier s').priority) :
    Answers R config candidates nameEmbedding name (tier 0)
      ((bestMatch score candidates).map fun m => ⟨some m.1.name, tier (f m.2)⟩) where
  found r hr := by
    obtain ⟨m, hm, rfl⟩ := Option.map_eq_some_iff.mp hr
    obtain ⟨hc, hscore⟩ := bestMatch_eq_some hm
    have hholds : ∀ s, (tier s).holds R config nameEmbedding name m.1 = true := by
      intro s
      rw [← h, hscore]
      rfl
    exact ⟨m.1, hc, rfl, hholds _, hholds 0, hpriority _ _⟩
  missed hnone c hc := by
    rw [← h, bestMatch_eq_none.mp (Option.map_eq_none_iff.mp hnone) c hc]
    rfl

end

section

variable (R : NameSimilarity) (config : ResolutionConfig) (candidates : List EntityCandidate)
  (nameEmbedding : Option (List ℚ)) (name : String)

/-- The exact tier answers. -/
theorem answers_exact : Answers R config candidates nameEmbedding name .exact
    (exactAnswer candidates name) :=
  answers_find? fun _ => rfl

/-- The fuzzy tier answers. -/
theorem answers_fuzzy : Answers R config candidates nameEmbedding name (.fuzzy 0)
    (fuzzyAnswer R config candidates name) :=
  answers_bestMatch .fuzzy R.toF32 (fun _ _ => rfl) fun _ _ => rfl

/-- The phonetic tier answers. -/
theorem answers_phonetic : Answers R config candidates nameEmbedding name .phonetic
    (phoneticAnswer candidates name) :=
  answers_find? fun _ => rfl

/-- The embedding tier answers. -/
theorem answers_embedding : Answers R config candidates nameEmbedding name (.embedding 0)
    (embeddingAnswer R config candidates nameEmbedding) :=
  answers_bestMatch .embedding id (fun _ _ => rfl) fun _ _ => rfl

/-- No tier ranks at zero. -/
theorem priority_pos (tier : ResolverTier) : 0 < tier.priority := by
  cases tier <;> exact Nat.succ_pos _

/-- No tier ranks above the exact one. -/
theorem priority_le (tier : ResolverTier) : tier.priority ≤ 4 := by
  cases tier <;> simp only [ResolverTier.priority] <;> omega

/-- A tier that holds where another does not is of another priority. -/
theorem priority_ne_of_missed {tier missed : ResolverTier} {c : EntityCandidate}
    (hmissed : missed.holds R config nameEmbedding name c = false)
    (h : tier.holds R config nameEmbedding name c = true) :
    tier.priority ≠ missed.priority := by
  intro hpriority
  have hholds : tier.holds R config nameEmbedding name c =
      missed.holds R config nameEmbedding name c := by
    cases tier <;> cases missed <;> first | rfl | (simp [ResolverTier.priority] at hpriority)
  rw [hmissed, h] at hholds
  exact Bool.false_ne_true hholds.symm

/-- A mention of one byte has no answer, and no tier matches it. -/
theorem isHighest_short (h : ¬ 2 ≤ utf8Len (trim name.toList)) :
    IsHighest R config candidates nameEmbedding name
        (resolveName R config candidates nameEmbedding name) ∧
      ¬ SoundAndMeaning R config candidates nameEmbedding name := by
  have hnone : ∀ (tier : ResolverTier) c, tier.finds R config nameEmbedding name c = false := by
    intro tier c
    unfold ResolverTier.finds
    rw [decide_eq_false h, Bool.false_and]
  constructor
  · refine .inr ⟨?_, fun tier c _ => hnone tier c⟩
    unfold resolveName
    dsimp only
    rw [if_pos (not_le.mp h)]
  · rintro ⟨-, ⟨c, -, hc⟩, -⟩
    rw [hnone] at hc
    exact Bool.false_ne_true hc

/-- No tier of a higher priority holds of a candidate. -/
def NoneAbove (priority : ℕ) : Prop :=
  ∀ tier : ResolverTier, ∀ c ∈ candidates,
    tier.holds R config nameEmbedding name c = true → tier.priority ≤ priority

/-- An answer is of the highest tier that holds, or no name if none does. -/
def HoldsHighest (r : EntityResolution) : Prop :=
  (∃ c ∈ candidates, r.matchedName = some c.name ∧
      r.tier.holds R config nameEmbedding name c = true ∧
      NoneAbove R config candidates nameEmbedding name r.tier.priority) ∨
    (r.matchedName = none ∧ ∀ tier : ResolverTier, ∀ c ∈ candidates,
      tier.holds R config nameEmbedding name c = false)

/-- The tiers of the sound and of the embedding hold, and none above. -/
def SoundAndMeaningHold : Prop :=
  (∀ c ∈ candidates, ResolverTier.exact.holds R config nameEmbedding name c = false ∧
      (ResolverTier.fuzzy 0).holds R config nameEmbedding name c = false) ∧
    (∃ c ∈ candidates, ResolverTier.phonetic.holds R config nameEmbedding name c = true) ∧
    ∃ c ∈ candidates, (ResolverTier.embedding 0).holds R config nameEmbedding name c = true

section

variable {R config candidates nameEmbedding name}

/-- A tier without a match lowers what the priorities can be. -/
theorem NoneAbove.of_missed {k : ℕ} (h : NoneAbove R config candidates nameEmbedding name (k + 1))
    {missed : ResolverTier} (hpriority : missed.priority = k + 1)
    (hmissed : ∀ c ∈ candidates, missed.holds R config nameEmbedding name c = false) :
    NoneAbove R config candidates nameEmbedding name k := by
  intro tier c hc hholds
  have hle := h tier c hc hholds
  have hne := priority_ne_of_missed R config nameEmbedding name (hmissed c hc) hholds
  omega

/-- An answer of a tier is of the highest one if none above holds. -/
theorem Answers.holdsHighest {tier : ResolverTier} {answer : Option EntityResolution}
    (h : Answers R config candidates nameEmbedding name tier answer) {r : EntityResolution}
    (hr : answer = some r)
    (hnone : NoneAbove R config candidates nameEmbedding name tier.priority) :
    HoldsHighest R config candidates nameEmbedding name r := by
  obtain ⟨c, hc, hname, hholds, -, hpriority⟩ := h.found r hr
  rw [← hpriority] at hnone
  exact .inl ⟨c, hc, hname, hholds, hnone⟩

/-- A tier that answers holds of a candidate. -/
theorem Answers.exists_holds {tier : ResolverTier} {answer : Option EntityResolution}
    (h : Answers R config candidates nameEmbedding name tier answer) {r : EntityResolution}
    (hr : answer = some r) :
    ∃ c ∈ candidates, tier.holds R config nameEmbedding name c = true := by
  obtain ⟨c, hc, -, -, hholds, -⟩ := h.found r hr
  exact ⟨c, hc, hholds⟩

/-- An answer of the sound is of the highest tier unless the embedding holds as well. -/
theorem holdsHighest_phonetic_iff {r : EntityResolution}
    (hr : phoneticAnswer candidates name = some r)
    (hmissed : ∀ c ∈ candidates, ResolverTier.exact.holds R config nameEmbedding name c = false ∧
      (ResolverTier.fuzzy 0).holds R config nameEmbedding name c = false)
    (htwo : NoneAbove R config candidates nameEmbedding name 2) :
    HoldsHighest R config candidates nameEmbedding name r ↔
      ¬ SoundAndMeaningHold R config candidates nameEmbedding name := by
  have hanswers := answers_phonetic R config candidates nameEmbedding name
  obtain ⟨c, hc, hname, -, -, hpriority⟩ := hanswers.found r hr
  constructor
  · rintro (⟨-, -, -, -, habove⟩ | ⟨hnone, -⟩) ⟨-, -, c', hc', hmeaning⟩
    · have h := habove (.embedding 0) c' hc' hmeaning
      rw [hpriority, priority_embedding, priority_phonetic] at h
      omega
    · rw [hnone] at hname
      exact absurd hname.symm (Option.some_ne_none _)
  · intro hnot
    have hquiet : ∀ c' ∈ candidates,
        (ResolverTier.embedding 0).holds R config nameEmbedding name c' = false := by
      intro c' hc'
      refine Bool.eq_false_iff.mpr fun hmeaning => hnot ?_
      exact ⟨hmissed, hanswers.exists_holds hr, c', hc', hmeaning⟩
    exact hanswers.holdsHighest hr (htwo.of_missed rfl hquiet)

end

/-- Which of the answers of the tiers are of the highest tier that holds. The tiers are asked from
the highest priority down, but for the last two. -/
theorem holdsHighest_firstAnswer_iff :
    HoldsHighest R config candidates nameEmbedding name
        ((firstAnswer R config candidates nameEmbedding name).getD ⟨none, .exact⟩) ↔
      ¬ SoundAndMeaningHold R config candidates nameEmbedding name := by
  have hexacts := answers_exact R config candidates nameEmbedding name
  have hfuzzies := answers_fuzzy R config candidates nameEmbedding name
  have hphonetics := answers_phonetic R config candidates nameEmbedding name
  have hembeddings := answers_embedding R config candidates nameEmbedding name
  have hfour : NoneAbove R config candidates nameEmbedding name 4 := fun tier _ _ _ =>
    priority_le tier
  unfold firstAnswer
  -- The tiers are asked in turn, and each one that misses lowers the bound by one.
  cases hexact : exactAnswer candidates name with
  | some r =>
    rw [Option.some_or, Option.getD_some]
    refine iff_of_true (hexacts.holdsHighest hexact hfour) fun h => ?_
    obtain ⟨c, hc, hholds⟩ := hexacts.exists_holds hexact
    exact Bool.false_ne_true ((h.1 c hc).1.symm.trans hholds)
  | none =>
    rw [Option.none_or]
    -- No candidate is the same, so no tier of rank four holds.
    have hthree := hfour.of_missed rfl (hexacts.missed hexact)
    cases hfuzzy : fuzzyAnswer R config candidates name with
    | some r =>
      rw [Option.some_or, Option.getD_some]
      refine iff_of_true (hfuzzies.holdsHighest hfuzzy hthree) fun h => ?_
      obtain ⟨c, hc, hholds⟩ := hfuzzies.exists_holds hfuzzy
      exact Bool.false_ne_true ((h.1 c hc).2.symm.trans hholds)
    | none =>
      rw [Option.none_or]
      -- No candidate is similar either.
      have htwo := hthree.of_missed rfl (hfuzzies.missed hfuzzy)
      cases hphonetic : phoneticAnswer candidates name with
      | some r =>
        rw [Option.some_or, Option.getD_some]
        exact holdsHighest_phonetic_iff hphonetic
          (fun c hc => ⟨hexacts.missed hexact c hc, hfuzzies.missed hfuzzy c hc⟩) htwo
      | none =>
        rw [Option.none_or]
        -- If no candidate sounds alike, the phonetic tier is not in the way.
        have hsilent : ¬ SoundAndMeaningHold R config candidates nameEmbedding name := by
          rintro ⟨-, ⟨c, hc, h⟩, -⟩
          exact Bool.false_ne_true ((hphonetics.missed hphonetic c hc).symm.trans h)
        cases hembedding : embeddingAnswer R config candidates nameEmbedding with
        | some r =>
          rw [Option.getD_some]
          exact iff_of_true (hembeddings.holdsHighest hembedding htwo) hsilent
        | none =>
          -- Every tier has missed, so none is left that could hold.
          rw [Option.getD_none]
          have hzero := (htwo.of_missed rfl (hembeddings.missed hembedding)).of_missed rfl
            (hphonetics.missed hphonetic)
          refine iff_of_true (.inr ⟨rfl, fun tier c hc => ?_⟩) hsilent
          refine Bool.eq_false_iff.mpr fun h => ?_
          have hpos := priority_pos tier
          have hle := hzero tier c hc h
          omega

/-- The answer is of the highest tier that matches, unless the sound and the embedding match and
nothing of a higher priority does. -/
theorem resolveName_highest_iff :
    IsHighest R config candidates nameEmbedding name
        (resolveName R config candidates nameEmbedding name) ↔
      ¬ SoundAndMeaning R config candidates nameEmbedding name := by
  by_cases hlong : 2 ≤ utf8Len (trim name.toList)
  swap
  · obtain ⟨hhighest, hnot⟩ := isHighest_short R config candidates nameEmbedding name hlong
    exact iff_of_true hhighest hnot
  obtain ⟨trimmed, htrimmed⟩ : ∃ trimmed, trimmed = String.ofList (trim name.toList) := ⟨_, rfl⟩
  have hfinds : ∀ (tier : ResolverTier) c, tier.finds R config nameEmbedding name c =
      tier.holds R config nameEmbedding trimmed c := by
    intro tier c
    unfold ResolverTier.finds
    rw [decide_eq_true hlong, Bool.true_and, htrimmed]
  have hresolve : resolveName R config candidates nameEmbedding name =
      (firstAnswer R config candidates nameEmbedding trimmed).getD ⟨none, .exact⟩ := by
    unfold resolveName
    dsimp only
    rw [if_neg (not_lt.mpr hlong), htrimmed]
  unfold IsHighest SoundAndMeaning
  simp only [hfinds]
  rw [hresolve]
  exact holdsHighest_firstAnswer_iff R config candidates nameEmbedding trimmed

/-- Two candidates: one sounds as the mention, the other has its embedding. -/
def soundAndMeaning : List EntityCandidate :=
  [⟨"Phillip", [], phoneticKey "Phillip", none⟩, ⟨"Robert", [], phoneticKey "Robert", some [1, 0]⟩]

/-- The similarities of the two names, and of embeddings of length one. -/
def filipSimilarity : NameSimilarity where
  jaroWinkler a b := if a = "filip" ∧ b = "phillip" then 83 / 105 else if a = b then 1 else 0
  cosineSimilarity a b := if a = b then 1 else 0
  toF32 := id

/-- The answer is of the phonetic tier, though the embedding tier matches. -/
theorem sound_before_meaning :
    resolveName filipSimilarity ⟨23 / 25, 22 / 25⟩ soundAndMeaning (some [1, 0]) "Filip" =
        ⟨some "Phillip", .phonetic⟩ ∧
      ¬ ∀ R config candidates nameEmbedding name,
        IsHighest R config candidates nameEmbedding name
          (resolveName R config candidates nameEmbedding name) := by
  have hanswer : resolveName filipSimilarity ⟨23 / 25, 22 / 25⟩ soundAndMeaning (some [1, 0])
      "Filip" = ⟨some "Phillip", .phonetic⟩ := by
    decide +kernel
  refine ⟨hanswer, fun h => ?_⟩
  have hhighest := h filipSimilarity ⟨23 / 25, 22 / 25⟩ soundAndMeaning (some [1, 0]) "Filip"
  rw [hanswer] at hhighest
  rcases hhighest with ⟨-, -, -, -, habove⟩ | ⟨hnone, -⟩
  · have h := habove (.embedding 1) ⟨"Robert", [], phoneticKey "Robert", some [1, 0]⟩
      (List.mem_cons_of_mem _ List.mem_cons_self) (by decide +kernel)
    exact absurd h (by decide)
  · exact absurd hnone (by decide)

end

end Tellodb
