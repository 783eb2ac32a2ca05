import Tellodb.Query.Coverage
import Tellodb.Relational.Cut

/-!
# The search of memory cards

`search_memory_cards` reads rows of an entity, at most twenty for each card that it is to find and
in no order that the statement asks for, scores them, and returns the best. So the best cards are
found exactly if no row that was not read has fewer than the limit better ones among those that were
(`searchMemoryCards_iff`), as when there are no rows beyond those (`searchMemoryCards_of_le`). The
other searches of the store order their rows before they limit them.

The order in which rows come is a parameter (`ScanOrder`). Scores are numbers of `f32`, never `nan`
(`cardScore_ne_nan`), and a hit carries this along. -/

namespace Tellodb

open Machine Machine.Format Relational

/-- The order in which SQLite returns rows that are to come in no order. -/
structure ScanOrder where
  order : List MemoryCard → List MemoryCard
  perm : ∀ rows, (order rows).Perm rows

/-- `MemoryCardSearchInput` -/
structure MemoryCardSearchInput where
  entityId : String
  lexicalTerms : List String
  temporalTerms : List String
  entities : List String
  routeSessions : List String
  includeStale : Bool
  pointInTimeMs : Option UInt64
  knownAsOfMs : Option UInt64
  nowMs : UInt64
  limit : UInt64

/-- `MemoryCardSearchHit` -/
structure MemoryCardSearchHit where
  cardId : String
  sourceMemoryId : String
  sourceSessionId : String
  timestamp : UInt64
  score : F32
  lexicalHits : ℕ
  temporalHits : ℕ
  entityHits : ℕ
  /-- `partial_cmp` orders any two scores. -/
  score_ne_nan : score ≠ .nan
  deriving DecidableEq

/-! ## Rows -/

/-- The conditions of the statement. -/
def TenantStore.cardMatches (S : TenantStore) (query : MemoryCardSearchInput)
    (card : MemoryCard) : Bool :=
  card.entityId = query.entityId && (query.includeStale || card.isLatest) &&
    -- Times are compared with a sign, as they are stored.
    (card.expiresAt.all fun expiresAt => query.nowMs.toInt64 < expiresAt.toInt64) &&
    (query.pointInTimeMs.all fun pit => card.createdAtMs.toInt64 ≤ pit.toInt64) &&
    query.knownAsOfMs.all fun known =>
      -- A card without a memory is as old as it says.
      ((S.memories.find? card.cardId).map MemoryRow.recordedAtMs).getD card.createdAtMs.toInt64 ≤
        known.toInt64

/-- `query.limit.saturating_mul(20) as i64` -/
def MemoryCardSearchInput.rowLimit (query : MemoryCardSearchInput) : Int64 :=
  (UInt64.ofNat (min (query.limit.toNat * 20) (2 ^ 64 - 1))).toInt64

/-- The rows that pass the conditions, in the order in which they come. -/
def cardRows (scan : ScanOrder) (S : TenantStore) (query : MemoryCardSearchInput) :
    List MemoryCard :=
  scan.order (S.memoryCards.rows.filter (S.cardMatches query))

/-! ## Scores -/

/-- `contains_term_count` -/
def containsTermCount (lowerHaystack : List Char) (terms : List String) : ℕ :=
  (terms.filter fun term =>
    let needle := (trim term.toList).map Char.toLower
    -- A term that is blank is never found.
    !needle.isEmpty && containsPhrase lowerHaystack (String.ofList needle)).length

/-- The text of a card that terms are looked for in. -/
def MemoryCard.searchText (card : MemoryCard) : List Char :=
  (card.subject ++ " " ++ card.predicate ++ " " ++ card.object ++ " " ++ card.memoryText ++ " " ++
    card.cardType ++ " " ++ card.sourceSessionId).toList.map Char.toLower

/-- The boost of the type of a card. -/
def typeBoost (cardType : String) : F32 :=
  if cardType = "fact" then 0.10
  else if cardType = "preference" ∨ cardType = "profile" then 0.09
  else if cardType = "event" ∨ cardType = "episode" then 0.07
  else if cardType = "decision" then 0.06
  else if cardType = "inference" then 0.04
  else 0.03

/-- The score of a card. -/
def cardScore (query : MemoryCardSearchInput) (card : MemoryCard) : F32 :=
  let coverage (terms : List String) : F32 :=
    (coverageOf (containsTermCount card.searchText terms) terms.length).min 1
  -- A session that is routed to counts even without a term.
  let routeBoost : F32 := if card.sourceSessionId ∈ query.routeSessions then 0.12 else 0
  let latestBoost : F32 := if card.isLatest then 0.04 else -0.06
  coverage query.lexicalTerms * 0.42 + coverage query.temporalTerms * 0.16 +
    coverage query.entities * 0.24 + routeBoost + typeBoost card.cardType + latestBoost +
    (Format.binary32.round card.confidence).clamp 0 1 * 0.08

/-- The boost of a type is at most one. -/
theorem within_typeBoost (cardType : String) : (typeBoost cardType).Within 1 := by
  unfold typeBoost
  split_ifs <;> decide +kernel

/-- Scores are numbers, so that the order of the hits is one. -/
theorem cardScore_ne_nan (query : MemoryCardSearchInput) (card : MemoryCard) :
    cardScore query card ≠ .nan := by
  unfold cardScore
  extract_lets coverage routeBoost latestBoost
  have hcoverage : ∀ (terms : List String) (weight : F32), weight.Within 1 →
      (coverage terms * weight).Within 1 := fun terms _ hweight =>
    F32.within_mul (within_coverageOf _ _) hweight (by decide)
  have hroute : routeBoost.Within 1 := Number.Within.ite (by decide +kernel) (by decide +kernel)
  have hlatest : latestBoost.Within 1 := Number.Within.ite (by decide +kernel) (by decide +kernel)
  have hconfidence : ((Format.binary32.round card.confidence).clamp 0 1 * 0.08).Within 1 :=
    F32.within_mul (c := 1) (d := 1)
      (Number.within_clamp (Number.round_ne_nan _) (F32.has_natCast (by decide)))
      (by decide +kernel) (by decide)
  have hlexical := hcoverage query.lexicalTerms 0.42 (by decide +kernel)
  have htemporal := hcoverage query.temporalTerms 0.16 (by decide +kernel)
  have hentity := hcoverage query.entities 0.24 (by decide +kernel)
  have h₁ := F32.within_add hlexical htemporal (by decide)
  have h₂ := F32.within_add h₁ hentity (by decide)
  have h₃ := F32.within_add h₂ hroute (by decide)
  have h₄ := F32.within_add h₃ (within_typeBoost card.cardType) (by decide)
  have h₅ := F32.within_add h₄ hlatest (by decide)
  exact (F32.within_add h₅ hconfidence (by decide)).ne_nan

/-- A card that has a term, or whose session is routed to, is a hit. -/
def cardHit (query : MemoryCardSearchInput) (card : MemoryCard) : Option MemoryCardSearchHit :=
  let lexicalHits := containsTermCount card.searchText query.lexicalTerms
  let temporalHits := containsTermCount card.searchText query.temporalTerms
  let entityHits := containsTermCount card.searchText query.entities
  if lexicalHits = 0 ∧ temporalHits = 0 ∧ entityHits = 0 ∧
      card.sourceSessionId ∉ query.routeSessions then none
  else some
    { cardId := card.cardId
      sourceMemoryId := card.sourceMemoryId
      sourceSessionId := card.sourceSessionId
      timestamp := card.createdAtMs
      score := cardScore query card
      score_ne_nan := cardScore_ne_nan query card
      lexicalHits := lexicalHits
      temporalHits := temporalHits
      entityHits := entityHits }

/-- The order of the hits. -/
def MemoryCardSearchHit.rank (hit : MemoryCardSearchHit) : F32ᵒᵈ ×ₗ String :=
  toLex (OrderDual.toDual hit.score, hit.cardId)

/-- `search_memory_cards` -/
def searchMemoryCards (scan : ScanOrder) (S : TenantStore) (query : MemoryCardSearchInput) :
    List MemoryCardSearchHit :=
  if query.limit = 0 then []
  -- Only so many rows are read, before they are scored.
  else (orderBy MemoryCardSearchHit.rank
    ((sqlLimit query.rowLimit (cardRows scan S query)).filterMap (cardHit query))).take
      query.limit.toNat

/-- The best hits among all cards of the entity. -/
def bestCardHits (S : TenantStore) (query : MemoryCardSearchInput) : List MemoryCardSearchHit :=
  (orderBy MemoryCardSearchHit.rank
    ((S.memoryCards.rows.filter (S.cardMatches query)).filterMap (cardHit query))).take
      query.limit.toNat

/-! ## What is found -/

variable (scan : ScanOrder) (S : TenantStore) (query : MemoryCardSearchInput)

/-- The hits are those of distinct cards. -/
theorem keyed_cardHits :
    Keyed MemoryCardSearchHit.rank ((cardRows scan S query).filterMap (cardHit query)) := by
  have hrows : Keyed MemoryCard.cardId (cardRows scan S query) :=
    (S.memoryCards.keyed.filter _).perm (scan.perm _).symm
  have hids : Keyed MemoryCardSearchHit.cardId
      ((cardRows scan S query).filterMap (cardHit query)) := by
    refine hrows.filterMap fun card hit hhit => ?_
    unfold cardHit at hhit
    dsimp only at hhit
    split_ifs at hhit
    rw [← Option.some.inj hhit]
  refine List.Nodup.of_map (fun p => (ofLex p).2) ?_
  rw [List.map_map]
  exact hids

/-- Hits of rows that were not read. -/
def missedHits : List MemoryCardSearchHit :=
  (sqlRest query.rowLimit (cardRows scan S query)).filterMap (cardHit query)

/-- Hits of the rows that were read. -/
def readHits : List MemoryCardSearchHit :=
  (sqlLimit query.rowLimit (cardRows scan S query)).filterMap (cardHit query)

/-- The hits are those of rows that were read, and of rows that were not. -/
theorem filterMap_cardRows : (cardRows scan S query).filterMap (cardHit query) =
    readHits scan S query ++ missedHits scan S query := by
  unfold readHits missedHits
  rw [← List.filterMap_append, sqlLimit_append_sqlRest]

/-- The best hits are the best of both. -/
theorem bestCardHits_eq : bestCardHits S query = (orderBy MemoryCardSearchHit.rank
    (readHits scan S query ++ missedHits scan S query)).take query.limit.toNat := by
  unfold bestCardHits
  rw [← filterMap_cardRows,
    (keyed_cardHits scan S query).orderBy_congr ((scan.perm _).filterMap _)]

/-- The search finds the best of those that were read. -/
theorem searchMemoryCards_eq : searchMemoryCards scan S query =
    (orderBy MemoryCardSearchHit.rank (readHits scan S query)).take query.limit.toNat := by
  unfold searchMemoryCards readHits
  split_ifs with hzero
  · rw [hzero]
    rfl
  · rfl

/-- The search finds the best hits exactly if each hit of a row that was not read has as many better
ones among those that were as the limit asks for. -/
theorem searchMemoryCards_iff :
    searchMemoryCards scan S query = bestCardHits S query ↔
      ∀ hit ∈ missedHits scan S query, query.limit.toNat ≤
        ((readHits scan S query).filter fun other => other.rank < hit.rank).length := by
  have hkeyed := keyed_cardHits scan S query
  rw [filterMap_cardRows] at hkeyed
  rw [searchMemoryCards_eq, bestCardHits_eq scan]
  exact hkeyed.take_orderBy_append_iff

/-- The search finds the best hits if no more rows pass the conditions than are read. -/
theorem searchMemoryCards_of_le (h : (cardRows scan S query).length ≤ query.limit.toNat * 20) :
    searchMemoryCards scan S query = bestCardHits S query := by
  have hrest : sqlRest query.rowLimit (cardRows scan S query) = [] := by
    have hsigned := toInt_toInt64_eq (UInt64.ofNat (min (query.limit.toNat * 20) (2 ^ 64 - 1)))
    have hsize : min (query.limit.toNat * 20) (2 ^ 64 - 1) < UInt64.size := by
      change _ < 18446744073709551616
      omega
    rw [UInt64.toNat_ofNat_of_lt' hsize] at hsigned
    unfold sqlRest MemoryCardSearchInput.rowLimit
    split_ifs with hneg
    · rfl
    · rw [Int64.lt_iff_toInt_lt, Int64.toInt_zero, hsigned] at hneg
      rw [hsigned]
      split_ifs at hneg ⊢
      · exact List.drop_eq_nil_of_le (by omega)
      · omega
  have hmissed : missedHits scan S query = [] := by
    unfold missedHits
    rw [hrest, List.filterMap_nil]
  rw [searchMemoryCards_eq, bestCardHits_eq scan, hmissed, List.append_nil]

/-! ## A card after the rows that are read -/

/-- Rows come in the order of the table. -/
private def tableOrder : ScanOrder := ⟨id, fun _ => List.Perm.refl _⟩

/-- A card of one entity. -/
private def noteCard (cardId memoryText : String) : MemoryCard where
  cardId := cardId
  entityId := "alice"
  userId := "alice"
  sourceMemoryId := cardId
  sourceSessionId := "s"
  sourceTurnIndex := 0
  documentTime := 0
  conversationTime := 0
  eventTime := none
  subject := "alice"
  predicate := "likes"
  object := memoryText
  memoryText := memoryText
  cardType := "fact"
  confidence := 9 / 10
  isLatest := true
  isStatic := false
  isInference := false
  expiresAt := none
  rootCardId := none
  parentCardId := none
  lifecycle := ""
  createdAtMs := 100
  updatedAtMs := 100

/-- Twenty cards on tea and, after them, one on cycling. -/
private def teaThenCycling : TenantStore :=
  { TenantStore.empty with
    memoryCards := ⟨(List.range 20).map (fun i => noteCard (toString i) "tea") ++
      [noteCard "cycling" "cycling"], by unfold Keyed; decide +kernel⟩ }

/-- The best card on cycling. -/
private def onCycling : MemoryCardSearchInput where
  entityId := "alice"
  lexicalTerms := ["cycling"]
  temporalTerms := []
  entities := []
  routeSessions := []
  includeStale := false
  pointInTimeMs := none
  knownAsOfMs := none
  nowMs := 200
  limit := 1

/-- The only card with the term is not found behind twenty others. -/
theorem searchMemoryCards_cycling :
    searchMemoryCards tableOrder teaThenCycling onCycling ≠
      bestCardHits teaThenCycling onCycling := by
  have hsearch : searchMemoryCards tableOrder teaThenCycling onCycling = [] := by decide +kernel
  have hbest : (bestCardHits teaThenCycling onCycling).map MemoryCardSearchHit.cardId =
      ["cycling"] := by decide +kernel
  intro hsame
  rw [← hsame, hsearch] at hbest
  exact absurd hbest (by decide)

end Tellodb
