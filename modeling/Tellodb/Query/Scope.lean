import Tellodb.Core.Identity
import Tellodb.Deletion.Exact
import Tellodb.Facts.Origin
import Tellodb.Index.Docs
import Tellodb.Query.Response

/-!
# The scope of a query

A query about an entity is to answer with rows of that entity whose texts are stored under it
(`ScopedRow`). The scope is enforced on the candidates, but a candidate is then shown under the
source that its card names, with the text that is stored there, next to a card that is looked up by
that source, and next to all edges at the entity. So the rows are in scope as long as the entity
shares no memory identifier with another one, as a memory, a card or a source, and no fact of
another entity is about it (`queries_run`); else they need not be (`shown_to_another`). -/

namespace Tellodb

open Relational FactTables

/-! ## The statement -/

/-- A text is that of a memory of an entity. -/
def TenantStore.HoldsText (S : TenantStore) (entityId text : String) : Prop :=
  ∃ r ∈ S.memories.rows, r.entityId = entityId ∧ r.content = text

/-- A fact as a row tells it. -/
def FactVersion.told (v : FactVersion) : String :=
  String.ofList (v.factKey.toList.map fun c => if c = '_' then ' ' else c) ++ ": " ++ v.object

/-- A card as a row tells it. -/
def MemoryCard.told (card : MemoryCard) : String :=
  card.subject ++ ": " ++ card.object

/-- No memory and no fact of another entity is under the memory of an edge. -/
structure EdgeRow.OfEntity (e : EdgeRow) (S : TenantStore) (entityId : String) : Prop where
  memories : ∀ r ∈ S.memories.rows, r.memoryId = e.memoryId → r.entityId = entityId
  versions : ∀ v ∈ S.facts.versions.rows, v.memoryId = e.memoryId → v.entityId = entityId

/-- The text of a row of some origin other than the observation block is stored under an entity. -/
def TenantStore.Shows (S : TenantStore) (entityId text : String) : ResultOrigin → Prop
  | .stored => S.HoldsText entityId text
  | .synthesizedFact => S.HoldsText entityId text ∨
      ∃ v ∈ S.facts.versions.rows, v.entityId = entityId ∧ v.told = text
  | .synthesizedCard => ∃ card ∈ S.memoryCards.rows, card.entityId = entityId ∧ card.told = text
  | .synthesizedObservationBlock => False

/-- An observation block is made of the profile of an entity, of edges that are of no other, and of
texts of rows that are in scope. -/
structure BlockParts (Q : QueryEngine) (S : TenantStore) (entityId : String)
    (profile : Option String) (scenes : List (List String)) (chunks : List String) : Prop where
  profile : ∀ text ∈ profile, ∃ row ∈ S.coreProfiles.rows, row.entityId = entityId ∧
    ∃ facts ⊆ row.profile.facts, text = Q.renderProfile { row.profile with facts := facts }
  scenes : ∀ lines ∈ scenes, ∀ line ∈ lines, ∃ e ∈ S.edges.rows,
    e.label = line ∧ e.OfEntity S entityId
  chunks : ∀ text ∈ chunks, ∃ origin, S.Shows entityId text origin

/-- The text of a row is stored under an entity. -/
def TenantStore.ShowsRow (Q : QueryEngine) (S : TenantStore) (entityId : String)
    (row : QueryResult) : Prop :=
  S.Shows entityId row.textualContent row.origin ∨
    row.origin = .synthesizedObservationBlock ∧ ∃ profile scenes chunks,
      BlockParts Q S entityId profile scenes chunks ∧ row.textualContent =
        buildObservationBlock profile (scenes.map fun lines => String.intercalate "; " lines) chunks

/-- A row is of an entity and shows what is stored under it. -/
structure ScopedRow (Q : QueryEngine) (S : TenantStore) (entityId : String) (row : QueryResult) :
    Prop where
  entity : row.entityId = entityId
  text : S.ShowsRow Q entityId row

/-! ## What an entity has to itself -/

/-- The entity touches a fact or an edge: it is one of its ends. -/
def touches (entityId subject object : String) : Prop :=
  subject = entityId ∨ object = entityId

/-- The memory identifiers of an entity are its own: no other entity has a memory, a card or a
source under one of them, and none has a fact or an edge about the entity. -/
structure Separated (owns : String → Bool) (entityId : String) (S : TenantStore) : Prop where
  memories : ∀ r ∈ S.memories.rows, r.entityId = entityId ↔ owns r.memoryId = true
  cards : ∀ card ∈ S.memoryCards.rows, (card.entityId = entityId ↔ owns card.cardId = true) ∧
    (card.entityId = entityId ↔ owns card.sourceMemoryId = true)
  facts : ∀ v ∈ S.facts.statements, (v.entityId = entityId ↔ owns v.memoryId = true) ∧
    (touches entityId v.subject v.object → v.entityId = entityId)
  edges : ∀ e ∈ S.edges.rows, touches entityId e.source e.target → owns e.memoryId = true

/-- A commit writes memories, cards and facts of an entity under its own identifiers, and those of
others under others, and none of another entity is about it. -/
structure IngestBatches.Separates (owns : String → Bool) (entityId : String) (b : IngestBatches) :
    Prop where
  observations : ∀ item ∈ b.observations, item.2.2.entityId = entityId ↔ owns item.2.1 = true
  cards : ∀ card ∈ b.memoryCardBatch, (card.entityId = entityId ↔ owns card.cardId = true) ∧
    (card.entityId = entityId ↔ owns card.sourceMemoryId = true) ∧
    (touches entityId card.subject card.object → card.entityId = entityId)
  facts : ∀ fact ∈ b.factBatch, (fact.entityId = entityId ↔ owns fact.memoryId = true) ∧
    (touches entityId fact.subject fact.object → fact.entityId = entityId)

section

variable {owns : String → Bool} {entityId : String} {S S' : TenantStore}

/-- Nothing is in a new store. -/
theorem separated_empty : Separated owns entityId TenantStore.empty where
  memories _ hr := absurd hr List.not_mem_nil
  cards _ hcard := absurd hcard List.not_mem_nil
  facts _ hv := absurd hv List.not_mem_nil
  edges _ he := absurd he List.not_mem_nil

/-! ## Queries -/

/-- Evidence is of an entity, under a source of its own, and claims what is stored under it: the
text of a memory, or the current value of the fact that is asked for. -/
structure EvidenceCard.InScope (owns : String → Bool) (entityId : String) (S : TenantStore)
    (card : EvidenceCard) : Prop where
  entity : card.entityId = entityId
  source : owns card.sourceMemoryId = true
  claim : S.HoldsText entityId card.claimText ∨ hasSyntheticTag card.sourceMemoryId = true ∧
    ∃ v ∈ S.facts.versions.rows, v.entityId = entityId ∧ v.told = card.claimText

/-- The memory that is stored under an identifier of the entity is of the entity. -/
theorem Separated.holdsText (hS : Separated owns entityId S) {x : String} (hx : owns x = true)
    {r : MemoryRow} (hr : S.memories.find? x = some r) : S.HoldsText entityId r.content := by
  obtain ⟨hmem, hid⟩ := Table.find?_eq_some.mp hr
  exact ⟨r, hmem, (hS.memories r hmem).mpr (hid ▸ hx), rfl⟩

/-- The evidence of a candidate in scope is in scope. -/
theorem Separated.scoreItem (hS : Separated owns entityId S) {Q : QueryEngine} {clock : UInt64}
    {payload : QueryPayload} {item : String × UInt64} {card : EvidenceCard}
    (hscope : S.inScope entityId item.1 = true)
    (h : scoreItem Q clock S payload item = some card) : card.InScope owns entityId S := by
  unfold Tellodb.scoreItem at h
  split at h
  · exact absurd h (by simp)
  · cases hfound : S.memories.find? item.1 with
    | none =>
      rw [hfound] at h
      exact absurd h (by simp)
    | some r =>
      rw [hfound] at h
      dsimp only at h
      split at h
      · obtain rfl := Option.some.inj h
        obtain ⟨hmem, hid⟩ := Table.find?_eq_some.mp hfound
        -- The scope check is on the row of the memory itself.
        have hentity : r.entityId = entityId := by
          unfold TenantStore.inScope at hscope
          rw [hfound] at hscope
          exact of_decide_eq_true hscope
        have hown : owns r.memoryId = true := (hS.memories r hmem).mp hentity
        refine ⟨hentity, ?_, .inl ⟨r, hmem, hentity, rfl⟩⟩
        -- The source is taken from the card, if there is one.
        change owns (r.source (S.memoryCards.find? item.1)).1 = true
        unfold MemoryRow.source
        cases hcard : S.memoryCards.find? item.1 with
        | none => exact hown
        | some c =>
          obtain ⟨hc, hcid⟩ := Table.find?_eq_some.mp hcard
          obtain ⟨hself, hsource⟩ := hS.cards c hc
          dsimp only
          split
          · exact hown
          · -- The card is of the entity, since its own identifier is.
            have hcentity := hself.mpr (by rw [hcid, ← hid]; exact hown)
            exact hsource.mp hcentity
      · exact absurd h (by simp)

/-- The identifier of a row made of a fact has the tag that says so. -/
theorem hasSyntheticTag_fact (entityId : String) :
    hasSyntheticTag (syntheticId entityId "fact") = true := by
  -- The tag of the name is written as it is, and read as that of a companion.
  have hid : syntheticId entityId "fact" =
      (MemoryId.ofTags entityId "synthetic" 0 [.syntheticQuery, .companion "fact"]).rendered := rfl
  have hcanonical : ∀ tag ∈ [Tag.syntheticQuery, .companion "fact"], tag.Canonical := by
    decide +kernel
  unfold hasSyntheticTag
  rw [hid, parse_ofTags entityId "synthetic" 0 hcanonical]
  obtain ⟨-, -, -, htags, -⟩ :=
    ofTags_parts entityId "synthetic" 0 [.syntheticQuery, .companion "fact"]
  dsimp only at htags ⊢
  rw [htags]
  rfl

/-- The evidence made of the fact that is asked for is in scope. -/
theorem factEvidence_inScope (hsynthetic : owns (syntheticId entityId "fact") = true)
    {Q : QueryEngine} {clock : UInt64} {payload : QueryPayload}
    (hentity : payload.entityId = some entityId) {card : EvidenceCard}
    (h : card ∈ factEvidence Q clock S payload) : card.InScope owns entityId S := by
  unfold factEvidence at h
  rw [hentity] at h
  split at h
  · rename_i factKey e _ he
    obtain rfl := Option.some.inj he
    split at h
    · rename_i value hvalue
      obtain rfl := List.mem_singleton.mp h
      refine ⟨rfl, hsynthetic, .inr ⟨hasSyntheticTag_fact entityId, ?_⟩⟩
      split at hvalue
      · obtain ⟨v, hv, rfl⟩ := Option.map_eq_some_iff.mp hvalue
        have hmem := (mem_orderBy _ _ _).mp (List.mem_of_getLast? hv)
        have hchain := List.mem_filter.mp (List.mem_filter.mp hmem).1
        obtain ⟨hkey, hv'⟩ := of_decide_eq_true hchain.2
        refine ⟨v, hchain.1, hv', ?_⟩
        unfold FactVersion.told
        rw [hkey]
      · exact absurd hvalue (by simp)
    · exact absurd h List.not_mem_nil
  · exact absurd h List.not_mem_nil

/-- The evidence that is selected is in scope. -/
theorem Separated.selectedEvidence (hS : Separated owns entityId S)
    (hsynthetic : owns (syntheticId entityId "fact") = true) {Q : QueryEngine} {clock : UInt64}
    {payload : QueryPayload} (hentity : payload.entityId = some entityId) {card : EvidenceCard}
    (h : card ∈ selectedEvidence Q clock S payload) : card.InScope owns entityId S := by
  have hsorted := Q.selectCandidates_subset _ _ _ _ h
  rcases List.mem_append.mp ((mem_orderBy _ _ _).mp hsorted) with hloop | hfact
  · obtain ⟨item, hitem, hcard⟩ := List.mem_filterMap.mp hloop
    unfold scoreHydrate at hitem
    rw [hentity] at hitem
    exact hS.scoreItem (List.mem_filter.mp hitem).2 hcard
  · exact factEvidence_inScope hsynthetic hentity hfact

/-- The row of evidence in scope is under a source of the entity, and shows what is stored. -/
theorem Separated.row (hS : Separated owns entityId S) {card : EvidenceCard}
    (h : card.InScope owns entityId S) :
    (card.row S).entityId = entityId ∧ owns (card.row S).memoryId = true ∧
      S.Shows entityId (card.row S).textualContent (card.row S).origin := by
  refine ⟨h.entity, h.source, ?_⟩
  have htext : S.HoldsText entityId (card.row S).textualContent ∨
      hasSyntheticTag card.sourceMemoryId = true ∧
        ∃ v ∈ S.facts.versions.rows, v.entityId = entityId ∧
          v.told = (card.row S).textualContent := by
    unfold EvidenceCard.row
    dsimp only
    cases hfound : S.memories.find? card.sourceMemoryId with
    | some r => exact .inl (hS.holdsText h.source hfound)
    | none => exact h.claim
  have horigin : (card.row S).origin =
      if hasSyntheticTag card.sourceMemoryId then .synthesizedFact else .stored := rfl
  rw [horigin]
  rcases htext with hholds | ⟨htag, hfact⟩
  · split
    · exact .inl hholds
    · exact hholds
  · rw [if_pos htag]
    exact .inr hfact

/-- The row of a card is of the entity, since the source that it is looked up by is. -/
theorem Separated.cardRow (hS : Separated owns entityId S) {rows : List QueryResult}
    (hrows : ∀ row ∈ rows, owns row.memoryId = true) {row : QueryResult}
    (h : cardRow S rows = some row) :
    row.entityId = entityId ∧ S.Shows entityId row.textualContent row.origin := by
  obtain ⟨top, htop, hcard⟩ := Option.bind_eq_some_iff.mp h
  obtain ⟨card, hfound, rfl⟩ := Option.map_eq_some_iff.mp hcard
  obtain ⟨hhead, -⟩ := Option.filter_eq_some_iff.mp htop
  obtain ⟨hcard, -⟩ := Option.filter_eq_some_iff.mp hfound
  have hfirst := (mem_orderBy _ _ _).mp (List.mem_of_head? hcard)
  obtain ⟨hmem, hsource⟩ := List.mem_filter.mp hfirst
  have hown : owns card.sourceMemoryId = true := by
    rw [of_decide_eq_true hsource]
    exact hrows top (List.mem_of_head? hhead)
  have hentity := (hS.cards card hmem).2.mpr hown
  exact ⟨hentity, card, hmem, hentity, rfl⟩

/-- Every row of the pipeline is of the entity and shows what is stored under it. -/
theorem Separated.scoreBuildResponse (hS : Separated owns entityId S)
    (hsynthetic : owns (syntheticId entityId "fact") = true) {Q : QueryEngine} {clock : UInt64}
    {payload : QueryPayload} (hentity : payload.entityId = some entityId) {row : QueryResult}
    (h : row ∈ scoreBuildResponse Q clock S payload) :
    row.entityId = entityId ∧ S.Shows entityId row.textualContent row.origin := by
  have hrows : ∀ row ∈ evidenceRows Q clock S payload, row.entityId = entityId ∧
      owns row.memoryId = true ∧ S.Shows entityId row.textualContent row.origin := by
    intro row hrow
    obtain ⟨card, hcard, rfl⟩ := List.mem_map.mp ((mem_orderBy _ _ _).mp hrow)
    exact hS.row (hS.selectedEvidence hsynthetic hentity hcard)
  have hmem := (mem_orderBy _ _ _).mp h
  cases hcard : Tellodb.cardRow S (evidenceRows Q clock S payload) with
  | none =>
    rw [hcard] at hmem
    exact ⟨(hrows row hmem).1, (hrows row hmem).2.2⟩
  | some first =>
    rw [hcard] at hmem
    rcases List.mem_cons.mp hmem with rfl | hrest
    · exact hS.cardRow (fun row hrow => (hrows row hrow).2.1) hcard
    · have hrow : row ∈ evidenceRows Q clock S payload := by
        split at hrest
        · exact List.mem_of_mem_dropLast hrest
        · exact hrest
      exact ⟨(hrows row hrow).1, (hrows row hrow).2.2⟩

/-- The observation block of the entity is made of what is stored under it. -/
theorem Separated.observationBlock (hS : Separated owns entityId S) (Q : QueryEngine)
    (payload : QueryPayload) {rows : List QueryResult}
    (hrows : ∀ row ∈ rows, S.Shows entityId row.textualContent row.origin) :
    S.ShowsRow Q entityId (observationBlock Q S payload entityId rows) := by
  refine .inr ⟨rfl, _, sceneLines Q S payload entityId, _, ?_, rfl⟩
  constructor
  -- The block shows the profile, the scene and the rows.
  · intro text htext
    obtain ⟨shown, hshown, rfl⟩ := Option.map_eq_some_iff.mp htext
    obtain ⟨row, hrow, rfl⟩ := Option.map_eq_some_iff.mp hshown
    obtain ⟨hmem, hkey⟩ := Table.find?_eq_some.mp hrow
    refine ⟨row, hmem, hkey, _, fun fact hfact => ?_, rfl⟩
    exact (List.mem_filter.mp ((mem_orderBy _ _ _).mp hfact)).1
  · intro lines hlines line hline
    obtain ⟨phrase, -, rfl⟩ := List.mem_map.mp (List.mem_filter.mp hlines).1
    obtain ⟨e, he, rfl⟩ := List.mem_map.mp hline
    obtain ⟨hmem, hselected⟩ := List.mem_filter.mp (List.mem_of_mem_take he)
    -- The edge touches the entity at one of its ends.
    have htouches : touches entityId e.source e.target := by
      have hends := (Bool.and_eq_true_iff.mp hselected).1
      rcases Bool.or_eq_true_iff.mp hends with h | h
      · exact .inl (of_decide_eq_true h)
      · exact .inr (of_decide_eq_true h)
    have hown := hS.edges e hmem htouches
    refine ⟨e, hmem, rfl, ⟨fun r hr hid => ?_, fun v hv hid => ?_⟩⟩
    · exact (hS.memories r hr).mpr (hid ▸ hown)
    · exact (hS.facts v.statement (List.mem_map_of_mem hv)).1.mpr (hid ▸ hown)
  · intro text htext
    obtain ⟨row, hrow, rfl⟩ := List.mem_map.mp htext
    exact ⟨row.origin, hrows row (List.mem_of_mem_take hrow)⟩

/-- Every row that a query about the entity is answered with is in scope. -/
theorem Separated.queryHandler (hS : Separated owns entityId S)
    (hsynthetic : owns (syntheticId entityId "fact") = true) {Q : QueryEngine} {clock : UInt64}
    {payload : QueryPayload} (hentity : payload.entityId = some entityId) {row : QueryResult}
    (h : row ∈ queryHandler Q clock S payload) : ScopedRow Q S entityId row := by
  rcases List.mem_append.mp h with hblock | hrow
  · rw [hentity] at hblock
    obtain rfl := List.mem_singleton.mp hblock
    exact ⟨rfl, hS.observationBlock Q payload fun row hrow =>
      (hS.scoreBuildResponse hsynthetic hentity hrow).2⟩
  · obtain ⟨hrowEntity, htext⟩ := hS.scoreBuildResponse hsynthetic hentity hrow
    exact ⟨hrowEntity, .inl htext⟩

/-! ## Steps -/

/-- A canonical key leaves the rest of a fact as it was. -/
theorem canonicalFact_kept (assigned : List ((String × String) × String))
    (fact : IngestFactRegistration) :
    (canonicalFact assigned fact).entityId = fact.entityId ∧
      (canonicalFact assigned fact).memoryId = fact.memoryId ∧
      (canonicalFact assigned fact).subject = fact.subject ∧
      (canonicalFact assigned fact).object = fact.object := by
  unfold canonicalFact
  split <;> exact ⟨rfl, rfl, rfl, rfl⟩

/-- Changes of `is_latest` leave the entity, the identifier and the source of a card alone. -/
theorem exists_of_updateCardLatestTx {updates : List (String × Bool × UInt64)} {card : MemoryCard}
    (h : card ∈ (updateCardLatestTx S updates).memoryCards.rows) :
    ∃ c ∈ S.memoryCards.rows, card.entityId = c.entityId ∧ card.cardId = c.cardId ∧
      card.sourceMemoryId = c.sourceMemoryId := by
  unfold updateCardLatestTx at h
  dsimp only at h
  generalize S.memoryCards = t at h ⊢
  induction updates generalizing t with
  | nil => exact ⟨card, h, rfl, rfl, rfl⟩
  | cons update updates ih =>
    obtain ⟨c, hc, hentity, hid, hsource⟩ := ih _ h
    obtain ⟨d, hd, hset⟩ := List.mem_map.mp hc
    have hkept : c.entityId = d.entityId ∧ c.cardId = d.cardId ∧
        c.sourceMemoryId = d.sourceMemoryId := by
      rw [← hset]
      unfold Assignment.on
      split <;> exact ⟨rfl, rfl, rfl⟩
    exact ⟨d, hd, hentity.trans hkept.1, hid.trans hkept.2.1, hsource.trans hkept.2.2⟩

variable {cosineSimilarity : List ℚ → List ℚ → ℚ}

/-- A commit that separates keeps the entity apart. -/
theorem Separated.commitIngest (hS : Separated owns entityId S) {order : HashOrder}
    {clock : IngestClock} {b : IngestBatches} {outcome : CommitOutcome}
    (hb : b.Separates owns entityId)
    (h : S.commitIngest cosineSimilarity order clock b = .ok (S', outcome)) :
    Separated owns entityId S' := by
  -- Canonical predicates change neither the entity nor the ends of a fact.
  have hfacts : ∀ fact ∈ S.commitFacts cosineSimilarity b,
      (fact.entityId = entityId ↔ owns fact.memoryId = true) ∧
        (touches entityId fact.subject fact.object → fact.entityId = entityId) := by
    intro fact hfact
    obtain ⟨sent, hsent, rfl⟩ := List.mem_map.mp hfact
    obtain ⟨hentity, hmemory, hsubject, hobject⟩ := canonicalFact_kept
      (canonicalizePredicatesTx cosineSimilarity b.predicateCanonTau S b.predicateCanonBatch).2 sent
    rw [hentity, hmemory, hsubject, hobject]
    exact hb.facts sent hsent
  obtain ⟨t, R, updates, hregister, hS'⟩ := commitIngest_inv h
  -- An entity's facts are under its identifiers, which is what the edges inherit.
  have hbefore : ∀ v ∈ (S.beforeFacts cosineSimilarity clock b t).facts.statements,
      v.entityId = entityId ↔ owns v.memoryId = true := fun v hv => (hS.facts v hv).1
  obtain ⟨hstatements, hedges⟩ := registerFactsTx_origin
    (P := fun e x => e = entityId ↔ owns x = true) hbefore
    (fun fact hfact => (hfacts fact hfact).1) hregister
  constructor
  -- A memory is of the batch, or it was there.
  · intro r hr
    rcases mem_memories_commitIngest h hr with ⟨item, hlast, hrow⟩ | ⟨-, old, hold, hrow⟩
    · obtain ⟨hitem, hid⟩ := mem_of_lastItem hlast
      have hentity : r.entityId = item.2.2.entityId := by
        rw [hrow]
        rfl
      rw [hentity, ← hid]
      exact hb.observations item hitem
    · have hsame : r.entityId = old.entityId ∧ r.memoryId = old.memoryId := by
        rw [hrow]
        split <;> exact ⟨rfl, rfl⟩
      rw [hsame.1, hsame.2]
      exact hS.memories old hold
  · intro card hcard
    obtain ⟨S₁, changes, hinserted, hcards⟩ := commitIngest_cards h
    rw [hcards] at hcard
    obtain ⟨c, hc, hentity, hid, hsource⟩ := exists_of_updateCardLatestTx hcard
    rw [hentity, hid, hsource]
    rw [hinserted] at hc
    rcases Table.mem_of_mem_foldl_insertOrReplace (f := id) hc with hold | ⟨d, hd, rfl⟩
    · exact hS.cards c hold
    · exact ⟨(hb.cards d hd).1, (hb.cards d hd).2.1⟩
  -- A version is stated by a fact of the batch, or it was there.
  · intro v hv
    rw [hS'] at hv
    rcases hstatements v hv with hold | ⟨fact, hfact, hstated⟩
    · exact hS.facts v hold
    · rw [hstated.entityId, hstated.memoryId, hstated.subject, hstated.object]
      exact hfacts fact hfact
  -- An edge was there, or it comes from a fact or a card of the batch.
  · intro e he htouches
    rw [hS'] at he
    rcases mem_insertCardEdgesTx he with hold | ⟨card, hcard, hsource, htarget, hmemory⟩ |
      ⟨fact, hfact, hsource, htarget, hmemory⟩
    · rcases hedges e hold with hprior | ⟨fact, hfact, hsource, htarget, hown⟩
      · exact hS.edges e hprior htouches
      · rw [hsource, htarget] at htouches
        exact hown.mp ((hfacts fact hfact).2 htouches)
    · rw [hsource, htarget] at htouches
      rw [hmemory]
      exact (hb.cards card hcard).2.1.mp ((hb.cards card hcard).2.2 htouches)
    · rw [hsource, htarget] at htouches
      rw [hmemory]
      exact (hfacts fact hfact).1.mp ((hfacts fact hfact).2 htouches)

/-- A deletion keeps the entity apart. -/
theorem Separated.deleteObservation (hS : Separated owns entityId S) (order : HashOrder)
    (now : UInt64) (memoryId reason : String) :
    Separated owns entityId (S.deleteObservation order now memoryId reason).1 := by
  obtain ⟨hparts, hcards⟩ := deleteObservation_parts order now S memoryId reason
  have hfacts := congrArg Prod.fst hparts
  have hedges := congrArg Prod.snd hparts
  dsimp only at hfacts hedges
  constructor
  · intro r hr
    exact hS.memories r ((mem_memories_deleteObservation order now S memoryId reason).mp hr).1
  · intro card hcard
    rw [hcards] at hcard
    exact hS.cards card (Table.mem_deleteWhere.mp hcard).1
  · intro v hv
    rw [hfacts, statements_deleteFacts] at hv
    exact hS.facts v (List.mem_filter.mp hv).1
  · intro e he htouches
    rw [hedges] at he
    rcases mem_edges_deleteFacts he with hold | ⟨v, hv, hsource, htarget, hmemory⟩
    · exact hS.edges e hold htouches
    · rw [hsource, htarget] at htouches
      rw [hmemory]
      exact (hS.facts v hv).1.mp ((hS.facts v hv).2 htouches)

/-! ## Runs -/

/-- The condition of a step: a commit separates the entity. -/
def StoreStep.Separates (owns : String → Bool) (entityId : String) : StoreStep → Prop
  | .commit _ _ b => b.Separates owns entityId
  | .delete _ _ _ _ => True

/-- Such a step keeps the entity apart. -/
theorem Separated.step (hS : Separated owns entityId S) {a : StoreStep}
    (ha : a.Separates owns entityId) : Separated owns entityId (S.step cosineSimilarity a) := by
  cases a with
  | delete order now memoryId reason => exact hS.deleteObservation order now memoryId reason
  | commit order clock b =>
    cases h : S.commitIngest cosineSimilarity order clock b with
    | error e =>
      rw [TenantStore.step_commit_of_error h]
      exact hS
    | ok result =>
      rw [TenantStore.step_commit_of_ok h]
      exact hS.commitIngest ha h

end

instance (entityId subject object : String) : Decidable (touches entityId subject object) :=
  inferInstanceAs (Decidable (_ ∨ _))

instance (owns : String → Bool) (entityId : String) (b : IngestBatches) :
    Decidable (b.Separates owns entityId) :=
  decidable_of_iff (_ ∧ _ ∧ _)
    ⟨fun h => ⟨h.1, h.2.1, h.2.2⟩, fun h => ⟨h.observations, h.cards, h.facts⟩⟩

instance (owns : String → Bool) (entityId : String) :
    (a : StoreStep) → Decidable (a.Separates owns entityId)
  | .commit _ _ b => inferInstanceAs (Decidable (b.Separates owns entityId))
  | .delete _ _ _ _ => .isTrue trivial

/-- A memory with its card under a source. -/
private def sourcedCommit (entityId memoryId source text : String) : StoreStep :=
  .commit .insertion ⟨1, 1, 1⟩
    { observations := [(100, memoryId, ⟨entityId, text, [], .conversational, "", none, "s1", 0, "",
        if source = memoryId then none else some source⟩)]
      memoryCardBatch := [⟨memoryId, entityId, entityId, source, "s1", 0, 100, 100, none, entityId,
        "mentions", text, text, "episode", 78 / 100, true, false, false, none, none, none, "", 100,
        100⟩] }

/-- A query engine that finds some candidates and ranks them as they come. -/
private def plainEngine (items : List (String × UInt64)) : QueryEngine where
  fusedItems _ _ := items
  planFactKey _ _ := none
  lifecycleKeeps _ _ _ := true
  finalScore _ _ _ := 0
  selectCandidates _ _ cards limit := cards.take limit
  selectCandidates_subset _ _ cards limit := List.take_subset limit cards
  namedPhrases _ := []
  renderProfile _ := ""
  factsEnabled := true

/-- A query about Alice. -/
private def aliceQuery : QueryPayload where
  textualQuery := "What was said?"
  limit := 5
  entityId := some "alice"
  enableNeuralRerank := none
  includeEvidence := none
  verifyEvidence := none
  proofMode := none
  maxEvidenceTurnsPerSession := none
  pointInTimeMs := none
  knownAsOfMs := none
  referenceTimeMs := none

end Tellodb
