import Tellodb.Facts.Commit
import Tellodb.Facts.Value
import Tellodb.Storage.Steps

/-!
# The latest flag of memory cards

A memory that states a keyed fact also gets a card, under its own identifier. The flag `isLatest` of
that card is to say whether the value of the card is the current value of the fact
(`CardState.Agree`). An ingest sets the flags of the fact it registers and of the version it
replaces, and nothing else: a statement that restates an older value keeps the flag its card was
built with, and of several cards with the value that is replaced only one is told. A deletion
rebuilds the chain and the graph but sets no flag, so the card of the version that becomes current
again stays behind (`promoted_residence`). `CardTurn` and `KeepsCards` say when an ingest and a
deletion meet none of this, and then the flags agree in every state (`cardsAgree_of_run`).

Which facts the stored cards were built from is not a column of the store. The runs here keep it
beside the store (`CardFact`). -/

namespace Tellodb

open Relational FactTables

/-- The card of a memory that states a fact. -/
structure CardFact where
  cardId : String
  entityId : String
  factKey : String
  deriving DecidableEq

/-- The card of a registered fact is that of its memory. -/
def IngestFactRegistration.cardFact (fact : IngestFactRegistration) : CardFact :=
  ⟨fact.memoryId, fact.entityId, fact.factKey⟩

/-- The object states the current value of the fact. -/
def FactTables.isCurrentValue (T : FactTables) (entityId factKey object : String) : Bool :=
  (T.getCurrentFactValue entityId factKey).any fun value =>
    normalizeFactObject value = normalizeFactObject object

/-- The facts, the cards, and what the cards were built from. -/
structure CardState where
  facts : FactTables
  cards : Table MemoryCard.cardId
  built : List CardFact

/-- A card built from a fact is the latest exactly if it states the current value of the fact. -/
def CardState.Agree (s : CardState) : Prop :=
  ∀ link ∈ s.built, ∀ card ∈ s.cards.rows, card.cardId = link.cardId →
    card.isLatest = s.facts.isCurrentValue link.entityId link.factKey card.object

instance (s : CardState) : Decidable s.Agree :=
  inferInstanceAs (Decidable (∀ link ∈ s.built, ∀ card ∈ s.cards.rows, card.cardId = link.cardId →
    card.isLatest = s.facts.isCurrentValue link.entityId link.factKey card.object))

/-! ## The flags an ingest sets -/

/-- The changes of `is_latest` that a registration makes. -/
def cardUpdates (recordedAt : UInt64) (T : FactTables) (fact : IngestFactRegistration) :
    List (String × Bool × UInt64) :=
  if T.restates fact.entityId fact.registration then []
  else if T.hasLater fact.entityId recordedAt fact.registration then
    [(fact.memoryId, false, fact.timestamp)]
  else ((T.replaced fact.entityId fact.registration).map fun p =>
    (p.1, false, fact.timestamp)).toList ++ [(fact.memoryId, true, fact.timestamp)]

/-- The status that is reported asks for these changes. -/
theorem latestUpdates_eq {recordedAt : UInt64} {T : FactTables} {fact : IngestFactRegistration}
    {status : FactVersionStatus}
    (h : T.Reports fact.entityId recordedAt fact.registration status) :
    latestUpdates status fact = cardUpdates recordedAt T fact := by
  unfold cardUpdates
  cases h with
  | confirmed _ hrestates => rw [hrestates, if_pos rfl]; rfl
  | current hrestates hlater =>
    rw [hrestates, hlater, if_neg Bool.false_ne_true, if_neg Bool.false_ne_true]
    cases T.replaced fact.entityId fact.registration <;> rfl
  | stale _ hrestates hlater =>
    rw [hrestates, hlater, if_neg Bool.false_ne_true, if_pos rfl]
    rfl

/-- The cards after changes of `is_latest`. -/
def updatedCards (t : Table MemoryCard.cardId) (updates : List (String × Bool × UInt64)) :
    Table MemoryCard.cardId :=
  updates.foldl (fun t update =>
    t.updateWhere (fun card => card.cardId = update.1) (setLatest update.2.1 update.2.2)) t

/-- The flag that a list of changes leaves on a card. -/
def toldFlag (updates : List (String × Bool × UInt64)) (cardId : String) (flag : Bool) : Bool :=
  updates.foldl (fun flag update => if cardId = update.1 then update.2.1 else flag) flag

/-- Changes of `is_latest` change the flags, and no card's identifier or value. -/
theorem exists_of_updatedCards {t : Table MemoryCard.cardId}
    {updates : List (String × Bool × UInt64)} {card : MemoryCard}
    (h : card ∈ (updatedCards t updates).rows) :
    ∃ c ∈ t.rows, card.cardId = c.cardId ∧ card.object = c.object ∧
      card.isLatest = toldFlag updates c.cardId c.isLatest := by
  unfold updatedCards toldFlag at *
  induction updates generalizing t with
  | nil => exact ⟨card, h, rfl, rfl, rfl⟩
  | cons update updates ih =>
    obtain ⟨c, hc, hid, hobject, hflag⟩ := ih h
    obtain ⟨d, hd, rfl⟩ := List.mem_map.mp hc
    refine ⟨d, hd, ?_⟩
    rw [List.foldl_cons]
    -- One change applies to the card or leaves it alone.
    unfold Assignment.on at hid hobject hflag
    by_cases hcard : d.cardId = update.1
    · rw [if_pos (by simpa using hcard)] at hid hobject hflag
      rw [if_pos hcard]
      exact ⟨hid, hobject, hflag⟩
    · rw [if_neg (by simpa using hcard)] at hid hobject hflag
      rw [if_neg hcard]
      exact ⟨hid, hobject, hflag⟩

/-! ## One fact -/

/-- The cards built from facts, with that of one more fact, if its memory has a card in the
batch. -/
def CardState.builtWith (batchIds : List String) (s : CardState) (fact : IngestFactRegistration) :
    List CardFact :=
  if fact.memoryId ∈ batchIds then s.built ++ [fact.cardFact] else s.built

/-- One fact of an ingest, on the facts and the cards. -/
def CardState.registered (batchIds : List String) (recordedAt : UInt64) (s : CardState)
    (fact : IngestFactRegistration) : CardState where
  facts := registeredIngest recordedAt s.facts fact
  cards := updatedCards s.cards (cardUpdates recordedAt s.facts fact)
  built := s.builtWith batchIds fact

/-- A card is told what it has to know when a fact is placed after all others: it is the fact's own
and states its value, or it is that of the version it replaces and does not, or it states the value
that goes exactly if it states the one that comes. -/
def ToldLatest (T : FactTables) (fact : IngestFactRegistration) (link : CardFact)
    (card : MemoryCard) : Prop :=
  if link.cardId = fact.memoryId then
    link = fact.cardFact ∧ normalizeFactObject card.object = normalizeFactObject fact.object
  else if (T.replaced fact.entityId fact.registration).any fun p => p.1 = link.cardId then
    (link.entityId = fact.entityId ∧ link.factKey = fact.factKey) ∧
      normalizeFactObject card.object ≠ normalizeFactObject fact.object
  else link.entityId = fact.entityId ∧ link.factKey = fact.factKey →
    (T.isCurrentValue fact.entityId fact.factKey card.object = true ↔
      normalizeFactObject card.object = normalizeFactObject fact.object)

instance (T : FactTables) (fact : IngestFactRegistration) (link : CardFact) (card : MemoryCard) :
    Decidable (ToldLatest T fact link card) := by
  unfold ToldLatest
  infer_instance

/-- The condition on a fact, in the state in which it is registered. -/
structure CardTurn (batchIds : List String) (recordedAt : UInt64) (s : CardState)
    (fact : IngestFactRegistration) : Prop where
  /-- It restates, or the version stored under its key and memory states the same. -/
  stored : s.facts.restates fact.entityId fact.registration = true ∨
    ∀ v ∈ s.facts.versions.rows, v.primaryKey = (fact.factKey, fact.memoryId) →
      v.entityId = fact.entityId ∧ v.timestampMs = fact.timestamp.toInt64 ∧
        normalizeFactObject v.object = normalizeFactObject fact.object
  /-- If it restates, then the current value, and its card has the flag it was built with. -/
  confirmed : s.facts.restates fact.entityId fact.registration = true →
    fact.memoryId ∈ batchIds → ∀ card ∈ s.cards.rows, card.cardId = fact.memoryId →
      card.isLatest = true ∧
        s.facts.isCurrentValue fact.entityId fact.factKey card.object = true
  /-- If it is placed before another version, its card does not state the current value. -/
  backdated : s.facts.restates fact.entityId fact.registration = false →
    s.facts.hasLater fact.entityId recordedAt fact.registration = true →
      ∀ link ∈ s.builtWith batchIds fact, link.cardId = fact.memoryId →
        ∀ card ∈ s.cards.rows, card.cardId = link.cardId →
          s.facts.isCurrentValue link.entityId link.factKey card.object = false
  /-- If it is placed after all others, every card is told what it has to know. -/
  latest : s.facts.restates fact.entityId fact.registration = false →
    s.facts.hasLater fact.entityId recordedAt fact.registration = false →
      ∀ link ∈ s.builtWith batchIds fact, ∀ card ∈ s.cards.rows, card.cardId = link.cardId →
        ToldLatest s.facts fact link card

set_option synthInstance.maxSize 512 in
instance (batchIds : List String) (recordedAt : UInt64) (s : CardState)
    (fact : IngestFactRegistration) : Decidable (CardTurn batchIds recordedAt s fact) :=
  decidable_of_iff
    ((s.facts.restates fact.entityId fact.registration = true ∨
      ∀ v ∈ s.facts.versions.rows, v.primaryKey = (fact.factKey, fact.memoryId) →
        v.entityId = fact.entityId ∧ v.timestampMs = fact.timestamp.toInt64 ∧
          normalizeFactObject v.object = normalizeFactObject fact.object) ∧
    (s.facts.restates fact.entityId fact.registration = true →
      fact.memoryId ∈ batchIds → ∀ card ∈ s.cards.rows, card.cardId = fact.memoryId →
        card.isLatest = true ∧
          s.facts.isCurrentValue fact.entityId fact.factKey card.object = true) ∧
    (s.facts.restates fact.entityId fact.registration = false →
      s.facts.hasLater fact.entityId recordedAt fact.registration = true →
        ∀ link ∈ s.builtWith batchIds fact, link.cardId = fact.memoryId →
          ∀ card ∈ s.cards.rows, card.cardId = link.cardId →
            s.facts.isCurrentValue link.entityId link.factKey card.object = false) ∧
    (s.facts.restates fact.entityId fact.registration = false →
      s.facts.hasLater fact.entityId recordedAt fact.registration = false →
        ∀ link ∈ s.builtWith batchIds fact, ∀ card ∈ s.cards.rows, card.cardId = link.cardId →
          ToldLatest s.facts fact link card))
    ⟨fun h => ⟨h.1, h.2.1, h.2.2.1, h.2.2.2⟩,
      fun h => ⟨h.stored, h.confirmed, h.backdated, h.latest⟩⟩

section Fact

variable {batchIds : List String} {recordedAt : UInt64} {s : CardState}
  {fact : IngestFactRegistration}

/-- A fact under the condition is admitted. -/
theorem CardTurn.admits (h : CardTurn batchIds recordedAt s fact) : s.facts.Admits fact :=
  h.stored.imp id fun hstored v hv hkey => ⟨(hstored v hv hkey).1, (hstored v hv hkey).2.1⟩

/-- A fact that brings no new current value leaves what the cards are compared with alone. -/
theorem CardTurn.isCurrentValue_of_kept (hT : Chained s.facts)
    (h : CardTurn batchIds recordedAt s fact) {entityId factKey : String}
    (hkept : s.facts.restates fact.entityId fact.registration = true ∨
      s.facts.hasLater fact.entityId recordedAt fact.registration = true ∨
      ¬ (factKey = fact.factKey ∧ entityId = fact.entityId)) (object : String) :
    (registeredIngest recordedAt s.facts fact).isCurrentValue entityId factKey object =
      s.facts.isCurrentValue entityId factKey object := by
  have hvalue : (registeredIngest recordedAt s.facts fact).getCurrentFactValue entityId factKey =
      s.facts.getCurrentFactValue entityId factKey := currentValue_of_kept hT h.admits hkept
  unfold FactTables.isCurrentValue
  rw [hvalue]

/-- A fact placed after all others brings its value. -/
theorem CardTurn.isCurrentValue_of_last (hT : Chained s.facts)
    (h : CardTurn batchIds recordedAt s fact)
    (hr : s.facts.restates fact.entityId fact.registration = false)
    (hlater : s.facts.hasLater fact.entityId recordedAt fact.registration = false)
    (object : String) :
    (registeredIngest recordedAt s.facts fact).isCurrentValue fact.entityId fact.factKey object =
      decide (normalizeFactObject object = normalizeFactObject fact.object) := by
  have hagrees : s.facts.Agrees fact.entityId fact.registration :=
    h.admits.resolve_left (by simp [hr])
  -- The value that is in force is the one stated last.
  obtain ⟨n, hn, hvalue⟩ := currentValue_of_last hT hr hagrees hlater
  have hobject : normalizeFactObject n.object = normalizeFactObject fact.object := by
    have hstored := h.stored.resolve_left (by simp [hr])
    obtain ⟨hmem, hkey⟩ := Table.find?_eq_some.mp hn
    -- A row with the key of the fact states its value, whether it was there or is the new one.
    rcases s.facts.inserted_cases fact.entityId recordedAt fact.registration with
      ⟨-, -, -, hsame⟩ | ⟨-, hrows⟩
    · exact (hstored n (hsame ▸ hmem) hkey).2.2
    · rw [hrows] at hmem
      rcases List.mem_append.mp hmem with hmem | hmem
      · exact (hstored n hmem hkey).2.2
      · rw [List.mem_singleton.mp hmem]
        rfl
  have hvalue : (registeredIngest recordedAt s.facts fact).getCurrentFactValue fact.entityId
      fact.factKey = some n.object := hvalue
  unfold FactTables.isCurrentValue
  rw [hvalue, Option.any_some, hobject]
  exact decide_eq_decide.mpr eq_comm

/-- A link to a card of the batch is new, or was there. -/
theorem mem_builtWith {link : CardFact} (h : link ∈ s.builtWith batchIds fact) :
    link ∈ s.built ∨ (fact.memoryId ∈ batchIds ∧ link = fact.cardFact) := by
  unfold CardState.builtWith at h
  split at h
  · rename_i hid
    rcases List.mem_append.mp h with h | h
    · exact .inl h
    · exact .inr ⟨hid, List.mem_singleton.mp h⟩
  · exact .inl h

/-- A fact under the condition keeps the flags right. -/
theorem CardState.Agree.registered (hT : Chained s.facts) (hs : s.Agree)
    (h : CardTurn batchIds recordedAt s fact) : (s.registered batchIds recordedAt fact).Agree := by
  intro link hlink card hcard hid
  obtain ⟨c, hc, hcid, hobject, hflag⟩ := exists_of_updatedCards hcard
  rw [hcid] at hid
  rw [hflag, hobject, hid]
  change toldFlag (cardUpdates recordedAt s.facts fact) link.cardId c.isLatest =
    (registeredIngest recordedAt s.facts fact).isCurrentValue link.entityId link.factKey c.object
  cases hr : s.facts.restates fact.entityId fact.registration with
  | true =>
    -- No flag is set.
    rw [h.isCurrentValue_of_kept hT (.inl hr)]
    unfold cardUpdates toldFlag
    rw [hr, if_pos rfl, List.foldl_nil]
    rcases mem_builtWith hlink with hold | ⟨hbatch, rfl⟩
    · exact hs link hold c hc hid
    · obtain ⟨hlatest, hcurrent⟩ := h.confirmed hr hbatch c hc hid
      exact hlatest.trans hcurrent.symm
  | false =>
    cases hlater : s.facts.hasLater fact.entityId recordedAt fact.registration with
    | true =>
      -- The card of the fact is told that it is not the latest.
      rw [h.isCurrentValue_of_kept hT (.inr (.inl hlater))]
      unfold cardUpdates toldFlag
      rw [hr, hlater, if_neg Bool.false_ne_true, if_pos rfl, List.foldl_cons, List.foldl_nil]
      by_cases hown : link.cardId = fact.memoryId
      · rw [if_pos hown]
        exact (h.backdated hr hlater link hlink hown c hc hid).symm
      · rw [if_neg hown]
        rcases mem_builtWith hlink with hold | ⟨-, rfl⟩
        · exact hs link hold c hc hid
        · exact absurd rfl hown
    | false =>
      have htold := h.latest hr hlater link hlink c hc hid
      unfold ToldLatest at htold
      unfold cardUpdates toldFlag
      rw [hr, hlater, if_neg Bool.false_ne_true, if_neg Bool.false_ne_true, List.foldl_append,
        List.foldl_cons, List.foldl_nil]
      by_cases hown : link.cardId = fact.memoryId
      · -- Its own card is told last.
        rw [if_pos hown] at htold ⊢
        obtain ⟨rfl, hstates⟩ := htold
        rw [show fact.cardFact.entityId = fact.entityId from rfl,
          show fact.cardFact.factKey = fact.factKey from rfl,
          h.isCurrentValue_of_last hT hr hlater, hstates, decide_eq_true rfl]
      · rw [if_neg hown] at htold ⊢
        have hold : link ∈ s.built := (mem_builtWith hlink).resolve_right fun hnew =>
          hown (by rw [hnew.2]; rfl)
        have hbefore := hs link hold c hc hid
        -- A card that is told nothing, and need not be.
        have huntold (hsame : link.entityId = fact.entityId ∧ link.factKey = fact.factKey →
            (s.facts.isCurrentValue fact.entityId fact.factKey c.object = true ↔
              normalizeFactObject c.object = normalizeFactObject fact.object)) :
            c.isLatest = (registeredIngest recordedAt s.facts fact).isCurrentValue link.entityId
              link.factKey c.object := by
          by_cases hfact : link.entityId = fact.entityId ∧ link.factKey = fact.factKey
          · rw [hfact.1, hfact.2] at hbefore ⊢
            rw [h.isCurrentValue_of_last hT hr hlater, hbefore, Bool.eq_iff_iff,
              decide_eq_true_iff]
            exact hsame hfact
          · rw [h.isCurrentValue_of_kept hT (.inr (.inr fun hsame => hfact hsame.symm))]
            exact hbefore
        cases hreplaced : s.facts.replaced fact.entityId fact.registration with
        | none =>
          rw [hreplaced, Option.any_none, if_neg Bool.false_ne_true] at htold
          exact huntold htold
        | some p =>
          rw [hreplaced, Option.any_some] at htold
          rw [Option.map_some, Option.toList_some, List.foldl_cons, List.foldl_nil]
          by_cases hold : link.cardId = p.1
          · rw [if_pos (decide_eq_true hold.symm)] at htold
            rw [if_pos hold, htold.1.1, htold.1.2, h.isCurrentValue_of_last hT hr hlater]
            exact (decide_eq_false htold.2).symm
          · rw [if_neg (by simpa using Ne.symm hold)] at htold
            rw [if_neg hold]
            exact huntold htold

end Fact

/-- The facts of an ingest, one after another. -/
theorem reported_cardState {batchIds : List String} {recordedAt : UInt64} {T T' : FactTables}
    {outcomes : List (FactVersionStatus × IngestFactRegistration)}
    (hrun : Reported recordedAt T outcomes T') (t : Table MemoryCard.cardId)
    (built : List CardFact) :
    (outcomes.map Prod.snd).foldl (CardState.registered batchIds recordedAt) ⟨T, t, built⟩ =
      { facts := T'
        cards := updatedCards t (outcomes.flatMap fun x => latestUpdates x.1 x.2)
        built := built ++ ((outcomes.map Prod.snd).filter fun fact =>
          fact.memoryId ∈ batchIds).map IngestFactRegistration.cardFact } := by
  induction hrun generalizing t built with
  | nil T => simp [updatedCards]
  | @cons T T' status fact rest hstatus _ ih =>
    rw [List.map_cons, List.foldl_cons]
    unfold CardState.registered
    rw [← latestUpdates_eq hstatus]
    refine (ih _ _).trans ?_
    rw [List.flatMap_cons]
    unfold updatedCards CardState.builtWith
    rw [List.foldl_append]
    by_cases hid : fact.memoryId ∈ batchIds
    · rw [if_pos hid, List.filter_cons_of_pos (by simpa using hid), List.map_cons,
        List.append_assoc, List.singleton_append]
    · rw [if_neg hid, List.filter_cons_of_neg (by simpa using hid)]

/-! ## Runs -/

/-- The store, and the facts its cards were built from. -/
structure BuiltStore where
  store : TenantStore
  built : List CardFact

/-- A new store. -/
def BuiltStore.empty : BuiltStore := ⟨TenantStore.empty, []⟩

/-- The part of the store that the flags are about. -/
def BuiltStore.cardState (W : BuiltStore) : CardState :=
  ⟨W.store.facts, W.store.memoryCards, W.built⟩

section Runs

variable (cosineSimilarity : List ℚ → List ℚ → ℚ)

/-- The facts and cards of a commit before the facts are registered: the cards of the batch are in
place of those they replace. -/
def BuiltStore.withCards (W : BuiltStore) (b : IngestBatches) : CardState where
  facts := W.store.facts
  cards := (insertCardsTx W.store b.memoryCardBatch).memoryCards
  built := W.built.filter fun link => link.cardId ∉ b.memoryCardBatch.map MemoryCard.cardId

/-- A transaction. A commit builds the cards of its batch, each from the facts that the batch has
for its memory. -/
def BuiltStore.step (W : BuiltStore) (a : StoreStep) : BuiltStore where
  store := W.store.step cosineSimilarity a
  built := match a with
    | .commit order clock b =>
      match W.store.commitIngest cosineSimilarity order clock b with
      | .ok _ => (W.withCards b).built ++
          ((orderedFacts order (W.store.commitFacts cosineSimilarity b)).filter fun fact =>
            fact.memoryId ∈ b.memoryCardBatch.map MemoryCard.cardId).map
              IngestFactRegistration.cardFact
      | .error _ => W.built
    | .delete .. => W.built

/-- The condition of a step. -/
def KeepsCards (W : BuiltStore) : StoreStep → Prop
  | .commit order clock b =>
    b.memoryCardLatestUpdates = [] ∧
      EachStep
        (CardState.registered (b.memoryCardBatch.map MemoryCard.cardId) clock.facts)
        (CardTurn (b.memoryCardBatch.map MemoryCard.cardId) clock.facts) (W.withCards b)
        (orderedFacts order (W.store.commitFacts cosineSimilarity b))
  | .delete _ _ memoryId _ =>
    -- A card that stays states the value that goes exactly if it states the one that comes.
    ∀ link ∈ W.built, ∀ card ∈ W.store.memoryCards.rows, card.cardId = link.cardId →
      card.sourceMemoryId ≠ memoryId → isOf memoryId card.cardId = false →
        W.store.facts.isCurrentValue link.entityId link.factKey card.object =
          (((W.store.facts.without memoryId).timeline link.factKey
            link.entityId).getLast?).any fun v =>
              normalizeFactObject v.object = normalizeFactObject card.object

instance (W : BuiltStore) : (a : StoreStep) → Decidable (KeepsCards cosineSimilarity W a)
  | .commit order clock b => inferInstanceAs (Decidable (b.memoryCardLatestUpdates = [] ∧
      EachStep
        (CardState.registered (b.memoryCardBatch.map MemoryCard.cardId) clock.facts)
        (CardTurn (b.memoryCardBatch.map MemoryCard.cardId) clock.facts) (W.withCards b)
        (orderedFacts order (W.store.commitFacts cosineSimilarity b))))
  | .delete _ _ memoryId _ => inferInstanceAs (Decidable
      (∀ link ∈ W.built, ∀ card ∈ W.store.memoryCards.rows, card.cardId = link.cardId →
        card.sourceMemoryId ≠ memoryId → isOf memoryId card.cardId = false →
          W.store.facts.isCurrentValue link.entityId link.factKey card.object =
            (((W.store.facts.without memoryId).timeline link.factKey
              link.entityId).getLast?).any fun v =>
                normalizeFactObject v.object = normalizeFactObject card.object))

variable {cosineSimilarity} {W : BuiltStore}

/-- The cards of a batch replace those with their identifiers and leave the others. -/
theorem CardState.Agree.withCards (h : W.cardState.Agree) (b : IngestBatches) :
    (W.withCards b).Agree := by
  intro link hlink card hcard hid
  obtain ⟨hlink, hnot⟩ := List.mem_filter.mp hlink
  have hold : ∀ (cards : List MemoryCard) (t : Table MemoryCard.cardId),
      card ∈ (cards.foldl Table.insertOrReplace t).rows →
        card ∈ t.rows ∨ card.cardId ∈ cards.map MemoryCard.cardId := by
    intro cards
    induction cards with
    | nil => exact fun t ht => .inl ht
    | cons c cards ih =>
      intro t ht
      rcases ih _ ht with ht | ht
      · rcases Table.mem_insertOrReplace.mp ht with ht | rfl
        · exact .inl ht.1
        · exact .inr (by simp)
      · exact .inr (List.mem_cons_of_mem _ ht)
  refine h link hlink card ((hold _ _ hcard).resolve_right fun hbatch => ?_) hid
  rw [hid] at hbatch
  simp [hbatch] at hnot

/-- A commit under the condition keeps chains and flags right. -/
theorem CardState.Agree.commitIngest {order : HashOrder} {clock : IngestClock}
    {b : IngestBatches} {S' : TenantStore} {outcome : CommitOutcome} (hW : Chained W.store.facts)
    (h : W.cardState.Agree)
    (hcommit : W.store.commitIngest cosineSimilarity order clock b = .ok (S', outcome))
    (hcondition : KeepsCards cosineSimilarity W (.commit order clock b)) :
    Chained (W.step cosineSimilarity (.commit order clock b)).store.facts ∧
      (W.step cosineSimilarity (.commit order clock b)).cardState.Agree := by
  obtain ⟨hupdates, hturns⟩ := hcondition
  have hadmits : W.store.facts.AdmitsAll clock.facts
      (orderedFacts order (W.store.commitFacts cosineSimilarity b)) :=
    -- The condition admits the facts turn by turn.
    hturns.of_part CardState.facts (fun _ _ => rfl) fun _ _ hturn => hturn.admits
  obtain ⟨outcomes, hfacts, hrun, -, hcards⟩ := commitIngest_reported hW hcommit hadmits
  -- One turn keeps the chains and the agreement of the cards.
  have hstep : ∀ (s : CardState) (fact : IngestFactRegistration),
      Chained s.facts ∧ s.Agree →
      CardTurn (b.memoryCardBatch.map MemoryCard.cardId) clock.facts s fact →
      Chained (registeredIngest clock.facts s.facts fact) ∧
        (s.registered (b.memoryCardBatch.map MemoryCard.cardId) clock.facts fact).Agree :=
    fun s fact hs hturn => ⟨hs.1.registeredFact hturn.admits, hs.2.registered hs.1 hturn⟩
  have hfinal := hturns.invariant (I := fun s => Chained s.facts ∧ s.Agree) hstep
    ⟨hW, h.withCards b⟩
  -- The state that the commit leaves is that after the turns.
  have hstate : (W.step cosineSimilarity (.commit order clock b)).cardState =
      (orderedFacts order (W.store.commitFacts cosineSimilarity b)).foldl
        (CardState.registered (b.memoryCardBatch.map MemoryCard.cardId) clock.facts)
          (W.withCards b) := by
    rw [hupdates, List.nil_append] at hcards
    rw [← hfacts]
    refine Eq.trans ?_ (reported_cardState hrun _ _).symm
    unfold BuiltStore.cardState BuiltStore.step
    simp only [TenantStore.step_commit_of_ok hcommit, hcommit, hcards, hfacts]
    rfl
  rw [← hstate] at hfinal
  exact hfinal

/-- A deletion under the condition keeps chains and flags right. -/
theorem CardState.Agree.deleteObservation {order : HashOrder} {now : UInt64}
    {memoryId reason : String} (hW : Chained W.store.facts) (h : W.cardState.Agree)
    (hcondition : KeepsCards cosineSimilarity W (.delete order now memoryId reason)) :
    Chained (W.step cosineSimilarity (.delete order now memoryId reason)).store.facts ∧
      (W.step cosineSimilarity (.delete order now memoryId reason)).cardState.Agree := by
  obtain ⟨hfacts, hcards⟩ := deleteObservation_parts order now W.store memoryId reason
  have hfacts : (W.store.deleteObservation order now memoryId reason).1.facts =
      (deleteFacts memoryId W.store.facts W.store.edges).1 := congrArg Prod.fst hfacts
  constructor
  · exact hfacts ▸ hW.deleteFacts W.store.edges memoryId
  · intro link hlink card hcard hid
    change card ∈ (W.store.deleteObservation order now memoryId reason).1.memoryCards.rows at hcard
    rw [hcards, Table.mem_deleteWhere, Bool.or_eq_false_iff] at hcard
    obtain ⟨hcard, hsource, hof⟩ := hcard
    rw [h link hlink card hcard hid]
    refine (hcondition link hlink card hcard hid (of_decide_eq_false hsource) hof).trans ?_
    change _ = FactTables.isCurrentValue (W.store.deleteObservation order now memoryId
      reason).1.facts link.entityId link.factKey card.object
    unfold FactTables.isCurrentValue
    rw [hfacts, currentValue_deleteFacts hW, Option.any_map]

/-- As long as every step meets the condition, the flags agree in every state of a run. -/
theorem cardsAgree_of_run {steps : List StoreStep}
    (h : EachStep (BuiltStore.step cosineSimilarity) (KeepsCards cosineSimilarity)
      BuiltStore.empty steps) :
    (steps.foldl (BuiltStore.step cosineSimilarity) BuiltStore.empty).cardState.Agree := by
  refine (h.invariant (I := fun W => Chained W.store.facts ∧ W.cardState.Agree) ?_
    ⟨chained_empty, fun _ hlink => absurd hlink List.not_mem_nil⟩).2
  rintro W (⟨order, clock, b⟩ | ⟨order, now, memoryId, reason⟩) ⟨hW, hagree⟩ hcondition
  · cases hcommit : W.store.commitIngest cosineSimilarity order clock b with
    | ok result => exact hagree.commitIngest hW hcommit hcondition
    | error e =>
      unfold BuiltStore.step
      simp only [TenantStore.step_commit_of_error hcommit, hcommit]
      exact ⟨hW, hagree⟩
  · exact hagree.deleteObservation hW hcondition

end Runs

/-- The card of a memory that states where alice lives. -/
private def residenceCard (memoryId object : String) (timestamp : UInt64) : MemoryCard where
  cardId := memoryId
  entityId := "alice"
  userId := "alice"
  sourceMemoryId := memoryId
  sourceSessionId := ""
  sourceTurnIndex := 0
  documentTime := timestamp
  conversationTime := timestamp
  eventTime := none
  subject := "alice"
  predicate := "lives_in"
  object := object
  memoryText := object
  cardType := "fact"
  confidence := 1
  isLatest := true
  isStatic := false
  isInference := false
  expiresAt := none
  rootCardId := none
  parentCardId := none
  lifecycle := ""
  createdAtMs := timestamp
  updatedAtMs := timestamp

/-- The ingest of that memory: its card and its fact. -/
private def residenceCommit (timestamp : UInt64) (memoryId object : String) : StoreStep :=
  .commit .insertion ⟨timestamp, timestamp, timestamp⟩
    { memoryCardBatch := [residenceCard memoryId object timestamp]
      factBatch := [⟨"alice", "residence", timestamp, memoryId, "alice", "lives_in", object⟩] }

/-- The theorem at Austin, then Boston, and the deletion of Austin. -/
theorem cardsAgree_of_run_residence :
    ([residenceCommit 100 "m1" "Austin", residenceCommit 200 "m2" "Boston",
      .delete .insertion 300 "m1" ""].foldl (BuiltStore.step fun _ _ => 0)
        BuiltStore.empty).cardState.Agree :=
  cardsAgree_of_run (by decide +kernel)

/-- Austin, then Boston, and the deletion of Boston: Austin is current again, and its card is not
the latest. -/
theorem promoted_residence :
    let W := [residenceCommit 100 "m1" "Austin", residenceCommit 200 "m2" "Boston",
      .delete .insertion 300 "m2" ""].foldl (BuiltStore.step fun _ _ => 0) BuiltStore.empty
    W.store.facts.getCurrentFactValue "alice" "residence" = some "Austin" ∧
      (W.store.memoryCards.find? "m1").map MemoryCard.isLatest = some false ∧
      ¬ W.cardState.Agree := by
  decide +kernel

end Tellodb
