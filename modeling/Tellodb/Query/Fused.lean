import Tellodb.Collections.Tally
import Tellodb.Storage.Tenant
import Mathlib.Algebra.Field.Rat
import Mathlib.Algebra.BigOperators.Group.List.Basic
import Mathlib.Algebra.Order.Ring.Rat

/-!
# Fused lanes

`rrf_fuse` of `retrieval/mod.rs`, with exact scores. Each lane lists ids with scores. The lanes are
ranked one by one, an id gets `1 / (c + rank)` from each lane that lists it, and the sums are ranked
again. The lanes are made from hash maps, and so is the list of sums; the result depends on what the
lanes list only, not on an order in which they or their entries come (`rrfFuse_exact`). -/

namespace Tellodb

open Collections Relational

/-- The order of the two sorts of `rrf_fuse`: the score descending, then the id. -/
def scoredKey (e : String × ℚ) : ℚᵒᵈ ×ₗ String := toLex (OrderDual.toDual e.2, e.1)

/-- What the ranks of a lane give to the ids that it lists. -/
def laneScores (c : ℚ) (lane : List (String × ℚ)) : List (String × ℚ) :=
  (orderBy scoredKey lane).zipIdx.map fun entry =>
    let r : ℚ := (entry.2 + 1 : ℕ)
    (entry.1.1, 1 / (c + r))

/-- `rrf_fuse`, with the order in which the map of the scores is iterated. -/
def rrfFuse (order : HashOrder) (lanes : List (List (String × ℚ))) (c : ℚ) : List (String × ℚ) :=
  let scores := lanes.foldl (fun scores lane => (laneScores c lane).foldl tallyStep scores) []
  orderBy scoredKey (order.iterate scores)

/-! ## Ranks -/

/-- An entry is ranked before another one: its score is larger, or it is the same and the id is
smaller. -/
def Outranks (d e : String × ℚ) : Prop := e.2 < d.2 ∨ d.2 = e.2 ∧ d.1 < e.1

instance (d e : String × ℚ) : Decidable (Outranks d e) :=
  inferInstanceAs (Decidable (e.2 < d.2 ∨ d.2 = e.2 ∧ d.1 < e.1))

/-- The rank of an entry in a lane, from one on. -/
def laneRank (lane : List (String × ℚ)) (e : String × ℚ) : ℕ :=
  (lane.filter fun d => Outranks d e).length + 1

/-- What a lane gives to an id. -/
def laneShare (c : ℚ) (id : String) (lane : List (String × ℚ)) : ℚ :=
  (lane.find? fun e => e.1 = id).elim 0 fun e => 1 / (c + laneRank lane e)

/-- The key orders the items by score and then by id. -/
theorem scoredKey_lt_iff {d e : String × ℚ} : scoredKey d < scoredKey e ↔ Outranks d e := by
  unfold scoredKey Outranks
  rw [Prod.Lex.toLex_lt_toLex, OrderDual.toDual_lt_toDual, OrderDual.toDual_inj]

/-- An item is known by its key. -/
theorem scoredKey_injective : Function.Injective scoredKey := by
  intro d e h
  obtain ⟨hscore, hid⟩ := Prod.mk.inj (toLex_inj.mp h)
  exact Prod.ext hid (OrderDual.toDual_inj.mp hscore)

/-- A list without repetition has distinct keys. -/
theorem keyed_scoredKey {l : List (String × ℚ)} (h : l.Nodup) : Keyed scoredKey l :=
  h.map scoredKey_injective

/-! ## The shares -/

/-- The entries of a lane, each with what its rank gives. -/
def shares (c : ℚ) (lane : List (String × ℚ)) : List (String × ℚ) :=
  lane.map fun e => (e.1, 1 / (c + laneRank lane e))

/-- What the ranks give, as the sorted lane has it, is what the entries get. -/
theorem perm_shares (c : ℚ) {lane : List (String × ℚ)} (h : lane.Nodup) :
    (laneScores c lane).Perm (shares c lane) := by
  have hscores : laneScores c lane =
      (orderBy scoredKey lane).map fun e => (e.1, 1 / (c + laneRank lane e)) := by
    unfold laneScores
    rw [(keyed_scoredKey h).zipIdx_orderBy, List.map_map]
    refine List.map_congr_left fun e _ => ?_
    unfold laneRank
    simp only [Function.comp_apply, scoredKey_lt_iff]
  rw [hscores]
  exact (orderBy_perm _ _).map _

/-- The rank in a lane depends on what it lists only. -/
theorem laneRank_congr {lane lane' : List (String × ℚ)} (h : lane.Perm lane') :
    laneRank lane = laneRank lane' := by
  funext e
  unfold laneRank
  rw [(h.filter _).length_eq]

/-- The shares do not depend on the order of a lane. -/
theorem shares_congr (c : ℚ) {lane lane' : List (String × ℚ)} (h : lane.Perm lane') :
    (shares c lane).Perm (shares c lane') := by
  unfold shares
  rw [laneRank_congr h]
  exact h.map _

/-- An id gets from a lane what its entry gets. -/
theorem sumUnder_shares (c : ℚ) (id : String) {lane : List (String × ℚ)}
    (h : (lane.map Prod.fst).Nodup) : sumUnder id (shares c lane) = laneShare c id lane := by
  have hfst : (shares c lane).map Prod.fst = lane.map Prod.fst := by
    unfold shares
    rw [List.map_map]
    rfl
  unfold laneShare
  cases hfind : lane.find? fun e => e.1 = id with
  | none =>
    refine sumUnder_of_notMem fun hid => ?_
    rw [hfst] at hid
    obtain ⟨e, he, hkey⟩ := List.mem_map.mp hid
    exact List.find?_eq_none.mp hfind e he (decide_eq_true hkey)
  | some e =>
    have hkey := List.find?_some hfind
    refine sumUnder_of_mem (by rw [hfst]; exact h) (List.mem_map.mpr ⟨e, ?_, ?_⟩)
    · exact List.mem_of_find?_eq_some hfind
    · rw [of_decide_eq_true hkey]
      rfl

/-! ## The sums -/

section

variable (order order' : HashOrder) {lanes lanes' : List (List (String × ℚ))} (c : ℚ)

/-- What all lanes give, one entry after the other. -/
def allShares (c : ℚ) (lanes : List (List (String × ℚ))) : List (String × ℚ) :=
  lanes.flatMap (shares c)

/-- The scores that the lanes give are the shares. -/
theorem perm_allShares (h : ∀ lane ∈ lanes, lane.Nodup) :
    (lanes.flatMap (laneScores c)).Perm (allShares c lanes) := by
  induction lanes with
  | nil => exact .nil
  | cons lane lanes ih =>
    exact (perm_shares c (h lane List.mem_cons_self)).append
      (ih fun l hl => h l (List.mem_cons_of_mem _ hl))

/-- What `rrf_fuse` ranks last: each id that came up, with the sum of what it got. -/
theorem mem_rrfFuse (h : ∀ lane ∈ lanes, lane.Nodup) {e : String × ℚ} :
    e ∈ rrfFuse order lanes c ↔
      e.1 ∈ (allShares c lanes).map Prod.fst ∧ e.2 = sumUnder e.1 (allShares c lanes) := by
  have hperm := perm_allShares c h
  unfold rrfFuse
  rw [mem_orderBy, (order.iterate_perm _).mem_iff, ← List.foldl_flatMap]
  refine mem_tally_iff.trans (and_congr (hperm.map _).mem_iff ?_)
  rw [sumUnder_perm hperm]

/-- Each id once. -/
theorem nodup_rrfFuse (lanes : List (List (String × ℚ))) :
    ((rrfFuse order lanes c).map Prod.fst).Nodup := by
  have hnil : (([] : List (String × ℚ)).map Prod.fst).Nodup := List.nodup_nil
  unfold rrfFuse
  rw [((orderBy_perm scoredKey _).map Prod.fst).nodup_iff,
    ((order.iterate_perm _).map Prod.fst).nodup_iff, ← List.foldl_flatMap]
  exact nodup_tally hnil _

/-- In order of the scores. -/
theorem pairwise_rrfFuse (lanes : List (List (String × ℚ))) :
    (rrfFuse order lanes c).Pairwise Outranks := by
  have hkeyed := keyed_scoredKey (List.Nodup.of_map _ (nodup_rrfFuse order c lanes))
  have hsorted := (hkeyed.perm (orderBy_perm scoredKey _)).orderBy_pairwise
  exact hsorted.imp fun h => scoredKey_lt_iff.mp h

/-- The result depends on what the lanes give only. -/
theorem rrfFuse_congr (h : ∀ lane ∈ lanes, lane.Nodup) (h' : ∀ lane ∈ lanes', lane.Nodup)
    (hshares : (allShares c lanes').Perm (allShares c lanes)) :
    rrfFuse order' lanes' c = rrfFuse order lanes c := by
  have hasymm : ∀ d e, d ∈ rrfFuse order' lanes' c → e ∈ rrfFuse order lanes c →
      Outranks d e → Outranks e d → d = e := fun d e _ _ hde hed =>
    absurd (scoredKey_lt_iff.mpr hde) (lt_asymm (scoredKey_lt_iff.mpr hed))
  refine List.Perm.eq_of_pairwise hasymm (pairwise_rrfFuse _ _ _) (pairwise_rrfFuse _ _ _) ?_
  refine (List.perm_ext_iff_of_nodup (List.Nodup.of_map _ (nodup_rrfFuse _ _ _))
    (List.Nodup.of_map _ (nodup_rrfFuse _ _ _))).mpr fun e => ?_
  rw [mem_rrfFuse order' c h', mem_rrfFuse order c h, (hshares.map _).mem_iff,
    sumUnder_perm hshares]

end

/-! ## What the lanes list -/

/-- The lanes that list something. -/
def nonemptyLanes (lanes : List (List (String × ℚ))) : List (List (String × ℚ)) :=
  lanes.filter fun lane => !lane.isEmpty

/-- Apart from empty lanes, the lanes of two lists differ in the order in which they come and in the
order of their entries only. -/
def SameLanes (lanes lanes' : List (List (String × ℚ))) : Prop :=
  ∃ reordered, List.Forall₂ List.Perm (nonemptyLanes lanes) reordered ∧
    reordered.Perm (nonemptyLanes lanes')

/-- Empty lanes have no share. -/
theorem allShares_nonemptyLanes (c : ℚ) (lanes : List (List (String × ℚ))) :
    allShares c (nonemptyLanes lanes) = allShares c lanes := by
  unfold nonemptyLanes
  induction lanes with
  | nil => rfl
  | cons lane lanes ih =>
    cases lane with
    | nil => exact ih
    | cons e lane => exact congrArg (shares c (e :: lane) ++ ·) ih

/-- Lanes that are reordered have the same shares. -/
theorem allShares_of_forall₂ (c : ℚ) {lanes lanes' : List (List (String × ℚ))}
    (h : List.Forall₂ List.Perm lanes lanes') : (allShares c lanes).Perm (allShares c lanes') := by
  induction h with
  | nil => exact .nil
  | cons hlane _ ih => exact (shares_congr c hlane).append ih

/-- Lanes that are reordered repeat no id if they did not before. -/
theorem nodup_of_forall₂ {lanes lanes' : List (List (String × ℚ))}
    (h : List.Forall₂ List.Perm lanes lanes') (hlanes : ∀ lane ∈ lanes, (lane.map Prod.fst).Nodup) :
    ∀ lane ∈ lanes', (lane.map Prod.fst).Nodup := by
  induction h with
  | nil => exact hlanes
  | cons hlane _ ih =>
    rw [List.forall_mem_cons] at hlanes ⊢
    exact ⟨(hlane.map _).nodup_iff.mp hlanes.1, ih hlanes.2⟩

/-- The same lanes give the same. -/
theorem SameLanes.perm_allShares {lanes lanes' : List (List (String × ℚ))}
    (h : SameLanes lanes lanes') (c : ℚ) : (allShares c lanes).Perm (allShares c lanes') := by
  obtain ⟨reordered, hentries, hlanes⟩ := h
  rw [← allShares_nonemptyLanes c lanes, ← allShares_nonemptyLanes c lanes']
  exact (allShares_of_forall₂ c hentries).trans (hlanes.flatMap_right _)

/-- The same lanes list the same ids, each as often. -/
theorem SameLanes.nodup {lanes lanes' : List (List (String × ℚ))} (h : SameLanes lanes lanes')
    (hlanes : ∀ lane ∈ lanes, (lane.map Prod.fst).Nodup) :
    ∀ lane ∈ lanes', (lane.map Prod.fst).Nodup := by
  obtain ⟨reordered, hentries, hperm⟩ := h
  intro lane hlane
  by_cases hempty : lane.isEmpty
  · rw [List.isEmpty_iff.mp hempty]
    exact List.nodup_nil
  · have hreordered : lane ∈ reordered := by
      rw [hperm.mem_iff]
      exact List.mem_filter.mpr ⟨hlane, by simpa using hempty⟩
    exact nodup_of_forall₂ hentries
      (fun original horiginal => hlanes original (List.mem_filter.mp horiginal).1) lane hreordered

/-- For all lanes, each of which lists an id once at most, and whatever order the map of the scores
is iterated in: each id that some lane lists comes once, with the sum of `1 / (c + rank)` over the
lanes that list it, the largest score first and the smaller id first among equal scores; and the
order of the lanes, that of their entries and empty lanes make no difference. With a positive `c`
no denominator is zero. -/
theorem rrfFuse_exact (order : HashOrder) (lanes : List (List (String × ℚ))) (c : ℚ)
    (hlanes : ∀ lane ∈ lanes, (lane.map Prod.fst).Nodup) :
    ((rrfFuse order lanes c).map Prod.fst).Nodup ∧
    (∀ id score, (id, score) ∈ rrfFuse order lanes c ↔
      (∃ lane ∈ lanes, id ∈ lane.map Prod.fst) ∧ score = (lanes.map (laneShare c id)).sum) ∧
    (rrfFuse order lanes c).Pairwise Outranks ∧
    ∀ (order' : HashOrder) (lanes' : List (List (String × ℚ))), SameLanes lanes lanes' →
      rrfFuse order' lanes' c = rrfFuse order lanes c := by
  have hnodup : ∀ {lanes : List (List (String × ℚ))},
      (∀ lane ∈ lanes, (lane.map Prod.fst).Nodup) → ∀ lane ∈ lanes, lane.Nodup :=
    fun h lane hlane => List.Nodup.of_map _ (h lane hlane)
  refine ⟨nodup_rrfFuse order c lanes, fun id score => ?_, pairwise_rrfFuse order c lanes,
    fun order' lanes' h => rrfFuse_congr order order' c (hnodup hlanes)
      (hnodup (h.nodup hlanes)) (h.perm_allShares c).symm⟩
  rw [mem_rrfFuse order c (hnodup hlanes)]
  refine and_congr ?_ ?_
  -- A share of the item comes from an entry with its identifier.
  · unfold allShares shares
    simp only [List.mem_map, List.mem_flatMap]
    constructor
    · rintro ⟨share, ⟨lane, hlane, e, he, rfl⟩, hid⟩
      exact ⟨lane, hlane, e, he, hid⟩
    · rintro ⟨lane, hlane, e, he, hid⟩
      exact ⟨_, ⟨lane, hlane, e, he, rfl⟩, hid⟩
  -- The sum of the shares is taken lane by lane.
  · unfold allShares
    rw [sumUnder_flatMap, List.map_congr_left fun lane hlane =>
      sumUnder_shares c id (hlanes lane hlane)]

section

/-- Two lanes that rank two ids the other way round, with a tie in the second one. -/
private def tiedLanes : List (List (String × ℚ)) :=
  [[("m1", 1), ("m2", 2)], [("m2", 1), ("m1", 1), ("m3", 1)]]

/-- The theorem for such lanes and an empty one, with the usual constant. -/
theorem rrfFuse_exact_tied :
    rrfFuse .insertion tiedLanes 60 =
        [("m1", 1 / 62 + 1 / 61), ("m2", 1 / 61 + 1 / 62), ("m3", 1 / 63)] ∧
      rrfFuse .insertion [[("m2", 1), ("m3", 1), ("m1", 1)], [], [("m2", 2), ("m1", 1)]] 60 =
        rrfFuse .insertion tiedLanes 60 := by
  have hlanes : ∀ lane ∈ tiedLanes, (lane.map Prod.fst).Nodup := by decide
  have hsame : SameLanes tiedLanes
      [[("m2", 1), ("m3", 1), ("m1", 1)], [], [("m2", 2), ("m1", 1)]] :=
    ⟨[[("m2", 2), ("m1", 1)], [("m2", 1), ("m3", 1), ("m1", 1)]],
      .cons (by decide) (.cons (by decide) .nil), by decide⟩
  exact ⟨by decide +kernel, (rrfFuse_exact .insertion tiedLanes 60 hlanes).2.2.2 _ _ hsame⟩

end

end Tellodb
