import Mathlib.Data.List.Nodup
import Mathlib.Data.List.Perm.Basic

/-!
# Unseen elements

Lists of elements under keys are gone through one after the other. An element whose key was seen is
passed over, and of the others those that are accepted are gathered. If every list has the elements
of the one before it, what is gathered in the end is what one pass over the last list gathers
(`Gathered.foldl`), with no key twice. -/

namespace Tellodb.Collections

variable {κ δ β : Type*} (accept : κ × δ → Option β)

/-- The keys of some elements were seen, and what is accepted of these was gathered. -/
structure Gathered (s : List κ × List (κ × β)) (found : List (κ × δ)) : Prop where
  seen : ∀ k, k ∈ s.1 ↔ ∃ x ∈ found, x.1 = k
  mem : ∀ y, y ∈ s.2 ↔ ∃ x ∈ found, accept x = some y.2 ∧ x.1 = y.1
  nodup : (s.2.map Prod.fst).Nodup

variable {accept} {s : List κ × List (κ × β)} {found : List (κ × δ)}

/-- Nothing is gathered from nothing. -/
theorem gathered_nil : Gathered accept ([], []) ([] : List (κ × δ)) where
  seen _ := by simp
  mem _ := by simp
  nodup := List.nodup_nil

/-- Gathering does not depend on the order of the elements. -/
theorem Gathered.congr (h : Gathered accept s found) {other : List (κ × δ)}
    (hsame : ∀ x, x ∈ found ↔ x ∈ other) : Gathered accept s other where
  seen k := by simp only [h.seen k, hsame]
  mem y := by simp only [h.mem y, hsame]
  nodup := h.nodup

variable [DecidableEq κ]

/-- The next element, after the keys that were seen and what was gathered. -/
def absorb (accept : κ × δ → Option β) (s : List κ × List (κ × β)) (x : κ × δ) :
    List κ × List (κ × β) :=
  if x.1 ∈ s.1 then s else (x.1 :: s.1, s.2 ++ ((accept x).map fun b => (x.1, b)).toList)

/-- One more element, whose key is that of no other. -/
theorem Gathered.absorb (h : Gathered accept s found) {x : κ × δ}
    (hkey : ∀ y ∈ found, y.1 = x.1 → y = x) :
    Gathered accept (Collections.absorb accept s x) (found ++ [x]) := by
  unfold Collections.absorb
  by_cases hseen : x.1 ∈ s.1
  · -- The key was seen, so it was this element that was there.
    rw [if_pos hseen]
    obtain ⟨y, hy, hyx⟩ := (h.seen x.1).mp hseen
    have hx : x ∈ found := by
      rw [← hkey y hy hyx]
      exact hy
    refine h.congr fun z => ?_
    rw [List.mem_append, List.mem_singleton]
    exact ⟨.inl, fun hz => hz.elim id fun heq => by rw [heq]; exact hx⟩
  · rw [if_neg hseen]
    -- The element is new, so its key is seen from now on.
    have hnew : ∀ y ∈ s.2, y.1 ≠ x.1 := by
      intro y hy heq
      obtain ⟨z, hz, -, hzy⟩ := (h.mem y).mp hy
      exact hseen ((h.seen x.1).mpr ⟨z, hz, hzy.trans heq⟩)
    constructor
    · intro k
      rw [List.mem_cons, h.seen k]
      constructor
      · rintro (rfl | ⟨y, hy, rfl⟩)
        · exact ⟨x, List.mem_append_right _ List.mem_cons_self, rfl⟩
        · exact ⟨y, List.mem_append_left _ hy, rfl⟩
      · rintro ⟨y, hy, rfl⟩
        rcases List.mem_append.mp hy with hy | hy
        · exact .inr ⟨y, hy, rfl⟩
        · exact .inl (by rw [List.mem_singleton.mp hy])
    · intro y
      rw [List.mem_append, h.mem y, Option.mem_toList, Option.map_eq_some_iff]
      constructor
      · rintro (⟨z, hz, haccept⟩ | ⟨b, haccept, rfl⟩)
        · exact ⟨z, List.mem_append_left _ hz, haccept⟩
        · exact ⟨x, List.mem_append_right _ List.mem_cons_self, haccept, rfl⟩
      · rintro ⟨z, hz, haccept, hzy⟩
        rcases List.mem_append.mp hz with hz | hz
        · exact .inl ⟨z, hz, haccept, hzy⟩
        · obtain rfl := List.mem_singleton.mp hz
          exact .inr ⟨y.2, haccept, Prod.ext hzy rfl⟩
    · cases haccept : accept x with
      | none => simpa using h.nodup
      | some b =>
        rw [Option.map_some, Option.toList_some, List.map_append, List.map_singleton]
        refine h.nodup.append (List.nodup_singleton _) fun k hk hx => ?_
        obtain ⟨y, hy, rfl⟩ := List.mem_map.mp hk
        exact hnew y hy (List.mem_singleton.mp hx)

/-- A pass over a list that has the elements that were found before. -/
theorem Gathered.foldl (h : Gathered accept s found) {raw : List (κ × δ)} (hsub : found ⊆ raw)
    (hkeys : (raw.map Prod.fst).Nodup) :
    Gathered accept (raw.foldl (Collections.absorb accept) s) raw := by
  have hkey : ∀ x ∈ raw, ∀ y ∈ raw, y.1 = x.1 → y = x :=
    fun x hx y hy heq => List.inj_on_of_nodup_map hkeys hy hx heq
  -- The pass goes on from any state that has gathered a part of the elements.
  have hpass : ∀ (rest : List (κ × δ)) s found, Gathered accept s found → found ⊆ raw →
      rest ⊆ raw → Gathered accept (rest.foldl (Collections.absorb accept) s) (found ++ rest) := by
    intro rest
    induction rest with
    | nil =>
      intro s found h _ _
      rw [List.append_nil]
      exact h
    | cons x rest ih =>
      intro s found h hfound hrest
      have hx : x ∈ raw := hrest List.mem_cons_self
      have hone := h.absorb fun y hy heq => hkey x hx y (hfound hy) heq
      rw [List.append_cons]
      refine ih _ _ hone ?_ fun y hy => hrest (List.mem_cons_of_mem _ hy)
      intro y hy
      rcases List.mem_append.mp hy with hy | hy
      · exact hfound hy
      · rw [List.mem_singleton.mp hy]
        exact hx
  refine (hpass raw s found h hsub fun _ hx => hx).congr fun x => ?_
  rw [List.mem_append]
  exact ⟨fun hx => hx.elim (fun hx => hsub hx) id, .inr⟩

end Tellodb.Collections
