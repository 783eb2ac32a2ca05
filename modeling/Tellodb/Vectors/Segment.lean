import Tellodb.Relational.Table
import Mathlib.Logic.Function.Basic

/-!
# Segments

The segment of an entity in `vector_index.rs`: a flat one, a list of vectors in which the last one
takes the place of one that is removed, or an HNSW graph of `usearch` above a number of vectors. A
vector is held normalized and quantized, which is a code here. `Segment.find?` is what a segment
holds under an identifier, and each operation is read back on it. -/

namespace Tellodb

open Relational

/-! ## Flat segments -/

/-- `Vec::swap_remove`: the last element takes the place of the removed one. -/
def swapRemove {α : Type*} (l : List α) (row : ℕ) : List α :=
  match l.getLast? with
  | some last => (l.set row last).dropLast
  | none => l

/-- Nothing else is lost, though the order changes. -/
theorem swapRemove_perm {α : Type*} {l : List α} {row : ℕ} (h : row < l.length) :
    (swapRemove l row).Perm (l.eraseIdx row) := by
  rcases List.eq_nil_or_concat l with rfl | ⟨init, last, rfl⟩
  · exact absurd h (by simp)
  rw [List.concat_eq_append] at h ⊢
  have hswap : swapRemove (init ++ [last]) row = ((init ++ [last]).set row last).dropLast := by
    simp [swapRemove]
  rw [hswap]
  rw [List.length_append, List.length_singleton] at h
  by_cases hlast : row = init.length
  · subst hlast
    rw [List.set_append_right _ _ (Nat.le_refl _),
      List.eraseIdx_append_of_length_le (Nat.le_refl _)]
    simp
  · have hlt : row < init.length := by omega
    rw [List.set_append_left _ _ hlt, List.dropLast_concat, List.eraseIdx_append_of_lt_length hlt]
    exact (List.set_perm_cons_eraseIdx hlt last).trans (List.perm_append_singleton last _).symm

/-- `FlatSegment`: the vectors in the order of their rows, each under its identifier. -/
structure FlatSegment (γ : Type) where
  rows : List (ℕ × γ)
  /-- `positions` has one row for each identifier. -/
  keyed : Keyed Prod.fst rows

namespace FlatSegment

variable {γ : Type}

/-- `FlatSegment::new` -/
def new (γ : Type) : FlatSegment γ :=
  ⟨[], List.nodup_nil⟩

/-- What is held under an identifier. -/
def find? (s : FlatSegment γ) (id : ℕ) : Option γ :=
  (s.rows.find? fun row => row.1 = id).map Prod.snd

/-- A vector is found exactly when it is held. -/
theorem find?_eq_some {s : FlatSegment γ} {id : ℕ} {code : γ} :
    s.find? id = some code ↔ (id, code) ∈ s.rows := by
  unfold find?
  constructor
  · intro h
    obtain ⟨row, hfind, rfl⟩ := Option.map_eq_some_iff.mp h
    have hkey := List.find?_some hfind
    rw [← of_decide_eq_true hkey]
    exact List.mem_of_find?_eq_some hfind
  · intro h
    cases hfind : s.rows.find? fun row => row.1 = id with
    | none => exact absurd (decide_eq_true rfl) (List.find?_eq_none.mp hfind _ h)
    | some row =>
      have hkey := List.find?_some hfind
      rw [s.keyed.eq_of_mem (List.mem_of_find?_eq_some hfind) h (of_decide_eq_true hkey)]
      rfl

/-- `FlatSegment::upsert` -/
def upsert (s : FlatSegment γ) (id : ℕ) (code : γ) : FlatSegment γ :=
  if h : ∃ row ∈ s.rows, row.1 = id then
    ⟨s.rows.map fun row => if row.1 = id then (id, code) else row, s.keyed.map fun row => by
      split
      · rename_i hrow
        exact hrow.symm
      · rfl⟩
  else ⟨s.rows ++ [(id, code)], s.keyed.append fun row hrow hid => h ⟨row, hrow, hid⟩⟩

/-- After an upsert the vector is held, and the others are as before. -/
theorem find?_upsert (s : FlatSegment γ) (id : ℕ) (code : γ) :
    (s.upsert id code).find? = Function.update s.find? id (some code) := by
  funext k
  refine Option.ext fun c => ?_
  rw [find?_eq_some]
  -- The identifier is the written one, whose row is there or is added.
  by_cases hk : k = id
  · subst hk
    rw [Function.update_self, Option.some_inj]
    unfold upsert
    split
    · rename_i h
      obtain ⟨row, hrow, hid⟩ := h
      rw [List.mem_map]
      constructor
      · rintro ⟨row', -, heq⟩
        split at heq
        · exact (Prod.mk.inj heq).2
        · rename_i hne
          exact absurd (congrArg Prod.fst heq) hne
      · rintro rfl
        exact ⟨row, hrow, if_pos hid⟩
    · rename_i h
      rw [List.mem_append, List.mem_singleton, Prod.mk.injEq]
      constructor
      · rintro (hmem | ⟨-, heq⟩)
        · exact absurd ⟨_, hmem, rfl⟩ h
        · exact heq.symm
      · rintro rfl
        exact .inr ⟨rfl, rfl⟩
  · rw [Function.update_of_ne hk, find?_eq_some]
    unfold upsert
    split
    · rw [List.mem_map]
      constructor
      · rintro ⟨row, hrow, heq⟩
        split at heq
        · exact absurd (Prod.mk.inj heq).1.symm hk
        · rw [← heq]
          exact hrow
      · exact fun hmem => ⟨_, hmem, if_neg hk⟩
    · rw [List.mem_append, List.mem_singleton, Prod.mk.injEq]
      constructor
      · rintro (hmem | ⟨heq, -⟩)
        · exact hmem
        · exact absurd heq hk
      · exact .inl

/-- `FlatSegment::remove` -/
def remove (s : FlatSegment γ) (id : ℕ) : FlatSegment γ :=
  match h : s.rows.findIdx? fun row => row.1 = id with
  | some row => ⟨swapRemove s.rows row, (s.keyed.sublist
      ((List.eraseIdx_sublist _ _).map Prod.fst)).perm
        ((swapRemove_perm (List.findIdx?_eq_some_iff_findIdx_eq.mp h).1).map Prod.fst).symm⟩
  | none => s

/-- After a removal the vector is not held, and the others are as before. -/
theorem find?_remove (s : FlatSegment γ) (id : ℕ) :
    (s.remove id).find? = Function.update s.find? id none := by
  have hrows : ∀ row, row ∈ (s.remove id).rows ↔ row ∈ s.rows ∧ row.1 ≠ id := by
    intro row
    unfold remove
    split
    · rename_i i hindex
      obtain ⟨hlt, hfound, -⟩ := List.findIdx?_eq_some_iff_getElem.mp hindex
      rw [(swapRemove_perm hlt).mem_iff, List.mem_eraseIdx_iff_getElem?]
      have hi : (s.rows.map Prod.fst)[i]? = some id := by
        rw [List.getElem?_map, List.getElem?_eq_getElem hlt, Option.map_some,
          of_decide_eq_true hfound]
      constructor
      · rintro ⟨j, hj, hget⟩
        refine ⟨List.mem_of_getElem? hget, fun hid => hj ?_⟩
        -- The row that is removed is the only one with its identifier.
        have hj' : (s.rows.map Prod.fst)[j]? = some id := by
          rw [List.getElem?_map, hget, Option.map_some, hid]
        exact ((List.getElem?_inj (by simpa using hlt) s.keyed).mp (hi.trans hj'.symm)).symm
      · rintro ⟨hmem, hid⟩
        obtain ⟨j, hget⟩ := List.getElem?_of_mem hmem
        refine ⟨j, ?_, hget⟩
        rintro rfl
        rw [List.getElem?_map, hget] at hi
        exact hid (Option.some.inj hi)
    · rename_i hindex
      have hnone := List.findIdx?_eq_none_iff.mp hindex
      constructor
      · exact fun hmem => ⟨hmem, by simpa using hnone row hmem⟩
      · exact And.left
  funext k
  refine Option.ext fun c => ?_
  rw [find?_eq_some, hrows]
  by_cases hk : k = id
  · subst hk
    rw [Function.update_self]
    simp
  · rw [Function.update_of_ne hk, find?_eq_some]
    exact and_iff_left hk

end FlatSegment

/-! ## Graphs -/

/-- A graph of `usearch` with one vector for each identifier, as far as it is relied on: what it
holds under an identifier, and what its operations do to that. -/
structure Hnsw (γ : Type) where
  Graph : Type
  find? : Graph → ℕ → Option γ
  /-- `Index::new` -/
  new : Graph
  /-- `Index::contains` -/
  contains : Graph → ℕ → Bool
  /-- `Index::remove` -/
  remove : Graph → ℕ → Graph
  /-- `Index::add` -/
  add : Graph → ℕ → γ → Graph
  find?_new : find? new = fun _ => none
  contains_eq : ∀ g id, contains g id = (find? g id).isSome
  find?_remove : ∀ g id, find? (remove g id) = Function.update (find? g) id none
  /-- A vector may be added under an identifier that is not held. -/
  find?_add : ∀ g id code, find? g id = none →
    find? (add g id code) = Function.update (find? g) id (some code)

namespace Hnsw

variable {γ : Type} (H : Hnsw γ)

/-- `HnswSegment::upsert` -/
def upsert (g : H.Graph) (id : ℕ) (code : γ) : H.Graph :=
  H.add (if H.contains g id then H.remove g id else g) id code

/-- After an upsert the vector is held, and the others are as before. -/
theorem find?_upsert (g : H.Graph) (id : ℕ) (code : γ) :
    H.find? (H.upsert g id code) = Function.update (H.find? g) id (some code) := by
  unfold upsert
  split
  · rw [H.find?_add _ _ _ (by rw [H.find?_remove, Function.update_self]), H.find?_remove,
      Function.update_idem]
  · rename_i hcontains
    rw [H.contains_eq] at hcontains
    exact H.find?_add _ _ _ (by simpa using hcontains)

/-- A graph that is the vectors it holds. -/
def exact (γ : Type) : Hnsw γ where
  Graph := ℕ → Option γ
  find? := id
  new := fun _ => none
  contains := fun g id => (g id).isSome
  remove := fun g id => Function.update g id none
  add := fun g id code => Function.update g id (some code)
  find?_new := rfl
  contains_eq := fun _ _ => rfl
  find?_remove := fun _ _ => rfl
  find?_add := fun _ _ _ _ => rfl

end Hnsw

/-! ## Segments -/

/-- `Segment` -/
inductive Segment {γ : Type} (H : Hnsw γ) where
  | flat (flat : FlatSegment γ)
  | hnsw (hnsw : H.Graph)

namespace Segment

variable {γ : Type} {H : Hnsw γ}

/-- What is held under an identifier. -/
def find? : Segment H → ℕ → Option γ
  | flat s => s.find?
  | hnsw g => H.find? g

/-- Adds or replaces a vector. -/
def upsert : Segment H → ℕ → γ → Segment H
  | flat s, id, code => flat (s.upsert id code)
  | hnsw g, id, code => hnsw (H.upsert g id code)

/-- Removes a vector. -/
def remove : Segment H → ℕ → Segment H
  | flat s, id => flat (s.remove id)
  | hnsw g, id => hnsw (H.remove g id)

/-- After an upsert the vector is held, and the others are as before. -/
theorem find?_upsert (s : Segment H) (id : ℕ) (code : γ) :
    (s.upsert id code).find? = Function.update s.find? id (some code) := by
  cases s with
  | flat s => exact s.find?_upsert id code
  | hnsw g => exact H.find?_upsert g id code

/-- After a removal the vector is not held, and the others are as before. -/
theorem find?_remove (s : Segment H) (id : ℕ) :
    (s.remove id).find? = Function.update s.find? id none := by
  cases s with
  | flat s => exact s.find?_remove id
  | hnsw g => exact H.find?_remove g id

end Segment

end Tellodb
