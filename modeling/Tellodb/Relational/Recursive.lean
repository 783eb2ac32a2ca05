import Mathlib.Data.Finset.Card
import Mathlib.Logic.Relation
import Tellodb.Collections.Levels

/-!
# Recursive queries

`WITH RECURSIVE ... UNION`: the rows of the initial select are queued, and as long as there is a row
in the queue it is taken out and the rows that the recursive select makes of it are queued, each
unless it has been queued before. A list keeps all rows that were queued, in their order, and a
number those that were taken out again. A query ends exactly with the rows that can be reached, each
once, if they fit into a finite set (`mem_recursiveUnion`). -/

namespace Tellodb.Relational

open Collections

variable {α : Type*} [DecidableEq α] (next : α → List α)

/-- The rows that are queued in at most a number of rounds, of which some are taken out already. -/
def recursiveUnion : ℕ → ℕ → List α → List α
  | 0, _, rows => rows
  | rounds + 1, taken, rows =>
    match rows[taken]? with
    | none => rows
    | some row => recursiveUnion rounds (taken + 1) ((next row).foldl discover rows)

/-- A row comes of the initial rows. -/
def Derived (initial : List α) (row : α) : Prop :=
  ∃ first ∈ initial, Relation.ReflTransGen (fun a b => b ∈ next a) first row

/-- Between two rounds: no row is queued twice, every row comes of the initial ones, and the rows
that come of those taken out are queued. -/
structure Queued (initial rows : List α) (taken : ℕ) : Prop where
  nodup : rows.Nodup
  derived : ∀ row ∈ rows, Derived next initial row
  initial : ∀ row ∈ initial, row ∈ rows
  closed : ∀ i < taken, ∀ row ∈ rows[i]?, ∀ b ∈ next row, b ∈ rows
  taken_le : taken ≤ rows.length

variable {next}

/-- Rows are queued behind those that were. -/
theorem foldl_discover_eq_append (rows new : List α) :
    ∃ added, new.foldl discover rows = rows ++ added := by
  induction new generalizing rows with
  | nil => exact ⟨[], (List.append_nil rows).symm⟩
  | cons row new ih =>
    rw [List.foldl_cons]
    obtain ⟨added, hadded⟩ := ih (discover rows row)
    rw [hadded]
    unfold discover
    split
    · exact ⟨added, rfl⟩
    · exact ⟨row :: added, by rw [List.append_assoc, List.singleton_append]⟩

/-- Taking a row from the queue keeps what has been discovered. -/
theorem Queued.take {initial rows : List α} {taken : ℕ} (h : Queued next initial rows taken)
    {row : α} (hrow : rows[taken]? = some row) :
    Queued next initial ((next row).foldl discover rows) (taken + 1) := by
  have hmem : ∀ b, b ∈ (next row).foldl discover rows ↔ b ∈ rows ∨ b ∈ next row :=
    fun b => mem_foldl_discover
  obtain ⟨added, hadded⟩ := foldl_discover_eq_append rows (next row)
  have hlt : taken < rows.length := (List.getElem?_eq_some_iff.mp hrow).1
  refine ⟨nodup_foldl_discover h.nodup _, fun b hb => ?_, fun b hb => ?_, fun i hi b hb c hc => ?_,
    ?_⟩
  · rcases (hmem b).mp hb with hb | hb
    · exact h.derived b hb
    · obtain ⟨first, hfirst, hreach⟩ := h.derived row (List.mem_of_getElem? hrow)
      exact ⟨first, hfirst, hreach.tail hb⟩
  · exact (hmem b).mpr (.inl (h.initial b hb))
  · rw [hadded, List.getElem?_append_left (by omega)] at hb
    refine (hmem c).mpr ?_
    rcases Nat.lt_succ_iff_lt_or_eq.mp hi with hi | rfl
    · exact .inl (h.closed i hi b hb c hc)
    · rw [hrow, Option.mem_some_iff] at hb
      exact .inr (hb ▸ hc)
  · rw [hadded, List.length_append]
    omega

/-- With enough rounds the query ends when every row is taken out. -/
theorem Queued.recursiveUnion {initial : List α} {space : Finset α}
    (hspace : ∀ row, Derived next initial row → row ∈ space) {rounds : ℕ} {rows : List α}
    {taken : ℕ} (h : Queued next initial rows taken) (hrounds : space.card ≤ taken + rounds) :
    let result := Relational.recursiveUnion next rounds taken rows
    Queued next initial result result.length := by
  induction rounds generalizing rows taken with
  | zero =>
    have hsub : rows.toFinset ⊆ space := fun row hrow =>
      hspace row (h.derived row (List.mem_toFinset.mp hrow))
    have hle := Finset.card_le_card hsub
    rw [List.toFinset_card_of_nodup h.nodup] at hle
    have hall : taken = rows.length := by
      have htaken := h.taken_le
      omega
    exact hall ▸ h
  | succ rounds ih =>
    unfold Relational.recursiveUnion
    cases hrow : rows[taken]? with
    | none =>
      have hall : taken = rows.length :=
        le_antisymm h.taken_le (List.getElem?_eq_none_iff.mp hrow)
      exact hall ▸ h
    | some row =>
      exact ih (h.take hrow) (by omega)

/-- A query ends with the rows that come of the initial ones, each once. -/
theorem mem_recursiveUnion {initial : List α} (hinitial : initial.Nodup) {space : Finset α}
    (hspace : ∀ row, Derived next initial row → row ∈ space) {rounds : ℕ}
    (hrounds : space.card ≤ rounds) :
    (recursiveUnion next rounds 0 initial).Nodup ∧
      ∀ row, row ∈ recursiveUnion next rounds 0 initial ↔ Derived next initial row := by
  have hstart : Queued next initial initial 0 :=
    ⟨hinitial, fun row hrow => ⟨row, hrow, .refl⟩, fun _ hrow => hrow,
      fun i hi => absurd hi (Nat.not_lt_zero i), Nat.zero_le _⟩
  have henough : space.card ≤ 0 + rounds := (Nat.zero_add rounds).symm ▸ hrounds
  have hend := hstart.recursiveUnion hspace henough
  refine ⟨hend.nodup, fun row => ⟨hend.derived row, ?_⟩⟩
  rintro ⟨first, hfirst, hreach⟩
  induction hreach with
  | refl => exact hend.initial first hfirst
  | tail _ hstep ih =>
    obtain ⟨i, hi⟩ := List.mem_iff_getElem?.mp ih
    exact hend.closed i (List.getElem?_eq_some_iff.mp hi).1 _ hi _ hstep

end Tellodb.Relational
