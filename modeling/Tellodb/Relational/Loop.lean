import Mathlib.Data.List.Basic

/-!
# Loops

A loop runs a body until it breaks with a result. With a variant, a number that every further round
makes smaller, and an invariant, it ends, and what the body breaks with under the invariant is as
wanted (`loop_of_variant`). -/

namespace Tellodb.Relational

variable {σ ρ : Type*}

/-- A loop, for a number of rounds at most. The body gives the next state or breaks. -/
def loop (body : σ → σ ⊕ ρ) : ℕ → σ → Option ρ
  | 0, _ => none
  | rounds + 1, s => (body s).elim (loop body rounds) some

/-- A loop with a variant ends in more rounds than the variant says. -/
theorem loop_of_variant {body : σ → σ ⊕ ρ} {I : σ → Prop} {Q : ρ → Prop} (variant : σ → ℕ)
    (hnext : ∀ s s', I s → body s = .inl s' → I s' ∧ variant s' < variant s)
    (hbreak : ∀ s r, I s → body s = .inr r → Q r) {rounds : ℕ} {s : σ} (hs : I s)
    (hrounds : variant s < rounds) : ∃ r, loop body rounds s = some r ∧ Q r := by
  induction rounds generalizing s with
  | zero => exact absurd hrounds (Nat.not_lt_zero _)
  | succ rounds ih =>
    rw [loop]
    cases hbody : body s with
    | inr r => exact ⟨r, rfl, hbreak s r hs hbody⟩
    | inl s' =>
      obtain ⟨hs', hless⟩ := hnext s s' hs hbody
      exact ih hs' (by omega)

/-- A loop that has ended ends so with more rounds, too. -/
theorem loop_of_le {body : σ → σ ⊕ ρ} {rounds rounds' : ℕ} {s : σ} {r : ρ}
    (h : loop body rounds s = some r) (hle : rounds ≤ rounds') : loop body rounds' s = some r := by
  induction rounds generalizing rounds' s with
  | zero => exact absurd h (by simp [loop])
  | succ rounds ih =>
    obtain ⟨rounds', rfl⟩ := Nat.exists_eq_succ_of_ne_zero (by omega : rounds' ≠ 0)
    rw [loop] at h ⊢
    cases hbody : body s with
    | inr r' =>
      rw [hbody] at h
      exact h
    | inl s' =>
      rw [hbody] at h
      exact ih h (by omega)

end Tellodb.Relational
