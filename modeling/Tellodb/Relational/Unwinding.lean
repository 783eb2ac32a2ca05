import Tellodb.Relational.Run

/-!
# Answers that do not depend on hidden requests

A server takes requests one after the other and answers each. Some of the requests are observed, and
some are hidden from the observer. An unwinding relates the states of two servers of which one does
not get the hidden requests: a hidden request leaves the states related, another request that both
get does so as well, and an observed one is answered the same. Then the observer is told the same in
a run with the hidden requests and in the run without them (`Unwinding.answers_eq`). -/

namespace Tellodb.Relational

variable {σ α ρ : Type*}

/-- What the observed requests of a run are answered. -/
def answers (serve : σ → α → σ × ρ) (observed : α → Bool) : σ → List α → List ρ
  | _, [] => []
  | s, a :: rest =>
    if observed a then (serve s a).2 :: answers serve observed (serve s a).1 rest
    else answers serve observed (serve s a).1 rest

/-- A relation of the states of a server with the hidden requests, each under the condition `C`, to
those of a server without them, under the condition `D`. -/
structure Unwinding (serve : σ → α → σ × ρ) (observed hidden : α → Bool) (C D : σ → α → Prop)
    (R : σ → σ → Prop) : Prop where
  hidden_step : ∀ {s t : σ} {a : α}, R s t → hidden a = true → C s a → R (serve s a).1 t
  step : ∀ {s t : σ} {a : α}, R s t → hidden a = false → C s a → D t a →
    R (serve s a).1 (serve t a).1
  answer : ∀ {s t : σ} {a : α}, R s t → observed a = true → C s a → D t a →
    (serve s a).2 = (serve t a).2
  apart : ∀ {a : α}, observed a = true → hidden a = false

/-- The observer is told the same in both runs. -/
theorem Unwinding.answers_eq {serve : σ → α → σ × ρ} {observed hidden : α → Bool}
    {C D : σ → α → Prop} {R : σ → σ → Prop} (h : Unwinding serve observed hidden C D R) {s t : σ}
    {requests : List α} (hrel : R s t)
    (hC : EachStep (fun s a => (serve s a).1) C s requests)
    (hD : EachStep (fun s a => (serve s a).1) D t (requests.filter fun a => !hidden a)) :
    answers serve observed s requests =
      answers serve observed t (requests.filter fun a => !hidden a) := by
  induction requests generalizing s t with
  | nil => rfl
  | cons a rest ih =>
    obtain ⟨hfirst, hrest⟩ := EachStep.cons_iff.mp hC
    -- A hidden request is left out, and what is observed of it is nothing.
    cases hhidden : hidden a with
    | true =>
      rw [List.filter_cons_of_neg (by simp [hhidden])] at hD ⊢
      have hother : observed a = false := by
        rw [← Bool.not_eq_true]
        intro hobserved
        rw [h.apart hobserved] at hhidden
        exact Bool.false_ne_true hhidden
      rw [answers, if_neg (by simp [hother])]
      exact ih (h.hidden_step hrel hhidden hfirst) hrest hD
    | false =>
      rw [List.filter_cons_of_pos (by simp [hhidden])] at hD ⊢
      obtain ⟨hfirst', hrest'⟩ := EachStep.cons_iff.mp hD
      have hnext := ih (h.step hrel hhidden hfirst hfirst') hrest hrest'
      -- Both sides answer the request, and the answers are the same if it is observed.
      cases hobserved : observed a with
      | true => rw [answers, answers, if_pos hobserved, if_pos hobserved, hnext,
          h.answer hrel hobserved hfirst hfirst']
      | false => rw [answers, answers, if_neg (by simp [hobserved]), if_neg (by simp [hobserved]),
          hnext]

end Tellodb.Relational
