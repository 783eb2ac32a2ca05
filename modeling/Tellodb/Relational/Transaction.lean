import Mathlib.Data.List.Basic

/-!
# Transactions that may fail at every step

A transaction is a sequence of steps, each of which may read what the ones before it wrote (`Tx`).
It works on a copy of the state, which other connections do not see. Any step may fail, by its own
doing or from outside (`Faults`), and leaves the copy in any state then. `Tx.transact` is the
execution of a transaction: the copy takes the place of the state if every step and the commit
itself succeed, and is dropped otherwise. `Tx.transact_atomic` says what this guarantees whatever
the steps are and wherever they fail. -/

namespace Tellodb.Relational

variable {σ ε α β : Type}

/-- The steps of a transaction. -/
inductive Tx (σ ε α : Type) : Type 1 where
  /-- No step is left. -/
  | done (a : α)
  /-- One step, and what follows it. -/
  | step {β : Type} (write : σ → Except ε (σ × β)) (next : β → Tx σ ε α)

/-- What goes wrong while a transaction is executed. Its steps are numbered, from `BEGIN` to
`COMMIT`. -/
structure Faults (σ ε : Type) where
  /-- The error that a step meets from outside, such as a failure of the disk. -/
  error : ℕ → Option ε
  /-- What a step that fails leaves of the working copy. -/
  leftover : ℕ → σ → σ

/-- The state as other connections read it, and the working copy of an open transaction. -/
structure Connection (σ : Type) where
  committed : σ
  working : Option σ

/-- The execution of a transaction. -/
structure Execution (σ ε α : Type) where
  result : Except ε α
  /-- The connection after `BEGIN` and after each step. -/
  visited : List (Connection σ)
  /-- The connection at the end. -/
  final : Connection σ

namespace Tx

/-- One transaction after another. -/
def bind (t : Tx σ ε α) (k : α → Tx σ ε β) : Tx σ ε β :=
  match t with
  | .done a => k a
  | .step write next => .step write fun b => (next b).bind k

instance : Monad (Tx σ ε) where
  pure := .done
  bind := bind

/-- A single step. -/
def write (f : σ → Except ε (σ × α)) : Tx σ ε α :=
  .step f .done

/-- What the steps do if nothing goes wrong from outside. -/
def eval (t : Tx σ ε α) (s : σ) : Except ε (σ × α) :=
  match t with
  | .done a => .ok (s, a)
  | .step write next => match write s with
    | .error e => .error e
    | .ok (s, b) => (next b).eval s

/-- A single step does what it writes. -/
@[simp] theorem eval_write (f : σ → Except ε (σ × α)) (s : σ) : (write f).eval s = f s := by
  unfold write eval
  cases f s <;> rfl

/-- A result does nothing. -/
@[simp] theorem eval_pure (a : α) (s : σ) : (pure a : Tx σ ε α).eval s = .ok (s, a) := rfl

/-- One transaction after another does what they do, each on what the one before it wrote. -/
@[simp] theorem eval_bind (t : Tx σ ε α) (k : α → Tx σ ε β) (s : σ) :
    (t >>= k).eval s = t.eval s >>= fun r => (k r.2).eval r.1 := by
  induction t generalizing s with
  | done a => rfl
  | step write next ih =>
    show (Tx.step write fun b => next b >>= k).eval s = _
    simp only [eval]
    cases write s with
    | error e => rfl
    | ok r => exact ih r.2 r.1

/-- The steps from number `n` on: the working copies, and the last one with the result. -/
def run (faults : Faults σ ε) (n : ℕ) (t : Tx σ ε α) (s : σ) : List σ × Except ε (σ × α) :=
  match t with
  | .done a => ([], .ok (s, a))
  | .step write next => match faults.error n, write s with
    | some e, _ => ([faults.leftover n s], .error e)
    | none, .error e => ([faults.leftover n s], .error e)
    | none, .ok (s, b) =>
      let rest := (next b).run faults (n + 1) s
      (s :: rest.1, rest.2)

/-- The execution of a transaction on a state. A transaction that is dropped is rolled back. -/
def transact (faults : Faults σ ε) (t : Tx σ ε α) (s : σ) : Execution σ ε α :=
  match faults.error 0 with
  | some e => ⟨.error e, [], ⟨s, none⟩⟩
  | none =>
    let (copies, outcome) := t.run faults 1 s
    let visited := (s :: copies).map fun copy => ⟨s, some copy⟩
    match outcome, faults.error (copies.length + 1) with
    | .error e, _ => ⟨.error e, visited, ⟨s, none⟩⟩
    | .ok _, some e => ⟨.error e, visited, ⟨s, none⟩⟩
    | .ok (working, a), none => ⟨.ok a, visited, ⟨working, none⟩⟩

/-- Steps that succeed did what they do if nothing goes wrong, and nothing did. -/
theorem run_ok {faults : Faults σ ε} {n : ℕ} {t : Tx σ ε α} {s : σ} {copies : List σ} {r : σ × α}
    (h : t.run faults n s = (copies, .ok r)) :
    t.eval s = .ok r ∧ ∀ i < copies.length, faults.error (n + i) = none := by
  induction t generalizing n s copies with
  | done a =>
    obtain ⟨rfl, hr⟩ := Prod.mk.inj h
    exact ⟨hr, fun i hi => absurd hi (Nat.not_lt_zero i)⟩
  | step write next ih =>
    unfold run at h
    -- The write happens if no fault is due here.
    cases hfault : faults.error n with
    | some e => simp [hfault] at h
    | none =>
      cases hwrite : write s with
      | error e => simp [hfault, hwrite] at h
      | ok result =>
        obtain ⟨s', b⟩ := result
        simp only [hfault, hwrite, Prod.mk.injEq] at h
        obtain ⟨rfl, hr⟩ := h
        obtain ⟨heval, hrest⟩ := ih b (Prod.ext rfl hr)
        constructor
        · simp only [eval, hwrite, heval]
        -- The faults of the rest are counted from the next write on.
        · intro i hi
          cases i with
          | zero => exact hfault
          | succ i =>
            have hi : i < ((next b).run faults (n + 1) s').1.length := Nat.lt_of_succ_lt_succ hi
            rw [show n + (i + 1) = n + 1 + i by omega]
            exact hrest i hi

/-- Other connections read the old state until the end. If the transaction fails they read it
after the end as well. If it succeeds none of its steps failed, and they read what all of them
wrote. -/
theorem transact_atomic (faults : Faults σ ε) (t : Tx σ ε α) (s : σ) :
    (∀ c ∈ (t.transact faults s).visited, c.committed = s) ∧
    (∀ e, (t.transact faults s).result = .error e → (t.transact faults s).final = ⟨s, none⟩) ∧
    ∀ a, (t.transact faults s).result = .ok a →
      (∀ n < (t.transact faults s).visited.length + 1, faults.error n = none) ∧
      t.eval s = .ok ((t.transact faults s).final.committed, a) := by
  have hvisited : ∀ (copies : List σ),
      ∀ c ∈ (s :: copies).map fun copy => (⟨s, some copy⟩ : Connection σ), c.committed = s := by
    intro copies c hc
    obtain ⟨copy, -, rfl⟩ := List.mem_map.mp hc
    rfl
  unfold transact
  -- Beginning, running and committing can each fail, and only the last one changes the store.
  cases hbegin : faults.error 0 with
  | some e => simp
  | none =>
    dsimp only
    cases hrun : t.run faults 1 s with
    | mk copies outcome =>
      cases outcome with
      | error e =>
        dsimp only
        exact ⟨hvisited copies, fun _ _ => rfl, fun a ha => absurd ha (by simp)⟩
      | ok r =>
        obtain ⟨working, a⟩ := r
        obtain ⟨heval, hsteps⟩ := run_ok hrun
        cases hcommit : faults.error (copies.length + 1) with
        | some e =>
          dsimp only
          exact ⟨hvisited copies, fun _ _ => rfl, fun a ha => absurd ha (by simp)⟩
        | none =>
          dsimp only
          refine ⟨hvisited copies, fun e he => absurd he (by simp), fun a' ha => ⟨?_, ?_⟩⟩
          · intro n hn
            rw [List.length_map, List.length_cons] at hn
            -- The faults are counted from the beginning of the transaction to its commit.
            by_cases hfirst : n = 0
            · rw [hfirst, hbegin]
            by_cases hlast : n = copies.length + 1
            · rw [hlast, hcommit]
            rw [show n = 1 + (n - 1) by omega]
            exact hsteps (n - 1) (by omega)
          · rw [heval, ← Except.ok.inj ha]

end Tx

end Tellodb.Relational
