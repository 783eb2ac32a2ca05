import Mathlib.Data.List.Basic

/-!
# Runs whose steps meet a condition

A run folds a step function over a list of actions. `EachStep step C s actions` says that every
action meets the condition `C` in the state it finds, and `EachStep.invariant` is the run rule:
what a step under the condition preserves holds in the last state if it holds in the first. A part
of a run that starts at its beginning is itself such a run (`EachStep.append`), so the rule speaks
about every state reached. `turns` lists the actions with the states that they find, and
`reads_foldl_iff` says what can be read after a run where what each action adds is known. -/

namespace Tellodb.Relational

variable {σ α : Type*} {step : σ → α → σ} {C : σ → α → Prop} {s : σ}

/-- Every action of a run meets the condition in the state it finds. -/
def EachStep (step : σ → α → σ) (C : σ → α → Prop) (s : σ) (actions : List α) : Prop :=
  ∀ before a after, actions = before ++ a :: after → C (before.foldl step s) a

namespace EachStep

/-- A run without actions. -/
theorem nil : EachStep step C s [] :=
  fun before _ _ h => absurd h.symm (by simp)

/-- The first action, and the run after it. -/
theorem cons_iff {a : α} {rest : List α} :
    EachStep step C s (a :: rest) ↔ C s a ∧ EachStep step C (step s a) rest := by
  constructor
  · refine fun h => ⟨h [] a rest rfl, fun before b after hsplit => ?_⟩
    exact h (a :: before) b after (by rw [hsplit]; rfl)
  · rintro ⟨hfirst, hrest⟩ before b after hsplit
    rcases List.cons_eq_append_iff.mp hsplit with ⟨rfl, heq⟩ | ⟨before, rfl, heq⟩
    · obtain ⟨rfl, rfl⟩ := List.cons.inj heq
      exact hfirst
    · exact hrest before b after heq

/-- A run in two parts. -/
theorem append {first second : List α} (h : EachStep step C s (first ++ second)) :
    EachStep step C s first ∧ EachStep step C (first.foldl step s) second := by
  constructor
  · intro before a after hsplit
    exact h before a (after ++ second) (by rw [hsplit]; simp)
  · intro before a after hsplit
    rw [← List.foldl_append]
    exact h (first ++ before) a after (by rw [hsplit]; simp)

/-- A weaker condition is met as well. -/
theorem mono {D : σ → α → Prop} {actions : List α} (h : EachStep step C s actions)
    (hCD : ∀ s a, C s a → D s a) : EachStep step D s actions :=
  fun before a after hsplit => hCD _ _ (h before a after hsplit)

/-- A condition on a part of the state is met in the run of that part. -/
theorem of_part {ρ : Type*} (part : σ → ρ) {stepPart : ρ → α → ρ} {D : ρ → α → Prop}
    {actions : List α} (h : EachStep step C s actions)
    (hstep : ∀ s a, part (step s a) = stepPart (part s) a) (hCD : ∀ s a, C s a → D (part s) a) :
    EachStep stepPart D (part s) actions := by
  induction actions generalizing s with
  | nil => exact nil
  | cons a rest ih =>
    rw [cons_iff] at h ⊢
    rw [← hstep]
    exact ⟨hCD s a h.1, ih h.2⟩

/-- What every step under the condition preserves holds at the end of the run. -/
theorem invariant {I : σ → Prop} {actions : List α} (h : EachStep step C s actions)
    (hstep : ∀ s a, I s → C s a → I (step s a)) (hs : I s) : I (actions.foldl step s) := by
  induction actions generalizing s with
  | nil => exact hs
  | cons a rest ih =>
    obtain ⟨hfirst, hrest⟩ := cons_iff.mp h
    exact ih hrest (hstep s a hs hfirst)

end EachStep

/-! ## Turns -/

/-- The actions of a run, each with the state that it finds. -/
def turns (step : σ → α → σ) : σ → List α → List (σ × α)
  | _, [] => []
  | s, a :: rest => (s, a) :: turns step (step s a) rest

/-- Each action has its turn, in order. -/
theorem map_snd_turns (actions : List α) : (turns step s actions).map Prod.snd = actions := by
  induction actions generalizing s with
  | nil => rfl
  | cons a rest ih => exact congrArg (a :: ·) ih

/-- What can be read after a run was there before it or was added at a turn, if that is so for each
action. -/
theorem reads_foldl_iff {reads : σ → Prop} {adds : σ → α → Prop} {actions : List α}
    (h : ∀ a ∈ actions, ∀ s, reads (step s a) ↔ reads s ∨ adds s a) :
    reads (actions.foldl step s) ↔
      reads s ∨ ∃ turn ∈ turns step s actions, adds turn.1 turn.2 := by
  induction actions generalizing s with
  | nil => simp [turns]
  | cons a rest ih =>
    have hfirst := h a List.mem_cons_self s
    have hrest := ih (s := step s a) fun b hb => h b (List.mem_cons_of_mem _ hb)
    rw [List.foldl_cons, hrest, hfirst, turns]
    simp only [List.mem_cons, exists_eq_or_imp, or_assoc]

/-- What can be read after a turn can be read at the end, if no action takes it away. -/
theorem reads_of_turn {reads : σ → Prop} {actions : List α}
    (h : ∀ a ∈ actions, ∀ s, reads s → reads (step s a)) {turn : σ × α}
    (hturn : turn ∈ turns step s actions) (hreads : reads (step turn.1 turn.2)) :
    reads (actions.foldl step s) := by
  induction actions generalizing s with
  | nil => exact absurd hturn List.not_mem_nil
  | cons a rest ih =>
    have hkept := fun b hb => h b (List.mem_cons_of_mem a hb)
    rcases List.mem_cons.mp hturn with rfl | hturn
    · exact List.foldlRecOn rest step hreads fun s hs b hb => hkept b hb s hs
    · exact ih hkept hturn

/-- What an element establishes, and those after it keep, holds after a fold. -/
theorem foldl_of_split {P : σ → Prop} {before after : List α} {a : α} (s : σ)
    (hestablishes : ∀ s, P (step s a)) (hkeep : ∀ b ∈ after, ∀ s, P s → P (step s b)) :
    P ((before ++ a :: after).foldl step s) := by
  rw [List.foldl_append, List.foldl_cons]
  have hkept : ∀ (rest : List α) (s : σ), rest ⊆ after → P s → P (rest.foldl step s) := by
    intro rest
    induction rest with
    | nil => exact fun _ _ hs => hs
    | cons b rest ih =>
      intro s hrest hs
      have hb : b ∈ after := hrest List.mem_cons_self
      exact ih _ (fun c hc => hrest (List.mem_cons_of_mem _ hc)) (hkeep b hb s hs)
  exact hkept after _ (fun _ hb => hb) (hestablishes _)

/-- A decidable condition can be checked along a run. -/
def decidableEachStep (step : σ → α → σ) (C : σ → α → Prop) [∀ s a, Decidable (C s a)] (s : σ) :
    (actions : List α) → Decidable (EachStep step C s actions)
  | [] => .isTrue .nil
  | a :: rest =>
    have := decidableEachStep step C (step s a) rest
    decidable_of_iff (C s a ∧ EachStep step C (step s a) rest) EachStep.cons_iff.symm

instance [∀ s a, Decidable (C s a)] (actions : List α) :
    Decidable (EachStep step C s actions) :=
  decidableEachStep step C s actions

/-- A fold that puts out a list next to its state puts out the same after what is there already. -/
theorem foldl_emit {β : Type*} {step : σ × List β → α → σ × List β}
    (hstep : ∀ s out a, step (s, out) a = ((step (s, []) a).1, out ++ (step (s, []) a).2))
    (actions : List α) (s : σ) (out : List β) :
    actions.foldl step (s, out) =
      ((actions.foldl step (s, [])).1, out ++ (actions.foldl step (s, [])).2) := by
  induction actions generalizing s out with
  | nil => simp
  | cons a rest ih =>
    rw [List.foldl_cons, List.foldl_cons, hstep s out a, ih, ih _ (step (s, []) a).2,
      List.append_assoc]

/-! ## Sequences that may fail -/

/-- The rest of a sequence after a step that succeeds. -/
theorem ok_bind {α β : Type} (a : α) (f : α → Except String β) : (Except.ok a >>= f) = f a := rfl

/-- A sequence that succeeds succeeds in its first part. -/
theorem exists_of_bind {ε α β : Type} {x : Except ε α} {f : α → Except ε β} {b : β}
    (h : x >>= f = .ok b) : ∃ a, x = .ok a ∧ f a = .ok b := by
  cases x with
  | error e => exact absurd h (by simp [bind, Except.bind])
  | ok a => exact ⟨a, rfl, h⟩

/-- A sequence over a list that succeeds succeeds at each element. -/
theorem exists_of_mapM {α β : Type} {f : α → Except String β} {l : List α} {ys : List β}
    (h : l.mapM f = .ok ys) : ∀ x ∈ l, ∃ y, f x = .ok y := by
  induction l generalizing ys with
  | nil => simp
  | cons a rest ih =>
    rw [List.mapM_cons] at h
    obtain ⟨y, hy, h⟩ := exists_of_bind h
    obtain ⟨ys', hys, -⟩ := exists_of_bind h
    intro x hx
    rcases List.mem_cons.mp hx with rfl | hx
    · exact ⟨y, hy⟩
    · exact ih hys x hx

/-- A sequence over a list that succeeds at each element gives the list of the values. -/
theorem mapM_eq_ok {α β : Type} {f : α → Except String β} {g : α → β} {l : List α}
    (h : ∀ x ∈ l, f x = .ok (g x)) : l.mapM f = .ok (l.map g) := by
  induction l with
  | nil => rfl
  | cons a rest ih =>
    rw [List.mapM_cons, h a List.mem_cons_self, ih fun x hx => h x (List.mem_cons_of_mem _ hx)]
    rfl

/-- A sequence whose steps each give one value if they succeed gives these values. -/
theorem mapM_eq_map {α β ε : Type} {f : α → Except ε β} {g : α → β} {l : List α} {ys : List β}
    (hf : ∀ x ∈ l, ∀ y, f x = .ok y → y = g x) (h : l.mapM f = .ok ys) : ys = l.map g := by
  induction l generalizing ys with
  | nil =>
    rw [← Except.ok.inj h]
    rfl
  | cons x rest ih =>
    rw [List.mapM_cons] at h
    cases hx : f x with
    | error e =>
      rw [hx] at h
      exact absurd h (by simp [bind, Except.bind])
    | ok y =>
      cases hrest : rest.mapM f with
      | error e =>
        rw [hx, hrest] at h
        exact absurd h (by simp [bind, Except.bind])
      | ok zs =>
        rw [hx, hrest] at h
        rw [← Except.ok.inj h, hf x List.mem_cons_self y hx,
          ih (fun z hz => hf z (List.mem_cons_of_mem _ hz)) hrest]
        rfl

end Tellodb.Relational
