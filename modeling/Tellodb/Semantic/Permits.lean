import Tellodb.Collections.Weighed

/-!
# Compute permits

`ComputePermits` of `semantic.rs`, the counting semaphore that bounds how many threads embed or
rerank at a time: a counter under a mutex, with a condition variable. A thread that finds the
counter at zero gives up the mutex and sleeps until `notify_one` picks it; it then takes the mutex
again and looks again, and another thread may have taken the permit in between. The threads run in
any order, and `notify_one` picks any thread that sleeps.

Two invariants carry the result. The permits that are left and those that are out add up to all of
them. And if a thread sleeps, every permit that is left has a thread under way that will look at the
counter or wake somebody (`Watched`). So no permit stays unused while a thread asks for one
(`guards_of_settled`). -/

namespace Tellodb

open Collections

/-! ## The code -/

/-- Where a thread is between its call of `acquire` and the end of the drop of its guard. -/
inductive PermitStage where
  /-- In `acquire`, before it has the mutex. -/
  | entering
  /-- At the test of the loop of `acquire`, with the mutex. -/
  | testing
  /-- Asleep in `wait`, without the mutex. -/
  | waiting
  /-- Woken in `wait`, before it has the mutex again. -/
  | woken
  /-- Out of `acquire`, with a guard. -/
  | guarded
  /-- In `drop`, before it has the mutex. -/
  | dropping
  /-- In `drop`, with the mutex, before the counter goes up. -/
  | releasing
  /-- In `drop`, after the mutex is given up, before `notify_one`. -/
  | notifying
  /-- The guard is dropped. -/
  | finished
  deriving DecidableEq

/-- `ComputePermits` and the threads that have called `acquire`. -/
structure ComputePermits where
  available : ℕ
  /-- Whether a thread has the mutex. -/
  locked : Bool
  threads : List PermitStage
  deriving DecidableEq

/-- `ComputePermits::new` -/
def ComputePermits.new (permits : ℕ) : ComputePermits :=
  { available := max permits 1, locked := false, threads := [] }

/-- A step of one of the threads. -/
inductive PermitStep where
  /-- A new call of `acquire`. -/
  | acquire
  /-- The guard of a thread goes out of scope. -/
  | drop (thread : ℕ)
  /-- A thread goes on by itself. -/
  | proceed (thread : ℕ)
  /-- A thread calls `notify_one`, which picks a thread that sleeps. -/
  | notifyOne (thread sleeper : ℕ)
  deriving DecidableEq

/-- The steps that threads in `acquire` and `drop` take, which nobody has to wait for. -/
def PermitStep.isOwn : PermitStep → Bool
  | .acquire => false
  | .drop _ => false
  | .proceed _ => true
  | .notifyOne _ _ => true

/-- A thread is somewhere else. -/
def ComputePermits.move (s : ComputePermits) (thread : ℕ) (stage : PermitStage) : ComputePermits :=
  { s with threads := s.threads.set thread stage }

/-- A thread takes the mutex if nobody has it. -/
def ComputePermits.lock (s : ComputePermits) (thread : ℕ) (stage : PermitStage) :
    Option ComputePermits :=
  if s.locked then none else some { s.move thread stage with locked := true }

/-- What a thread does next. -/
def ComputePermits.proceed (s : ComputePermits) (thread : ℕ) : PermitStage → Option ComputePermits
  | .entering => s.lock thread .testing
  | .woken => s.lock thread .testing
  | .testing =>
    if s.available = 0 then some { s.move thread .waiting with locked := false }
    else some { s.move thread .guarded with available := s.available - 1, locked := false }
  | .dropping => s.lock thread .releasing
  | .releasing =>
    some { s.move thread .notifying with available := s.available + 1, locked := false }
  -- `notify_one` wakes nobody only if nobody sleeps.
  | .notifying => if .waiting ∈ s.threads then none else some (s.move thread .finished)
  | .waiting => none
  | .guarded => none
  | .finished => none

/-- A step, where it can be taken. -/
def ComputePermits.step (s : ComputePermits) : PermitStep → Option ComputePermits
  | .acquire => some { s with threads := s.threads ++ [.entering] }
  | .drop thread =>
    if s.threads[thread]? = some .guarded then some (s.move thread .dropping) else none
  | .proceed thread => s.threads[thread]?.bind (s.proceed thread)
  | .notifyOne thread sleeper =>
    if s.threads[thread]? = some .notifying ∧ s.threads[sleeper]? = some .waiting then
      some ((s.move thread .finished).move sleeper .woken)
    else none

/-- The steps of a run, one after the other. -/
def ComputePermits.run (s : ComputePermits) (steps : List PermitStep) : Option ComputePermits :=
  steps.foldlM ComputePermits.step s

/-! ## Steps -/

/-- What a step can do, with what it finds. -/
inductive ComputePermits.Stepped (s : ComputePermits) : PermitStep → ComputePermits → Prop
  | acquire : Stepped s .acquire { s with threads := s.threads ++ [.entering] }
  | drop {t : ℕ} (h : s.threads[t]? = some .guarded) : Stepped s (.drop t) (s.move t .dropping)
  | enter {t : ℕ} (h : s.threads[t]? = some .entering) (hfree : s.locked = false) :
    Stepped s (.proceed t) { s.move t .testing with locked := true }
  | again {t : ℕ} (h : s.threads[t]? = some .woken) (hfree : s.locked = false) :
    Stepped s (.proceed t) { s.move t .testing with locked := true }
  | sleep {t : ℕ} (h : s.threads[t]? = some .testing) (hnone : s.available = 0) :
    Stepped s (.proceed t) { s.move t .waiting with locked := false }
  | take {t : ℕ} (h : s.threads[t]? = some .testing) (hsome : s.available ≠ 0) :
    Stepped s (.proceed t)
      { s.move t .guarded with available := s.available - 1, locked := false }
  | giveBack {t : ℕ} (h : s.threads[t]? = some .dropping) (hfree : s.locked = false) :
    Stepped s (.proceed t) { s.move t .releasing with locked := true }
  | release {t : ℕ} (h : s.threads[t]? = some .releasing) :
    Stepped s (.proceed t)
      { s.move t .notifying with available := s.available + 1, locked := false }
  | wakeNobody {t : ℕ} (h : s.threads[t]? = some .notifying) (hnone : .waiting ∉ s.threads) :
    Stepped s (.proceed t) (s.move t .finished)
  | wake {t u : ℕ} (h : s.threads[t]? = some .notifying) (hu : s.threads[u]? = some .waiting) :
    Stepped s (.notifyOne t u) ((s.move t .finished).move u .woken)

section

variable {s s' : ComputePermits} {a : PermitStep} {n : ℕ}

/-- A thread gets the lock only if it is free. -/
theorem ComputePermits.lock_eq_some {t : ℕ} {stage : PermitStage}
    (h : s.lock t stage = some s') :
    s.locked = false ∧ s' = { s.move t stage with locked := true } := by
  unfold ComputePermits.lock at h
  by_cases hlocked : s.locked = true
  · rw [if_pos hlocked] at h
    exact absurd h (by simp)
  · rw [if_neg hlocked, Option.some.injEq] at h
    exact ⟨Bool.eq_false_iff.mpr hlocked, h.symm⟩

/-- A thread that goes on by itself. -/
theorem ComputePermits.stepped_of_proceed {t : ℕ} {stage : PermitStage}
    (ht : s.threads[t]? = some stage) (h : s.proceed t stage = some s') :
    s.Stepped (.proceed t) s' := by
  -- The stages in which a thread can proceed, each with the lock that it needs.
  cases stage with
  | entering =>
    obtain ⟨hfree, rfl⟩ := ComputePermits.lock_eq_some h
    exact .enter ht hfree
  | woken =>
    obtain ⟨hfree, rfl⟩ := ComputePermits.lock_eq_some h
    exact .again ht hfree
  | testing =>
    unfold ComputePermits.proceed at h
    -- The permit is taken if there is one, and the thread sleeps otherwise.
    by_cases hnone : s.available = 0
    · rw [if_pos hnone, Option.some.injEq] at h
      exact h ▸ .sleep ht hnone
    · rw [if_neg hnone, Option.some.injEq] at h
      exact h ▸ .take ht hnone
  | dropping =>
    obtain ⟨hfree, rfl⟩ := ComputePermits.lock_eq_some h
    exact .giveBack ht hfree
  | releasing =>
    have hs' := Option.some.inj h
    exact hs' ▸ .release ht
  | notifying =>
    unfold ComputePermits.proceed at h
    -- A waker that finds somebody asleep has to choose.
    by_cases hasleep : .waiting ∈ s.threads
    · rw [if_pos hasleep] at h
      exact absurd h (by simp)
    · rw [if_neg hasleep, Option.some.injEq] at h
      exact h ▸ .wakeNobody ht hasleep
  | waiting => exact absurd h (by simp [ComputePermits.proceed])
  | guarded => exact absurd h (by simp [ComputePermits.proceed])
  | finished => exact absurd h (by simp [ComputePermits.proceed])

/-- A step does what its label says. -/
theorem ComputePermits.stepped_of_step (h : s.step a = some s') : s.Stepped a s' := by
  cases a with
  | acquire =>
    have hs' := Option.some.inj h
    exact hs' ▸ .acquire
  | drop t =>
    simp only [ComputePermits.step] at h
    by_cases ht : s.threads[t]? = some .guarded
    · rw [if_pos ht, Option.some.injEq] at h
      exact h ▸ .drop ht
    · rw [if_neg ht] at h
      exact absurd h (by simp)
  | proceed t =>
    obtain ⟨stage, ht, h⟩ := Option.bind_eq_some_iff.mp h
    exact ComputePermits.stepped_of_proceed ht h
  | notifyOne t u =>
    simp only [ComputePermits.step] at h
    by_cases hboth : s.threads[t]? = some .notifying ∧ s.threads[u]? = some .waiting
    · rw [if_pos hboth, Option.some.injEq] at h
      exact h ▸ .wake hboth.1 hboth.2
    · rw [if_neg hboth] at h
      exact absurd h (by simp)

/-- The weight of the threads after a thread has moved on. -/
theorem ComputePermits.weigh_move (w : PermitStage → ℕ) {t : ℕ} {stage : PermitStage}
    (h : s.threads[t]? = some stage) (stage' : PermitStage) :
    weigh w (s.move t stage').threads + w stage = weigh w s.threads + w stage' :=
  weigh_set w h stage'

/-- The weight of the threads after `notify_one` has woken one. -/
theorem ComputePermits.weigh_wake (w : PermitStage → ℕ) {t u : ℕ}
    (h : s.threads[t]? = some .notifying) (hu : s.threads[u]? = some .waiting) :
    weigh w ((s.move t .finished).move u .woken).threads + w .notifying + w .waiting =
      weigh w s.threads + w .finished + w .woken := by
  have htu : t ≠ u := by
    rintro rfl
    exact absurd (h.symm.trans hu) (by decide)
  have hu' : (s.move t .finished).threads[u]? = some .waiting := by
    unfold ComputePermits.move
    rw [List.getElem?_set_ne htu]
    exact hu
  have hfirst := ComputePermits.weigh_move w h .finished
  have hsecond := ComputePermits.weigh_move w hu' .woken
  omega

/-! ## Invariants -/

/-- A permit is with the thread. -/
def PermitStage.hasPermit : PermitStage → ℕ
  | .guarded => 1
  | .dropping => 1
  | .releasing => 1
  | _ => 0

/-- The mutex is with the thread. -/
def PermitStage.hasMutex : PermitStage → ℕ
  | .testing => 1
  | .releasing => 1
  | _ => 0

/-- The thread sleeps. -/
def PermitStage.isAsleep : PermitStage → ℕ
  | .waiting => 1
  | _ => 0

/-- The thread will look at the counter, or wake a thread that will. -/
def PermitStage.isLooking : PermitStage → ℕ
  | .testing => 1
  | .woken => 1
  | .notifying => 1
  | _ => 0

/-- The invariants of the permits. -/
structure ComputePermits.Kept (n : ℕ) (s : ComputePermits) : Prop where
  /-- No permit is lost, and none is given out twice. -/
  permits : s.available + weigh PermitStage.hasPermit s.threads = n
  /-- At most one thread has the mutex. -/
  mutex : weigh PermitStage.hasMutex s.threads = s.locked.toNat
  /-- While a thread sleeps, every permit that is left has a thread that will look after it. -/
  watched : weigh PermitStage.isAsleep s.threads = 0 ∨
    s.available ≤ weigh PermitStage.isLooking s.threads

/-- The permits are kept at first. -/
theorem ComputePermits.kept_new (permits : ℕ) :
    (ComputePermits.new permits).Kept (max permits 1) :=
  ⟨rfl, rfl, .inl rfl⟩

/-- A thread that moves on keeps the invariants if it accounts for what it does to the counter and
to the mutex. -/
theorem ComputePermits.Kept.moved (h : s.Kept n) {t : ℕ} {p : PermitStage}
    (ht : s.threads[t]? = some p) (q : PermitStage) {k : ℕ} {l : Bool}
    (hpermits : k + q.hasPermit = s.available + p.hasPermit)
    (hmutex : l.toNat + p.hasMutex = s.locked.toNat + q.hasMutex)
    (hwatched : k = 0 ∨ q.isAsleep = 0 ∧
      (k + p.isLooking ≤ s.available + q.isLooking ∨ weigh PermitStage.isAsleep s.threads = 0)) :
    ({ s.move t q with available := k, locked := l } : ComputePermits).Kept n := by
  have hw := fun w => ComputePermits.weigh_move w ht q
  have h1 := hw PermitStage.hasPermit
  have h2 := hw PermitStage.hasMutex
  have h3 := hw PermitStage.isAsleep
  have h4 := hw PermitStage.isLooking
  obtain ⟨hp, hm, hd⟩ := h
  refine ⟨?_, ?_, ?_⟩
  · dsimp only
    omega
  · dsimp only
    omega
  · dsimp only
    omega

/-- A thread that has the mutex is the one for which it is locked. -/
theorem ComputePermits.Kept.locked_of_hasMutex (h : s.Kept n) {t : ℕ} {p : PermitStage}
    (ht : s.threads[t]? = some p) (hp : p.hasMutex = 1) : s.locked.toNat = 1 := by
  have hle := le_weigh PermitStage.hasMutex (List.mem_of_getElem? ht)
  have hbit := Bool.toNat_le s.locked
  rw [h.mutex, hp] at hle
  omega

/-- Every step keeps the invariants. -/
theorem ComputePermits.Kept.step (h : s.Kept n) (hstep : s.step a = some s') : s'.Kept n := by
  -- Every move keeps the sum of the permits and that of the locks.
  cases ComputePermits.stepped_of_step hstep with
  | acquire =>
    obtain ⟨hpermits, hmutex, hwatched⟩ := h
    refine ⟨?_, ?_, ?_⟩ <;>
      simpa [PermitStage.hasPermit, PermitStage.hasMutex, PermitStage.isAsleep,
        PermitStage.isLooking]
  | drop ht => exact h.moved ht .dropping rfl rfl (.inr ⟨rfl, .inl le_rfl⟩)
  | enter ht hfree =>
    have hmutex : (true : Bool).toNat + 0 = s.locked.toNat + 1 := by rw [hfree]; rfl
    exact h.moved ht .testing rfl hmutex (.inr ⟨rfl, .inl (Nat.le_succ _)⟩)
  | again ht hfree =>
    have hmutex : (true : Bool).toNat + 0 = s.locked.toNat + 1 := by rw [hfree]; rfl
    exact h.moved ht .testing rfl hmutex (.inr ⟨rfl, .inl le_rfl⟩)
  | sleep ht hnone =>
    have hmutex : (false : Bool).toNat + 1 = s.locked.toNat + 0 := by
      rw [h.locked_of_hasMutex ht rfl]; rfl
    exact h.moved ht .waiting rfl hmutex (.inl hnone)
  | take ht hsome =>
    have hpermits : s.available - 1 + 1 = s.available + 0 := by omega
    have hmutex : (false : Bool).toNat + 1 = s.locked.toNat + 0 := by
      rw [h.locked_of_hasMutex ht rfl]; rfl
    exact h.moved ht .guarded hpermits hmutex (.inr ⟨rfl, .inl hpermits.le⟩)
  | giveBack ht hfree =>
    have hmutex : (true : Bool).toNat + 0 = s.locked.toNat + 1 := by rw [hfree]; rfl
    exact h.moved ht .releasing rfl hmutex (.inr ⟨rfl, .inl le_rfl⟩)
  | release ht =>
    have hmutex : (false : Bool).toNat + 1 = s.locked.toNat + 0 := by
      rw [h.locked_of_hasMutex ht rfl]; rfl
    exact h.moved ht .notifying rfl hmutex (.inr ⟨rfl, .inl le_rfl⟩)
  | wakeNobody ht hnone =>
    -- Nobody is asleep, so nobody has to be looking.
    have hasleep : weigh PermitStage.isAsleep s.threads = 0 := by
      refine (weigh_eq_zero _).mpr fun stage hstage => ?_
      cases stage with
      | waiting => exact absurd hstage hnone
      | _ => rfl
    exact h.moved ht .finished rfl rfl (.inr ⟨rfl, .inr hasleep⟩)
  | wake ht hu =>
    -- The waker and the woken change places, and the sums stay the same.
    have hw := fun w => ComputePermits.weigh_wake w ht hu
    have h1 := hw PermitStage.hasPermit
    have h2 := hw PermitStage.hasMutex
    have h3 := hw PermitStage.isAsleep
    have h4 := hw PermitStage.isLooking
    simp only [PermitStage.hasPermit, PermitStage.hasMutex, PermitStage.isAsleep,
      PermitStage.isLooking, Nat.add_zero] at h1 h2 h3 h4
    obtain ⟨hpermits, hmutex, hwatched⟩ := h
    refine ⟨?_, ?_, ?_⟩
    · exact h1.symm ▸ hpermits
    · exact h2.symm ▸ hmutex
    · simp only [ComputePermits.move] at h3 h4 ⊢
      omega

/-- Every run from new permits keeps the invariants. -/
theorem ComputePermits.Kept.run {steps : List PermitStep} (h : s.Kept n)
    (hrun : s.run steps = some s') : s'.Kept n := by
  induction steps generalizing s with
  | nil =>
    have hs' := Option.some.inj hrun
    exact hs' ▸ h
  | cons a rest ih =>
    obtain ⟨next, hnext, hrest⟩ := Option.bind_eq_some_iff.mp hrun
    exact ih (h.step hnext) hrest

/-! ## What threads do by themselves -/

/-- The steps a thread in `acquire` or `drop` has left, at most. -/
def PermitStage.work : PermitStage → ℕ
  | .entering => 3
  | .testing => 2
  | .waiting => 1
  | .woken => 3
  | .guarded => 0
  | .dropping => 5
  | .releasing => 4
  | .notifying => 3
  | .finished => 0

/-- The thread asks for a permit, or has a guard. -/
def PermitStage.wants : PermitStage → ℕ
  | .entering => 1
  | .testing => 1
  | .waiting => 1
  | .woken => 1
  | .guarded => 1
  | _ => 0

/-- A step that threads take by themselves leaves less work, and those that want a permit are the
same. -/
theorem ComputePermits.own_step (hown : a.isOwn = true) (hstep : s.step a = some s') :
    weigh PermitStage.work s'.threads < weigh PermitStage.work s.threads ∧
      weigh PermitStage.wants s'.threads = weigh PermitStage.wants s.threads := by
  -- A move of one thread takes away some of its work and none of its wants.
  have hmove : ∀ {t : ℕ} {p : PermitStage} (q : PermitStage), s.threads[t]? = some p →
      q.work < p.work → q.wants = p.wants →
      weigh PermitStage.work (s.move t q).threads < weigh PermitStage.work s.threads ∧
        weigh PermitStage.wants (s.move t q).threads = weigh PermitStage.wants s.threads := by
    intro t p q ht hwork hwants
    have h1 := ComputePermits.weigh_move PermitStage.work ht q
    have h2 := ComputePermits.weigh_move PermitStage.wants ht q
    omega
  cases ComputePermits.stepped_of_step hstep with
  | acquire => exact absurd hown (by decide)
  | drop ht => exact absurd hown Bool.false_ne_true
  | enter ht hfree => exact hmove .testing ht (by decide) rfl
  | again ht hfree => exact hmove .testing ht (by decide) rfl
  | sleep ht hnone => exact hmove .waiting ht (by decide) rfl
  | take ht hsome => exact hmove .guarded ht (by decide) rfl
  | giveBack ht hfree => exact hmove .releasing ht (by decide) rfl
  | release ht => exact hmove .notifying ht (by decide) rfl
  | wakeNobody ht hnone => exact hmove .finished ht (by decide) rfl
  | wake ht hu =>
    have h1 := ComputePermits.weigh_wake PermitStage.work ht hu
    have h2 := ComputePermits.weigh_wake PermitStage.wants ht hu
    simp only [PermitStage.work, PermitStage.wants] at h1 h2
    omega

/-- A run of such steps is no longer than the work, and those that want a permit are the same. -/
theorem ComputePermits.own_run {steps : List PermitStep} (hown : ∀ a ∈ steps, a.isOwn = true)
    (hrun : s.run steps = some s') :
    steps.length + weigh PermitStage.work s'.threads ≤ weigh PermitStage.work s.threads ∧
      weigh PermitStage.wants s'.threads = weigh PermitStage.wants s.threads := by
  induction steps generalizing s with
  | nil =>
    have hs' := Option.some.inj hrun
    subst hs'
    exact ⟨(Nat.zero_add _).le, rfl⟩
  | cons a rest ih =>
    obtain ⟨next, hnext, hrest⟩ := Option.bind_eq_some_iff.mp hrun
    obtain ⟨hless, hsame⟩ := ComputePermits.own_step (hown a List.mem_cons_self) hnext
    obtain ⟨hlength, hwants⟩ := ih (fun b hb => hown b (List.mem_cons_of_mem a hb)) hrest
    rw [List.length_cons]
    exact ⟨by omega, hwants.trans hsame⟩

/-- No thread can go on by itself. -/
def ComputePermits.Settled (s : ComputePermits) : Prop :=
  ∀ a : PermitStep, a.isOwn = true → s.step a = none

/-- The threads that have a guard. -/
def ComputePermits.guards (s : ComputePermits) : ℕ :=
  s.threads.count .guarded

/-- The threads that have a guard or are in `acquire`. -/
def ComputePermits.callers (s : ComputePermits) : ℕ :=
  weigh PermitStage.wants s.threads

/-- The guards are counted thread by thread. -/
theorem ComputePermits.guards_eq (s : ComputePermits) :
    s.guards = weigh (fun stage => if stage = .guarded then 1 else 0) s.threads := by
  unfold ComputePermits.guards
  induction s.threads with
  | nil => rfl
  | cons stage rest ih =>
    rw [List.count_cons, ih, weigh_cons]
    by_cases hguarded : stage = .guarded
    · simp [hguarded, Nat.add_comm]
    · simp [hguarded]

/-- Where no thread can go on, every thread sleeps, has a guard, or has dropped it. -/
theorem ComputePermits.Settled.stages (h : s.Kept n) (hsettled : s.Settled) :
    ∀ stage ∈ s.threads, stage = .waiting ∨ stage = .guarded ∨ stage = .finished := by
  have hproceed : ∀ {t : ℕ} {stage : PermitStage}, s.threads[t]? = some stage →
      s.proceed t stage = none := by
    intro t stage ht
    have hnone : s.threads[t]?.bind (s.proceed t) = none := hsettled (.proceed t) rfl
    rwa [ht, Option.bind_some] at hnone
  -- A thread with the mutex could go on, so nobody has it.
  have hmutex : weigh PermitStage.hasMutex s.threads = 0 := by
    refine (weigh_eq_zero _).mpr fun stage hstage => ?_
    obtain ⟨t, ht⟩ := List.mem_iff_getElem?.mp hstage
    have hnone := hproceed ht
    cases stage with
    | testing =>
      unfold ComputePermits.proceed at hnone
      by_cases havailable : s.available = 0
      · rw [if_pos havailable] at hnone
        exact absurd hnone (by simp)
      · rw [if_neg havailable] at hnone
        exact absurd hnone (by simp)
    | releasing => exact absurd hnone (by simp [ComputePermits.proceed])
    | _ => rfl
  have hfree : s.locked = false := by
    have hbit := h.mutex.symm.trans hmutex
    cases hlocked : s.locked with
    | false => rfl
    | true => exact absurd hbit (by rw [hlocked]; decide)
  have hlock : ∀ (t : ℕ) (stage : PermitStage), s.lock t stage ≠ none := by
    intro t stage
    unfold ComputePermits.lock
    rw [hfree]
    simp
  intro stage hstage
  obtain ⟨t, ht⟩ := List.mem_iff_getElem?.mp hstage
  have hnone := hproceed ht
  cases stage with
  | waiting => exact .inl rfl
  | guarded => exact .inr (.inl rfl)
  | finished => exact .inr (.inr rfl)
  | entering => exact absurd hnone (hlock t _)
  | woken => exact absurd hnone (hlock t _)
  | dropping => exact absurd hnone (hlock t _)
  | testing => exact absurd ((weigh_eq_zero _).mp hmutex _ hstage) (by decide)
  | releasing => exact absurd ((weigh_eq_zero _).mp hmutex _ hstage) (by decide)
  | notifying =>
    -- If a thread sleeps it can be woken, and if none does the drop is over.
    unfold ComputePermits.proceed at hnone
    by_cases hasleep : .waiting ∈ s.threads
    · obtain ⟨u, hu⟩ := List.mem_iff_getElem?.mp hasleep
      have hwake := hsettled (.notifyOne t u) rfl
      simp only [ComputePermits.step] at hwake
      rw [if_pos ⟨ht, hu⟩] at hwake
      exact absurd hwake (by simp)
    · rw [if_neg hasleep] at hnone
      exact absurd hnone (by simp)

/-- Where no thread can go on, as many have a guard as there are permits, or all that want one. -/
theorem ComputePermits.Kept.guards_settled (h : s.Kept n) (hsettled : s.Settled) :
    s.guards = min n s.callers := by
  have hstages := hsettled.stages h
  have hguards : s.guards = weigh PermitStage.hasPermit s.threads := by
    rw [ComputePermits.guards_eq]
    refine weigh_congr fun stage hstage => ?_
    rcases hstages stage hstage with rfl | rfl | rfl <;> rfl
  -- In a settled state, a caller has a permit or is asleep.
  have hcallers : s.callers =
      weigh PermitStage.hasPermit s.threads + weigh PermitStage.isAsleep s.threads := by
    have hsplit : ∀ stages : List PermitStage,
        (∀ stage ∈ stages, stage = .waiting ∨ stage = .guarded ∨ stage = .finished) →
        weigh PermitStage.wants stages =
          weigh PermitStage.hasPermit stages + weigh PermitStage.isAsleep stages := by
      intro stages
      induction stages with
      | nil => exact fun _ => rfl
      | cons stage rest ih =>
        intro hall
        have hrest := ih fun other hother => hall other (List.mem_cons_of_mem _ hother)
        rw [weigh_cons, weigh_cons, weigh_cons, hrest]
        rcases hall stage List.mem_cons_self with rfl | rfl | rfl <;>
          simp only [PermitStage.wants, PermitStage.hasPermit, PermitStage.isAsleep] <;> omega
    exact hsplit s.threads hstages
  -- Nobody is looking, so those asleep find no permit.
  have hlooking : weigh PermitStage.isLooking s.threads = 0 := by
    refine (weigh_eq_zero _).mpr fun stage hstage => ?_
    rcases hstages stage hstage with rfl | rfl | rfl <;> rfl
  obtain ⟨hpermits, -, hwatched⟩ := h
  rw [hlooking] at hwatched
  omega

end

/-- Threads call `acquire` and drop their guards in any order, and then go on by themselves. Their
steps come to an end, there are never more guards than permits, and where no thread can go on, as
many of the callers have a guard as there are permits: no wake-up is lost. -/
theorem guards_of_settled (permits : ℕ) (steps own : List PermitStep) (s s' : ComputePermits)
    (hrun : (ComputePermits.new permits).run steps = some s)
    (hown : ∀ a ∈ own, a.isOwn = true) (hown_run : s.run own = some s') :
    own.length ≤ 5 * s.threads.length ∧
      s'.guards + s'.available ≤ max permits 1 ∧
      (s'.Settled → s'.guards = min (max permits 1) s.callers) := by
  have hkept := (ComputePermits.kept_new permits).run hrun
  have hkept' := hkept.run hown_run
  obtain ⟨hlength, hwants⟩ := ComputePermits.own_run hown hown_run
  refine ⟨?_, ?_, fun hsettled => ?_⟩
  · have hwork := weigh_le PermitStage.work (c := 5)
      (fun stage => by cases stage <;> decide) s.threads
    omega
  · have hle : s'.guards ≤ weigh PermitStage.hasPermit s'.threads := by
      rw [ComputePermits.guards_eq]
      exact weigh_mono (fun stage => by cases stage <;> decide) s'.threads
    have hpermits := hkept'.permits
    omega
  · rw [hkept'.guards_settled hsettled]
    exact congrArg (min _) hwants

/-- Two threads and one permit: the second sleeps until the first drops its guard. -/
theorem guards_of_settled_two :
    (⟨0, false, [.finished, .guarded]⟩ : ComputePermits).guards = 1 := by
  have hsettled : (⟨0, false, [.finished, .guarded]⟩ : ComputePermits).Settled := by
    intro a hown
    cases a with
    | acquire => exact absurd hown (by decide)
    | drop t => exact absurd hown Bool.false_ne_true
    | proceed t =>
      rcases t with _ | _ | t
      · rfl
      · rfl
      · rfl
    | notifyOne t u =>
      rcases t with _ | _ | t
      · rfl
      · rfl
      · rfl
  have hguards := (guards_of_settled 1
    [.acquire, .acquire, .proceed 0, .proceed 0, .proceed 1, .proceed 1, .drop 0]
    [.proceed 0, .proceed 0, .notifyOne 0 1, .proceed 1, .proceed 1]
    ⟨0, false, [.dropping, .waiting]⟩ ⟨0, false, [.finished, .guarded]⟩
    (by decide) (by decide) (by decide)).2.2 hsettled
  exact hguards

end Tellodb
