import Mathlib.Algebra.Order.Ring.Unbundled.Rat
import Mathlib.Tactic.Linarith
import Mathlib.Tactic.NormNum
import Mathlib.Tactic.Ring
import Tellodb.Relational.Table

/-!
# Rate limiting

A call of `RateLimiter::allow_with` reads the clock, then takes the lock: a run is the list of calls
in the order in which they get the lock, each with its reading, and nothing orders the readings.
`budget` is what a bucket can still let through in an interval; a call whose reading does not go
back spends of it what it lets through (`budget_consume`). A bucket that was pruned and one that was
kept give one answer as long as the kept one stays refilled (`Agree`). -/

namespace Tellodb

open Relational

/-- The rate and the size of a bucket. -/
structure Limits where
  rps : ℚ
  burst : ℚ
  rps_nonneg : 0 ≤ rps
  burst_nonneg : 0 ≤ burst

/-- `RPS_PER_KEY`, `BURST_PER_KEY`. -/
def Limits.perKey : Limits := ⟨20, 80, by norm_num, by norm_num⟩

/-- `RPS_PER_ADDR`, `BURST_PER_ADDR`. -/
def Limits.perAddr : Limits := ⟨50, 200, by norm_num, by norm_num⟩

/-- `RPS_PER_AUTH`, `BURST_PER_AUTH`. -/
def Limits.perAuth : Limits := ⟨1 / 10, 5, by norm_num, by norm_num⟩

/-- The limits under which the callers charge a key: `check_rate_limit` under `addr:` and `key:`,
`check_auth_rate_limit` under `auth:`. -/
def Limits.ofKey (key : String) : Limits :=
  if key.startsWith "addr:" then Limits.perAddr
  else if key.startsWith "auth:" then Limits.perAuth
  else Limits.perKey

/-- A bucket, never overfull and never in debt. -/
structure TokenBucket extends Limits where
  tokens : ℚ
  lastRefill : ℚ
  tokens_nonneg : 0 ≤ tokens
  tokens_le : tokens ≤ burst

namespace TokenBucket

/-- `TokenBucket::new`. -/
def new (now : ℚ) (limits : Limits) : TokenBucket :=
  { limits with
    tokens := limits.burst
    lastRefill := now
    tokens_nonneg := limits.burst_nonneg
    tokens_le := le_rfl }

/-- `now.saturating_duration_since(self.last_refill)`. -/
def elapsed (b : TokenBucket) (now : ℚ) : ℚ :=
  -- A reading can be earlier than that of the call before.
  max 0 (now - b.lastRefill)

/-- No time is negative. -/
theorem elapsed_nonneg (b : TokenBucket) (now : ℚ) : 0 ≤ b.elapsed now :=
  le_max_left _ _

/-- The tokens after a refill. -/
def available (b : TokenBucket) (now : ℚ) : ℚ :=
  min (b.tokens + b.elapsed now * b.rps) b.burst

/-- Neither are the tokens of a bucket. -/
theorem available_nonneg (b : TokenBucket) (now : ℚ) : 0 ≤ b.available now := by
  have hgain : 0 ≤ b.elapsed now * b.rps := mul_nonneg (b.elapsed_nonneg now) b.rps_nonneg
  exact le_min (add_nonneg b.tokens_nonneg hgain) b.burst_nonneg

/-- A bucket never has more tokens than its burst. -/
theorem available_le (b : TokenBucket) (now : ℚ) : b.available now ≤ b.burst :=
  min_le_right _ _

/-- `try_consume`: the bucket after the call, and whether the request fits. -/
def tryConsume (b : TokenBucket) (now : ℚ) : TokenBucket × Bool :=
  if h : 1 ≤ b.available now then
    ({ b with
        tokens := b.available now - 1
        lastRefill := now
        tokens_nonneg := sub_nonneg.mpr h
        tokens_le := (sub_le_self _ zero_le_one).trans (b.available_le now) }, true)
  else
    ({ b with
        tokens := b.available now
        lastRefill := now
        tokens_nonneg := b.available_nonneg now
        tokens_le := b.available_le now }, false)

/-- `is_refilled`. -/
def isRefilled (b : TokenBucket) (now : ℚ) : Bool :=
  b.burst ≤ b.tokens + b.elapsed now * b.rps

end TokenBucket

/-- The map of buckets. -/
abbrev Buckets := Table (Prod.fst : String × TokenBucket → String)

/-- The bucket of a key. -/
def Buckets.get? (buckets : Buckets) (key : String) : Option TokenBucket :=
  (buckets.find? key).map Prod.snd

/-- A call: the key it charges and what it read off the clock before it took the lock. -/
structure RateCall where
  key : String
  now : ℚ
deriving DecidableEq

/-- `PRUNE_THRESHOLD`. -/
def pruneThreshold : ℕ := 4096

/-- The map is full and the call's key has no bucket. -/
def prunes (buckets : Buckets) (call : RateCall) : Bool :=
  pruneThreshold ≤ buckets.rows.length && (buckets.get? call.key).isNone

/-- The `retain` of `allow_with`. -/
def prune (buckets : Buckets) (call : RateCall) : Buckets :=
  -- A bucket that is full again is as good as a new one.
  if prunes buckets call then buckets.deleteWhere fun entry => entry.2.isRefilled call.now
  else buckets

/-- `allow_with` after the prune: the key's bucket, or a new one, is charged. -/
def charge (limits : String → Limits) (buckets : Buckets) (call : RateCall) : Buckets × Bool :=
  -- A new bucket is full.
  let bucket := (buckets.get? call.key).getD (.new call.now (limits call.key))
  (buckets.insertOrReplace (call.key, (bucket.tryConsume call.now).1),
    (bucket.tryConsume call.now).2)

/-- `allow_with`. -/
def allowWith (limits : String → Limits) (buckets : Buckets) (call : RateCall) : Buckets × Bool :=
  charge limits (prune buckets call) call

/-- The decisions of a run, call by call in lock order. -/
def decisions (step : Buckets → RateCall → Buckets × Bool) (buckets : Buckets) :
    List RateCall → List (RateCall × Bool)
  | [] => []
  | call :: rest => (call, (step buckets call).2) :: decisions step (step buckets call).1 rest

/-- How many requests for a key are allowed with readings between `a` and `c`. -/
def allowedIn (key : String) (a c : ℚ) (decided : List (RateCall × Bool)) : ℕ :=
  decided.countP fun d => d.2 && d.1.key = key && decide (a ≤ d.1.now) && decide (d.1.now ≤ c)

/-- The call's prune drops the bucket of a key. -/
def Dropped (buckets : Buckets) (call : RateCall) (key : String) : Prop :=
  prunes buckets call ∧ ∃ b, buckets.get? key = some b ∧ b.isRefilled call.now

/-- No reading goes back: a call that follows another one in lock order did not read the clock
before it if both charge one key, or if the first one dropped the bucket of the second one's key. -/
def InOrder (limits : String → Limits) (buckets : Buckets) : List RateCall → Prop
  | [] => True
  | call :: rest =>
    (∀ later ∈ rest, later.key = call.key ∨ Dropped buckets call later.key →
      call.now ≤ later.now) ∧
    InOrder limits (allowWith limits buckets call).1 rest

/-! ## The map of buckets -/

namespace Buckets

variable {buckets : Buckets} {key : String} {b : TokenBucket}

/-- A bucket is found under its key. -/
theorem get?_eq_some : buckets.get? key = some b ↔ (key, b) ∈ buckets.rows := by
  unfold get?
  rw [Option.map_eq_some_iff]
  constructor
  · rintro ⟨⟨k, b'⟩, hfound, rfl⟩
    obtain ⟨hmem, rfl⟩ := Table.find?_eq_some.mp hfound
    exact hmem
  · exact fun hmem => ⟨(key, b), Table.find?_eq_some.mpr ⟨hmem, rfl⟩, rfl⟩

/-- There is no bucket at first. -/
theorem get?_empty : get? (Table.empty _) key = none := rfl

/-- What a charged map holds. -/
theorem get?_insertOrReplace (k : String) :
    get? (buckets.insertOrReplace (k, b)) key = if k = key then some b else buckets.get? key := by
  unfold get?
  rw [Table.find?_insertOrReplace]
  split
  · rfl
  · rfl

/-- A prune that runs drops the refilled buckets. -/
theorem get?_prune (call : RateCall) :
    get? (prune buckets call) key = some b ↔
      buckets.get? key = some b ∧ ¬ (prunes buckets call ∧ b.isRefilled call.now) := by
  unfold prune
  split
  · rename_i hprunes
    rw [get?_eq_some, get?_eq_some, Table.mem_deleteWhere]
    simp [hprunes]
  · rename_i hprunes
    simp [hprunes]

end Buckets

/-- What a call leaves of the other keys. -/
theorem get?_charge (limits : String → Limits) (buckets : Buckets) (call : RateCall)
    {key : String} (h : key ≠ call.key) :
    (charge limits buckets call).1.get? key = buckets.get? key := by
  unfold charge
  rw [Buckets.get?_insertOrReplace, if_neg h.symm]

/-- What a call makes of its own key. -/
theorem get?_charge_self (limits : String → Limits) (buckets : Buckets) (call : RateCall) :
    (charge limits buckets call).1.get? call.key =
      some ((((buckets.get? call.key).getD (.new call.now (limits call.key))).tryConsume
        call.now).1) := by
  unfold charge
  rw [Buckets.get?_insertOrReplace, if_pos rfl]

/-! ## What a bucket lets through -/

namespace TokenBucket

variable {b : TokenBucket} {now : ℚ}

/-- A bucket is refilled whenever it is asked. -/
@[simp] theorem tryConsume_lastRefill (b : TokenBucket) (now : ℚ) :
    (b.tryConsume now).1.lastRefill = now := by
  unfold tryConsume
  split
  · rfl
  · rfl

/-- Its limits stay. -/
@[simp] theorem tryConsume_toLimits (b : TokenBucket) (now : ℚ) :
    (b.tryConsume now).1.toLimits = b.toLimits := by
  unfold tryConsume
  split
  · rfl
  · rfl

/-- A request that fits costs one token. -/
theorem tryConsume_tokens (b : TokenBucket) (now : ℚ) :
    (b.tryConsume now).1.tokens + (if (b.tryConsume now).2 then 1 else 0) = b.available now := by
  unfold tryConsume
  split
  · exact sub_add_cancel _ _
  · exact add_zero _

/-- A reading that does not go back refills by the time since the last one at most. -/
theorem available_le_add (h : b.lastRefill ≤ now) :
    b.available now ≤ b.tokens + b.rps * (now - b.lastRefill) := by
  have helapsed : b.elapsed now = now - b.lastRefill := max_eq_right (sub_nonneg.mpr h)
  calc b.available now ≤ b.tokens + b.elapsed now * b.rps := min_le_left _ _
    _ = b.tokens + b.rps * (now - b.lastRefill) := by rw [helapsed, mul_comm]

/-- What the bucket can let through from now on with readings between `a` and `c`. -/
def budget (b : TokenBucket) (a c : ℚ) : ℚ :=
  if b.lastRefill < a then b.burst + b.rps * (c - a)
  else if b.lastRefill ≤ c then b.tokens + b.rps * (c - b.lastRefill)
  else 0

variable {a c : ℚ}

/-- What a bucket may let through is not negative. -/
theorem budget_nonneg (hac : a ≤ c) : 0 ≤ b.budget a c := by
  unfold budget
  split
  · exact add_nonneg b.burst_nonneg (mul_nonneg b.rps_nonneg (sub_nonneg.mpr hac))
  · split
    · rename_i hc
      exact add_nonneg b.tokens_nonneg (mul_nonneg b.rps_nonneg (sub_nonneg.mpr hc))
    · exact le_rfl

/-- No bucket has more to give than a full one. -/
theorem budget_le (hac : a ≤ c) : b.budget a c ≤ b.burst + b.rps * (c - a) := by
  have hspan : 0 ≤ b.rps * (c - a) := mul_nonneg b.rps_nonneg (sub_nonneg.mpr hac)
  unfold budget
  split
  · exact le_rfl
  · rename_i ha
    split
    · have hlater : c - b.lastRefill ≤ c - a := by linarith
      exact add_le_add b.tokens_le (mul_le_mul_of_nonneg_left hlater b.rps_nonneg)
    · exact add_nonneg b.burst_nonneg hspan

/-- A refill between `a` and `c` leaves the tokens and what still comes in until `c`. -/
theorem available_add_le_budget (h : b.lastRefill ≤ now) (ha : a ≤ now) (hc : now ≤ c) :
    b.available now + b.rps * (c - now) ≤ b.budget a c := by
  unfold budget
  split
  · have hlater : c - now ≤ c - a := by linarith
    exact add_le_add (b.available_le now) (mul_le_mul_of_nonneg_left hlater b.rps_nonneg)
  · rw [if_pos (h.trans hc)]
    have hgain := available_le_add h
    have hsplit : b.rps * (c - b.lastRefill) =
        b.rps * (now - b.lastRefill) + b.rps * (c - now) := by ring
    linarith

/-- What a request with a reading that does not go back takes from the budget. -/
theorem budget_consume (hac : a ≤ c) (h : b.lastRefill ≤ now) :
    (if (b.tryConsume now).2 && decide (a ≤ now) && decide (now ≤ c) then (1 : ℚ) else 0) +
      (b.tryConsume now).1.budget a c ≤ b.budget a c := by
  have hlimits := b.tryConsume_toLimits now
  by_cases ha : now < a
  · -- Before the interval nothing is counted and the bucket may fill up.
    have hb : b.budget a c = b.burst + b.rps * (c - a) := if_pos (lt_of_le_of_lt h ha)
    have hnot : ¬ a ≤ now := not_le.mpr ha
    have hafter := (b.tryConsume now).1.budget_le hac
    rw [hlimits] at hafter
    simpa [hnot, hb] using hafter
  · have ha := not_lt.mp ha
    by_cases hc : now ≤ c
    · have hafter : (b.tryConsume now).1.budget a c =
          (b.tryConsume now).1.tokens + b.rps * (c - now) := by
        unfold budget
        rw [tryConsume_lastRefill, if_neg (not_lt.mpr ha), if_pos hc, hlimits]
      have htokens := b.tryConsume_tokens now
      have hspent := available_add_le_budget h ha hc
      rw [hafter]
      simp only [ha, hc, decide_true, Bool.and_true]
      linarith
    · -- After the interval nothing is counted any more.
      have hafter : (b.tryConsume now).1.budget a c = 0 := by
        unfold budget
        rw [tryConsume_lastRefill, if_neg (not_lt.mpr ha), if_neg hc]
      rw [hafter]
      simpa [hc] using b.budget_nonneg hac

end TokenBucket

/-! ## The bound, without pruning -/

section Bound

variable {limits : String → Limits} {key : String} {a c : ℚ}

/-- The readings of a key's calls do not go back. -/
def Forward (calls : List RateCall) : Prop :=
  calls.Pairwise fun call later => later.key = call.key → call.now ≤ later.now

/-- What the key's bucket, or a new one, can let through. -/
def budgetOf (limits : String → Limits) (key : String) (a c : ℚ) (buckets : Buckets) : ℚ :=
  ((buckets.get? key).map fun b => b.budget a c).getD
    ((limits key).burst + (limits key).rps * (c - a))

/-- The key's bucket has the key's limits, and no later call of the key reads an earlier time. -/
def Behind (limits : String → Limits) (key : String) (buckets : Buckets)
    (calls : List RateCall) : Prop :=
  ∀ b, buckets.get? key = some b →
    b.toLimits = limits key ∧ ∀ call ∈ calls, call.key = key → b.lastRefill ≤ call.now

/-- A call counts if it is allowed, asks for the key and falls into the interval. -/
theorem allowedIn_cons (call : RateCall) (allowed : Bool) (rest : List (RateCall × Bool)) :
    (allowedIn key a c ((call, allowed) :: rest) : ℚ) =
      (if allowed && call.key = key && decide (a ≤ call.now) && decide (call.now ≤ c)
        then 1 else 0) + allowedIn key a c rest := by
  unfold allowedIn
  rw [List.countP_cons]
  push_cast
  rw [add_comm]

/-- A call of another key leaves what is said of the key alone. -/
theorem Behind.charge_of_ne {buckets : Buckets} {call : RateCall} {rest : List RateCall}
    (h : Behind limits key buckets (call :: rest)) (hne : key ≠ call.key) :
    Behind limits key (charge limits buckets call).1 rest := by
  intro b hb
  rw [get?_charge limits buckets call hne] at hb
  exact ⟨(h b hb).1, fun later hlater => (h b hb).2 later (List.mem_cons_of_mem _ hlater)⟩

/-- The bucket a call charges: the key's limits, and a reading that does not go back. -/
theorem Behind.bucket {buckets : Buckets} {call : RateCall} {rest : List RateCall}
    (h : Behind limits call.key buckets (call :: rest)) :
    ((buckets.get? call.key).getD (.new call.now (limits call.key))).toLimits = limits call.key ∧
      ((buckets.get? call.key).getD (.new call.now (limits call.key))).lastRefill ≤ call.now := by
  cases hfound : buckets.get? call.key with
  | none => exact ⟨rfl, le_rfl⟩
  | some b => exact ⟨(h b hfound).1, (h b hfound).2 call List.mem_cons_self rfl⟩

/-- A call of the key leaves a bucket with the call's reading. -/
theorem Behind.charge_self {buckets : Buckets} {call : RateCall} {rest : List RateCall}
    (h : Behind limits call.key buckets (call :: rest))
    (hlater : ∀ later ∈ rest, later.key = call.key → call.now ≤ later.now) :
    Behind limits call.key (charge limits buckets call).1 rest := by
  intro b hb
  rw [get?_charge_self] at hb
  obtain rfl := Option.some.inj hb
  rw [TokenBucket.tryConsume_toLimits, TokenBucket.tryConsume_lastRefill]
  exact ⟨h.bucket.1, hlater⟩

/-- What one call takes from the budget of its key. -/
theorem budgetOf_charge_self {buckets : Buckets} {call : RateCall} {rest : List RateCall}
    (hac : a ≤ c) (h : Behind limits call.key buckets (call :: rest)) :
    (if (charge limits buckets call).2 && decide (a ≤ call.now) && decide (call.now ≤ c)
        then (1 : ℚ) else 0) +
      budgetOf limits call.key a c (charge limits buckets call).1 ≤
        budgetOf limits call.key a c buckets := by
  have hspent := TokenBucket.budget_consume hac h.bucket.2
  have hbucket : ((buckets.get? call.key).getD (.new call.now (limits call.key))).budget a c ≤
      budgetOf limits call.key a c buckets := by
    unfold budgetOf
    cases hfound : buckets.get? call.key with
    | none => exact TokenBucket.budget_le hac
    | some b => exact le_rfl
  have hafter : budgetOf limits call.key a c (charge limits buckets call).1 =
      (((buckets.get? call.key).getD (.new call.now (limits call.key))).tryConsume
        call.now).1.budget a c := by
    unfold budgetOf
    rw [get?_charge_self]
    rfl
  rw [hafter]
  exact hspent.trans hbucket

/-- A run lets through what its buckets have to give. -/
theorem allowedIn_le_budgetOf (hac : a ≤ c) {calls : List RateCall} {buckets : Buckets}
    (hforward : Forward calls) (h : Behind limits key buckets calls) :
    allowedIn key a c (decisions (charge limits) buckets calls) ≤
      budgetOf limits key a c buckets := by
  induction calls generalizing buckets with
  | nil =>
    unfold budgetOf
    cases hfound : buckets.get? key with
    | none =>
      exact add_nonneg (limits key).burst_nonneg
        (mul_nonneg (limits key).rps_nonneg (sub_nonneg.mpr hac))
    | some b => exact b.budget_nonneg hac
  | cons call rest ih =>
    obtain ⟨hlater, hrest⟩ := List.pairwise_cons.mp hforward
    rw [decisions, allowedIn_cons]
    by_cases hkey : call.key = key
    · subst hkey
      have hafter := ih hrest (h.charge_self hlater)
      have hspent := budgetOf_charge_self hac h
      simp only [decide_true, Bool.and_true]
      linarith
    · have hafter := ih hrest (h.charge_of_ne fun heq => hkey heq.symm)
      have hsame : budgetOf limits key a c (charge limits buckets call).1 =
          budgetOf limits key a c buckets := by
        unfold budgetOf
        rw [get?_charge limits buckets call fun heq => hkey heq.symm]
      rw [hsame] at hafter
      simpa [hkey] using hafter

end Bound

/-! ## Pruning -/

section Pruning

variable {limits : String → Limits}

/-- What is refilled stays refilled. -/
theorem TokenBucket.isRefilled_mono {b : TokenBucket} {now later : ℚ} (h : b.isRefilled now)
    (hle : now ≤ later) : b.isRefilled later := by
  have hfull : b.burst ≤ b.tokens + b.elapsed now * b.rps := of_decide_eq_true h
  have helapsed : b.elapsed now ≤ b.elapsed later :=
    max_le_max le_rfl (sub_le_sub_right hle _)
  have hgain := mul_le_mul_of_nonneg_right helapsed b.rps_nonneg
  exact decide_eq_true (hfull.trans (add_le_add le_rfl hgain))

/-- A refilled bucket and a new one have the same tokens to give. -/
theorem TokenBucket.available_of_isRefilled {b : TokenBucket} {now : ℚ} (h : b.isRefilled now) :
    b.available now = b.burst :=
  min_eq_right (of_decide_eq_true h)

/-- A refilled bucket answers and goes on as a new one does. -/
theorem TokenBucket.tryConsume_of_isRefilled {b : TokenBucket} {now : ℚ} (h : b.isRefilled now) :
    b.tryConsume now = (TokenBucket.new now b.toLimits).tryConsume now := by
  have hb : b.available now = b.burst := available_of_isRefilled h
  have hnew : (TokenBucket.new now b.toLimits).available now = b.burst := by
    refine available_of_isRefilled (decide_eq_true ?_)
    have hgain := mul_nonneg ((TokenBucket.new now b.toLimits).elapsed_nonneg now) b.rps_nonneg
    exact le_add_of_nonneg_right hgain
  unfold tryConsume
  simp only [hb, hnew]
  rfl

/-- The pruned map `p` and the unpruned map `u` answer the calls to come alike: a bucket that only
`u` still has is refilled whenever it is charged. -/
def Agree (limits : String → Limits) (p u : Buckets) (calls : List RateCall) : Prop :=
  ∀ key, p.get? key = u.get? key ∨
    (p.get? key = none ∧ ∃ b, u.get? key = some b ∧ b.toLimits = limits key ∧
      ∀ call ∈ calls, call.key = key → b.isRefilled call.now)

/-- The key of every call has the key's limits in the map. -/
def Limited (limits : String → Limits) (buckets : Buckets) : Prop :=
  ∀ key b, buckets.get? key = some b → b.toLimits = limits key

/-- Pruning keeps the limits of the buckets. -/
theorem Limited.after_prune {buckets : Buckets} (h : Limited limits buckets) (call : RateCall) :
    Limited limits (prune buckets call) := by
  intro key b hb
  exact h key b (Buckets.get?_prune call |>.mp hb).1

/-- So does a charge. -/
theorem Limited.after_charge {buckets : Buckets} (h : Limited limits buckets) (call : RateCall) :
    Limited limits (charge limits buckets call).1 := by
  intro key b hb
  by_cases hkey : key = call.key
  · subst hkey
    rw [get?_charge_self] at hb
    obtain rfl := Option.some.inj hb
    rw [TokenBucket.tryConsume_toLimits]
    cases hfound : buckets.get? call.key with
    | none => rfl
    | some b => exact h call.key b hfound
  · rw [get?_charge limits buckets call hkey] at hb
    exact h key b hb

/-- A prune drops nothing that the calls to come would tell from a new bucket. -/
theorem Agree.after_prune {p u : Buckets} {call : RateCall} {rest : List RateCall}
    (h : Agree limits p u (call :: rest)) (hlimited : Limited limits p)
    (hlater : ∀ later ∈ rest, later.key = call.key ∨ Dropped p call later.key →
      call.now ≤ later.now) :
    Agree limits (prune p call) u (call :: rest) := by
  intro key
  cases hfound : p.get? key with
  | none =>
    have hpruned : (prune p call).get? key = none := by
      refine Option.eq_none_iff_forall_ne_some.mpr fun b hb => ?_
      have hkept := (Buckets.get?_prune call).mp hb
      rw [hfound] at hkept
      cases hkept.1
    rcases h key with heq | ⟨-, hrefilled⟩
    · exact .inl (hpruned.trans (hfound.symm.trans heq))
    · exact .inr ⟨hpruned, hrefilled⟩
  | some b =>
    have hu : u.get? key = some b := by
      rcases h key with heq | ⟨hnone, -⟩
      · rw [← heq, hfound]
      · rw [hfound] at hnone
        cases hnone
    by_cases hdrop : prunes p call ∧ b.isRefilled call.now
    · refine .inr ⟨?_, b, hu, hlimited key b hfound, ?_⟩
      · refine Option.eq_none_iff_forall_ne_some.mpr fun b' hb' => ?_
        obtain ⟨hfound', hkept⟩ := (Buckets.get?_prune call).mp hb'
        obtain rfl := Option.some.inj (hfound.symm.trans hfound')
        exact hkept hdrop
      · -- The dropped key is not the call's own, which has no bucket when the map is pruned.
        intro later hmem hkey
        rcases List.mem_cons.mp hmem with rfl | hmem
        · exact hdrop.2
        · exact TokenBucket.isRefilled_mono hdrop.2
            (hlater later hmem (.inr ⟨hdrop.1, b, hkey ▸ hfound, hdrop.2⟩))
    · exact .inl (((Buckets.get?_prune call).mpr ⟨hfound, hdrop⟩).trans hu.symm)

/-- Maps that agree give one answer and agree afterwards. -/
theorem Agree.after_charge {p u : Buckets} {call : RateCall} {rest : List RateCall}
    (h : Agree limits p u (call :: rest)) :
    (charge limits p call).2 = (charge limits u call).2 ∧
      Agree limits (charge limits p call).1 (charge limits u call).1 rest := by
  have hbucket : ((p.get? call.key).getD (.new call.now (limits call.key))).tryConsume call.now =
      ((u.get? call.key).getD (.new call.now (limits call.key))).tryConsume call.now := by
    rcases h call.key with heq | ⟨hnone, b, hu, hlimits, hrefilled⟩
    · rw [heq]
    · have hsame := TokenBucket.tryConsume_of_isRefilled
        (hrefilled call List.mem_cons_self rfl)
      rw [hnone, hu, ← hlimits]
      exact hsame.symm
  have hanswer : (charge limits p call).2 = (charge limits u call).2 :=
    congrArg (fun result => result.2) hbucket
  refine ⟨hanswer, fun key => ?_⟩
  by_cases hkey : key = call.key
  · subst hkey
    rw [get?_charge_self, get?_charge_self]
    exact .inl (congrArg (fun result => some result.1) hbucket)
  · rw [get?_charge limits p call hkey, get?_charge limits u call hkey]
    rcases h key with heq | ⟨hnone, b, hu, hlimits, hrefilled⟩
    · exact .inl heq
    · exact .inr ⟨hnone, b, hu, hlimits, fun later hmem =>
        hrefilled later (List.mem_cons_of_mem _ hmem)⟩

/-- With readings in order, a run decides as one that never prunes. -/
theorem decisions_allowWith {calls : List RateCall} {p u : Buckets} (hagree : Agree limits p u calls)
    (hlimited : Limited limits p) (horder : InOrder limits p calls) :
    decisions (allowWith limits) p calls = decisions (charge limits) u calls := by
  induction calls generalizing p u with
  | nil => rfl
  | cons call rest ih =>
    obtain ⟨hlater, hrest⟩ := horder
    obtain ⟨hanswer, hafter⟩ := (hagree.after_prune hlimited hlater).after_charge
    have hdecided := ih hafter ((hlimited.after_prune call).after_charge call) hrest
    rw [decisions, decisions]
    exact congrArg₂ (fun answer decided => (call, answer) :: decided) hanswer hdecided

end Pruning

/-- Readings in order are in order for each key. -/
theorem InOrder.forward {limits : String → Limits} {calls : List RateCall} {buckets : Buckets}
    (h : InOrder limits buckets calls) : Forward calls := by
  induction calls generalizing buckets with
  | nil => exact List.Pairwise.nil
  | cons call rest ih =>
    exact List.pairwise_cons.mpr ⟨fun later hmem hkey => h.1 later hmem (.inl hkey), ih h.2⟩

/-- In every run of a new limiter in which no reading goes back, pruning changes no decision, and
in an interval a key is allowed its burst and what comes in during the interval. -/
theorem rate_limited (limits : String → Limits) (calls : List RateCall)
    (horder : InOrder limits (.empty _) calls) :
    decisions (allowWith limits) (.empty _) calls = decisions (charge limits) (.empty _) calls ∧
      ∀ key : String, ∀ a c : ℚ, a ≤ c →
        allowedIn key a c (decisions (allowWith limits) (.empty _) calls) ≤
          (limits key).burst + (limits key).rps * (c - a) := by
  have hagree : Agree limits (.empty _) (.empty _) calls := fun _ => .inl rfl
  have hlimited : Limited limits (.empty _) := by
    intro key b hb
    rw [Buckets.get?_empty] at hb
    cases hb
  have hsame := decisions_allowWith hagree hlimited horder
  refine ⟨hsame, fun key a c hac => ?_⟩
  have hbehind : Behind limits key (.empty _) calls := by
    intro b hb
    rw [Buckets.get?_empty] at hb
    cases hb
  rw [hsame]
  exact allowedIn_le_budgetOf hac horder.forward hbehind

/-- Two calls of one address, one second apart. -/
def politeCalls : List RateCall := [⟨"addr:10.0.0.1", 0⟩, ⟨"addr:10.0.0.1", 1⟩]

/-- The theorem at calls that are far enough apart. -/
theorem rate_limited_polite :
    InOrder Limits.ofKey (.empty _) politeCalls ∧
      decisions (allowWith Limits.ofKey) (.empty _) politeCalls =
        decisions (charge Limits.ofKey) (.empty _) politeCalls := by
  have horder : InOrder Limits.ofKey (.empty _) politeCalls := by
    refine ⟨fun later hmem _ => ?_, fun later hmem => ?_, trivial⟩
    · rw [List.mem_singleton.mp hmem]
      exact zero_le_one
    · cases hmem
  exact ⟨horder, (rate_limited Limits.ofKey politeCalls horder).1⟩

/-- Five logins at ten seconds, one that read the clock ten seconds earlier and got the lock late,
and one more at ten seconds. -/
def lateCalls : List RateCall :=
  List.replicate 5 ⟨"auth:10.0.0.1", 10⟩ ++ [⟨"auth:10.0.0.1", 0⟩, ⟨"auth:10.0.0.1", 10⟩]

/-- The late call sets the bucket back: the ten seconds before it are refilled again, and six
logins pass where five may. -/
theorem rate_limited_late :
    ¬ ∀ calls : List RateCall, ∀ key : String, ∀ a c : ℚ, a ≤ c →
      allowedIn key a c (decisions (allowWith Limits.ofKey) (.empty _) calls) ≤
        (Limits.ofKey key).burst + (Limits.ofKey key).rps * (c - a) := by
  intro h
  have hbound := h lateCalls "auth:10.0.0.1" 10 10 le_rfl
  have hcount : allowedIn "auth:10.0.0.1" 10 10
      (decisions (allowWith Limits.ofKey) (.empty _) lateCalls) = 6 := by
    decide +kernel
  have hlimits : Limits.ofKey "auth:10.0.0.1" = Limits.perAuth := by
    have haddr : "auth:10.0.0.1".startsWith "addr:" = false := by decide +kernel
    have hauth : "auth:10.0.0.1".startsWith "auth:" = true := by decide +kernel
    simp [Limits.ofKey, haddr, hauth]
  rw [hcount, hlimits] at hbound
  norm_num [Limits.perAuth] at hbound

end Tellodb
