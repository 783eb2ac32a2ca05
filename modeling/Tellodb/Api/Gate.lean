import Tellodb.Api.Auth
import Tellodb.Api.RateLimit
import Tellodb.Collections.Weighed
import Tellodb.Core.Text
import Tellodb.Lifecycle.Retention
import Tellodb.Platform.Keys
import Tellodb.Relational.Emitted

/-!
# The gate

What a request passes before its handler runs: the router of `build_api`, `rate_limit_middleware`
and `auth_middleware`, and the limit on attempts at credentials. Requests are on their way at the
same time: each charges its buckets one after the other and then presents its key, and between two
of its steps other requests and the platform take theirs. `gate_safe` says what holds of the
requests that got through, whatever the order of the steps was: who they are from was established by
a key that was in force when it was presented, and there are no more of them in any interval than
the limits of their buckets allow. -/

namespace Tellodb

open Relational Collections

/-! ## Headers -/

/-- The headers that are read before a handler runs, where they are there and text. -/
structure Headers where
  xApiKey : Option String
  authorization : Option String
  xForwardedFor : Option String
  deriving DecidableEq

/-- A text without the whitespace around it, if anything else is left. -/
def trimmed (text : List Char) : Option String :=
  (some (String.ofList (trim text))).filter fun text => !text.isEmpty

/-- `request_bearer_token` -/
def requestBearerToken (headers : Headers) : Option String :=
  headers.authorization.bind fun value =>
    let parts := value.toList.span (· ≠ ' ')
    -- `split_once` finds no space.
    if parts.2.isEmpty then none
    else if toAsciiLowercase (String.ofList parts.1) = "bearer" then trimmed parts.2.tail
    else none

/-- `request_api_key` -/
def requestApiKey (headers : Headers) : Option String :=
  (headers.xApiKey.bind fun value => trimmed value.toList).or (requestBearerToken headers)

/-- `client_address`, for the address of the peer. -/
def clientAddress (headers : Headers) (peer : Option String) (trustProxy : Bool) : String :=
  let forwarded :=
    if trustProxy then
      headers.xForwardedFor.bind fun value => trimmed (value.toList.takeWhile (· ≠ ','))
    else none
  forwarded.getD (peer.getD "unknown")

/-- `constant_time_eq` -/
def constantTimeEq (a b : String) : Bool :=
  if (utf8Bytes a).length ≠ (utf8Bytes b).length then false
  else ((utf8Bytes a).zip (utf8Bytes b)).foldl (fun result p => result ||| (p.1 ^^^ p.2))
    (0 : UInt8) = 0

/-- `authorize_global_api_key` -/
def authorizeGlobalApiKey (apiKey provided : Option String) : Bool :=
  apiKey.all fun expected => provided.any fun provided => constantTimeEq provided expected

/-! ## Routes -/

/-- The methods of the routes. -/
inductive HttpMethod where
  | get
  | post
  | delete
  deriving DecidableEq

/-- The routes without a layer of their own. -/
def openRoutes : List (HttpMethod × String) :=
  [(.get, "/healthz"), (.get, "/metrics")]

/-- The routes of `platform`, which are limited. -/
def platformRoutes : List (HttpMethod × String) :=
  [(.post, "/signup"), (.post, "/login"), (.post, "/logout"), (.get, "/me"), (.post, "/api-keys"),
    (.get, "/api-keys"), (.post, "/api-keys/\x7bprefix\x7d"), (.get, "/stats"), (.get, "/profile")]

/-- The routes of `protected`, which are limited and need a key. -/
def protectedRoutes : List (HttpMethod × String) :=
  [(.get, "/health"), (.get, "/version"), (.get, "/status"), (.post, "/warmup"), (.post, "/reset"),
    (.post, "/admin/reset"), (.post, "/v1/admin/reset"),
    (.get, "/admin/clusters/\x7bcluster_id\x7d/stats"),
    (.get, "/admin/clusters/\x7bcluster_id\x7d/storage-stats"),
    (.get, "/admin/clusters/\x7bcluster_id\x7d/graph-edges"), (.get, "/admin/stats/hardware"),
    (.post, "/admin/api_keys"), (.delete, "/admin/api_keys/\x7bkey_id\x7d"), (.post, "/mcp"),
    (.post, "/ingest"), (.post, "/batch-ingest"), (.post, "/ingest/batch"),
    (.post, "/memory/inspect"), (.post, "/memory/delete"), (.post, "/v1/memory/inspect"),
    (.post, "/v1/memory/delete"), (.post, "/query"), (.post, "/query/semantic"),
    (.post, "/graph/query"), (.post, "/graph/walk"), (.post, "/graph/export"),
    (.post, "/analytics/query"), (.get, "/facts/current"), (.get, "/facts/history")]

/-- The paths that `rate_limit_middleware` lets through. -/
def unlimitedPaths : List String :=
  ["/health", "/healthz", "/version", "/metrics"]

/-- The routes whose handlers call `check_auth_rate_limit`. -/
def credentialRoutes : List (HttpMethod × String) :=
  [(.post, "/signup"), (.post, "/login")]

/-- A route of the router. -/
structure Endpoint where
  route : HttpMethod × String
  listed : route ∈ openRoutes ++ platformRoutes ++ protectedRoutes

/-- A request that matches a route. -/
structure HttpRequest where
  endpoint : Endpoint
  headers : Headers
  peer : Option String

/-- What the gate is set up with. -/
structure GateConfig where
  crypto : PlatformCrypto
  /-- The operator's key. -/
  apiKey : Option String
  trustProxy : Bool

section

variable (config : GateConfig)

/-- The operator's key was presented. -/
def HttpRequest.operator (r : HttpRequest) : Bool :=
  authorizeGlobalApiKey config.apiKey (requestApiKey r.headers)

/-- The bucket keys that `check_rate_limit` charges for a request, in turn. -/
def HttpRequest.limiterKeys (r : HttpRequest) : List String :=
  if r.operator config && config.apiKey.isSome then []
  else ("addr:" ++ clientAddress r.headers r.peer config.trustProxy) ::
    ((requestApiKey r.headers).map fun key => "key:" ++ key).toList

/-- The bucket keys that are charged for a request, in turn. -/
def HttpRequest.charges (r : HttpRequest) : List String :=
  (if r.endpoint.route ∈ openRoutes ∨ r.endpoint.route.2 ∈ unlimitedPaths then []
    else r.limiterKeys config) ++
  if r.endpoint.route ∈ credentialRoutes then
    ["auth:" ++ clientAddress r.headers r.peer config.trustProxy]
  else []

end

/-! ## Steps -/

/-- Why a request is refused. -/
inductive Refusal where
  | tooManyRequests
  | status (status : StatusCode)
  deriving DecidableEq

/-- How far a request has come. -/
inductive GateStage where
  /-- Buckets are still to be charged. -/
  | charging (left : List String)
  | refused (refusal : Refusal)
  /-- The handler runs, on a protected route for a principal. -/
  | admitted (principal : Option RequestPrincipal)
  deriving DecidableEq

/-- A request on its way, with the buckets that it has passed and the readings of the clock. -/
structure Passage where
  request : HttpRequest
  stage : GateStage
  paid : List (String × ℚ)

/-- The limiter, the platform store and the requests on their way. -/
structure Gate where
  platform : PlatformStore
  buckets : Buckets
  passages : List Passage

/-- What happens at the gate. -/
inductive GateEvent where
  | arrive (request : HttpRequest)
  /-- A request charges its next bucket. -/
  | charge (place : ℕ) (reading : ℚ)
  /-- A request that has charged all its buckets goes on to its handler. -/
  | finish (place : ℕ) (instant : ℕ) (now : UInt64)
  /-- Something else is done to the platform store. -/
  | platform (request : PlatformRequest)

section

variable (config : GateConfig)

/-- `auth_middleware`: the store after the key was looked up, and what comes of the request. -/
def authenticate (P : PlatformStore) (r : HttpRequest) (instant : ℕ) (now : UInt64) :
    PlatformStore × GateStage :=
  let looksUp := fun key => P.authenticateApiKey config.crypto key instant now
  let principal := authorizeRequest config.apiKey (fun key => (looksUp key).2)
    (requestApiKey r.headers)
  let platform :=
    if r.operator config then P
    else ((requestApiKey r.headers).map fun key => (looksUp key).1).getD P
  (platform, match principal with
    | .ok principal => .admitted (some principal)
    | .error status => .refused (.status status))

/-- The gate after an event. -/
def Gate.step (g : Gate) : GateEvent → Gate
  | .arrive request =>
    { g with passages := g.passages ++ [⟨request, .charging (request.charges config), []⟩] }
  | .charge place reading =>
    match g.passages[place]? with
    | some ⟨request, .charging (key :: left), paid⟩ =>
      let answer := allowWith Limits.ofKey g.buckets ⟨key, reading⟩
      { g with
        buckets := answer.1
        passages := g.passages.set place
          (if answer.2 then ⟨request, .charging left, paid ++ [(key, reading)]⟩
            else ⟨request, .refused .tooManyRequests, paid⟩) }
    | _ => g
  | .finish place instant now =>
    match g.passages[place]? with
    | some ⟨request, .charging [], paid⟩ =>
      if request.endpoint.route ∈ protectedRoutes then
        let checked := authenticate config g.platform request instant now
        { g with
          platform := checked.1
          passages := g.passages.set place ⟨request, checked.2, paid⟩ }
      else { g with passages := g.passages.set place ⟨request, .admitted none, paid⟩ }
    | _ => g
  | .platform request => { g with platform := g.platform.step config.crypto request }

/-- The gate when the server starts. -/
def Gate.new : Gate :=
  ⟨PlatformStore.new, .empty _, []⟩

/-- The gate after the events of a run. -/
def Gate.after (events : List GateEvent) : Gate :=
  events.foldl (Gate.step config) Gate.new

end

/-! ## Keys -/

/-- The bytes are compared one by one: the result stays zero as long as they agree. -/
theorem foldl_or_xor_eq_zero {l : List (UInt8 × UInt8)} {result : UInt8} :
    l.foldl (fun result p => result ||| (p.1 ^^^ p.2)) result = 0 ↔
      result = 0 ∧ ∀ p ∈ l, p.1 = p.2 := by
  induction l generalizing result with
  | nil => simp
  | cons p l ih =>
    rw [List.foldl_cons, ih, UInt8.or_eq_zero_iff, UInt8.xor_eq_zero_iff, List.forall_mem_cons,
      and_assoc]

/-- The comparison in constant time is one of the texts. -/
theorem constantTimeEq_iff {a b : String} : constantTimeEq a b = true ↔ a = b := by
  unfold constantTimeEq
  split_ifs with hlength
  · refine ⟨fun h => by simp at h, ?_⟩
    rintro rfl
    exact absurd rfl hlength
  · rw [decide_eq_true_eq, foldl_or_xor_eq_zero]
    constructor
    · rintro ⟨-, hall⟩
      refine utf8Bytes_injective (List.ext_getElem (not_not.mp hlength) fun i ha hb => ?_)
      have hmem : ((utf8Bytes a)[i], (utf8Bytes b)[i]) ∈ (utf8Bytes a).zip (utf8Bytes b) := by
        rw [← List.getElem_zip (h := by rw [List.length_zip]; omega)]
        exact List.getElem_mem _
      exact hall _ hmem
    · rintro rfl
      refine ⟨rfl, fun p hp => ?_⟩
      obtain ⟨i, hi, rfl⟩ := List.getElem_of_mem hp
      rw [List.getElem_zip]

/-- The operator's key was presented, unless none is set. -/
theorem authorizeGlobalApiKey_eq (apiKey provided : Option String) :
    authorizeGlobalApiKey apiKey provided = isGlobalApiKey apiKey provided := by
  unfold authorizeGlobalApiKey isGlobalApiKey
  cases apiKey with
  | none => rfl
  | some expected =>
    cases provided with
    | none => rfl
    | some key =>
      rw [Option.all_some, Option.all_some, Option.any_some, Bool.eq_iff_iff, constantTimeEq_iff,
        decide_eq_true_eq, Option.some_inj]

section

variable {config : GateConfig} {P : PlatformStore} {r : HttpRequest} {instant : ℕ} {now : UInt64}

/-- What is asked of the platform store when a key is presented. -/
def lookups (config : GateConfig) (r : HttpRequest) (instant : ℕ) (now : UInt64) :
    List PlatformRequest :=
  if r.operator config then []
  else ((requestApiKey r.headers).map fun key => .authenticate key instant now).toList

/-- The check of a key leaves the platform as the requests that it makes leave it. -/
theorem authenticate_platform :
    (authenticate config P r instant now).1 =
      (lookups config r instant now).foldl (PlatformStore.step config.crypto) P := by
  unfold authenticate lookups
  dsimp only
  split_ifs
  · rfl
  · cases requestApiKey r.headers with
    | none => rfl
    | some key => rfl

/-- A principal is the operator, or the user that a key is accepted for. -/
theorem authenticate_admitted {principal : Option RequestPrincipal}
    (h : (authenticate config P r instant now).2 = .admitted principal) :
    (isGlobalApiKey config.apiKey (requestApiKey r.headers) ∧ principal = some .globalApiKey) ∨
      ∃ key auth, requestApiKey r.headers = some key ∧
        P.acceptedKey config.crypto key = some auth ∧ auth.clusterId.isSome ∧
        isValidUserId auth.userId ∧ principal = some (.userApiKey auth) := by
  unfold authenticate authorizeRequest at h
  dsimp only at h
  -- The operator's key comes first, and a request that has it is asked nothing else.
  by_cases hglobal : isGlobalApiKey config.apiKey (requestApiKey r.headers)
  · rw [if_pos hglobal] at h
    exact .inl ⟨hglobal, (GateStage.admitted.inj h).symm⟩
  · rw [if_neg hglobal] at h
    cases hkey : requestApiKey r.headers with
    | none => rw [hkey] at h; exact absurd h (by simp)
    | some key =>
      rw [hkey] at h
      dsimp only at h
      -- The store answers with an error, with no key or with the key.
      cases hanswer : (P.authenticateApiKey config.crypto key instant now).2 with
      | error e => rw [hanswer] at h; exact absurd h (by simp)
      | ok found =>
        rw [hanswer] at h
        cases found with
        | none => exact absurd h (by simp)
        | some auth =>
          dsimp only at h
          -- The key needs a cluster, and its user an id that can be a tenant.
          split_ifs at h with hcluster hvalid
          · refine .inr ⟨key, auth, rfl, PlatformStore.acceptedKey_of_authenticate hanswer, ?_,
              hvalid, (GateStage.admitted.inj h).symm⟩
            rw [Option.isSome_iff_ne_none]
            exact fun hnone => hcluster (by rw [hnone]; rfl)

end

/-! ## What a step does -/

section

variable (config : GateConfig)

/-- The calls of the limiter that an event gives rise to. -/
def Gate.calls (g : Gate) : GateEvent → List RateCall
  | .charge place reading =>
    match g.passages[place]? with
    | some ⟨_, .charging (key :: _), _⟩ => [⟨key, reading⟩]
    | _ => []
  | _ => []

/-- What an event does to the platform store. -/
def Gate.requests (g : Gate) : GateEvent → List PlatformRequest
  | .finish place instant now =>
    match g.passages[place]? with
    | some ⟨request, .charging [], _⟩ =>
      if request.endpoint.route ∈ protectedRoutes then lookups config request instant now else []
    | _ => []
  | .platform request => [request]
  | _ => []

/-- What an event does to the gate, with what it gives rise to. -/
inductive Gate.Moves (g : Gate) : GateEvent → List RateCall → List PlatformRequest → Gate → Prop
  | arrived (request : HttpRequest) :
    g.Moves (.arrive request) [] []
      { g with passages := g.passages ++ [⟨request, .charging (request.charges config), []⟩] }
  | passed {place : ℕ} {reading : ℚ} {request : HttpRequest} {key : String} {left : List String}
    {paid : List (String × ℚ)}
    (hplace : g.passages[place]? = some ⟨request, .charging (key :: left), paid⟩)
    (hallowed : (allowWith Limits.ofKey g.buckets ⟨key, reading⟩).2 = true) :
    g.Moves (.charge place reading) [⟨key, reading⟩] []
      ⟨g.platform, (allowWith Limits.ofKey g.buckets ⟨key, reading⟩).1,
        g.passages.set place ⟨request, .charging left, paid ++ [(key, reading)]⟩⟩
  | limited {place : ℕ} {reading : ℚ} {request : HttpRequest} {key : String} {left : List String}
    {paid : List (String × ℚ)}
    (hplace : g.passages[place]? = some ⟨request, .charging (key :: left), paid⟩)
    (hlimited : (allowWith Limits.ofKey g.buckets ⟨key, reading⟩).2 = false) :
    g.Moves (.charge place reading) [⟨key, reading⟩] []
      ⟨g.platform, (allowWith Limits.ofKey g.buckets ⟨key, reading⟩).1,
        g.passages.set place ⟨request, .refused .tooManyRequests, paid⟩⟩
  | checked {place instant : ℕ} {now : UInt64} {request : HttpRequest}
    {paid : List (String × ℚ)}
    (hplace : g.passages[place]? = some ⟨request, .charging [], paid⟩)
    (hprotected : request.endpoint.route ∈ protectedRoutes) :
    g.Moves (.finish place instant now) [] (lookups config request instant now)
      ⟨(authenticate config g.platform request instant now).1, g.buckets,
        g.passages.set place
          ⟨request, (authenticate config g.platform request instant now).2, paid⟩⟩
  | opened {place instant : ℕ} {now : UInt64} {request : HttpRequest} {paid : List (String × ℚ)}
    (hplace : g.passages[place]? = some ⟨request, .charging [], paid⟩)
    (hopen : request.endpoint.route ∉ protectedRoutes) :
    g.Moves (.finish place instant now) [] []
      { g with passages := g.passages.set place ⟨request, .admitted none, paid⟩ }
  | platform (request : PlatformRequest) :
    g.Moves (.platform request) [] [request]
      { g with platform := g.platform.step config.crypto request }
  | stayed (event : GateEvent) : g.Moves event [] [] g

/-- What a step of the gate does to its buckets, its platform and its requests. -/
theorem Gate.moves (g : Gate) (event : GateEvent) :
    g.Moves config event (g.calls event) (g.requests config event) (g.step config event) := by
  cases event with
  | arrive request => exact .arrived request
  | platform request => exact .platform request
  | charge place reading =>
    simp only [Gate.step, Gate.calls, Gate.requests]
    split
    · rename_i request key left paid hplace
      cases hanswer : (allowWith Limits.ofKey g.buckets ⟨key, reading⟩).2 with
      | true => exact .passed hplace hanswer
      | false => exact .limited hplace hanswer
    · exact .stayed _
  | finish place instant now =>
    simp only [Gate.step, Gate.calls, Gate.requests]
    split
    · rename_i request paid hplace
      split_ifs with hprotected
      · exact .checked hplace hprotected
      · exact .opened hplace hprotected
    · exact .stayed _

end

/-! ## What requests have paid -/

section

variable {config : GateConfig} {g : Gate}

/-- What a request has paid and what it has still to pay is what is charged for it. -/
def Passage.Sound (config : GateConfig) (p : Passage) : Prop :=
  match p.stage with
  | .charging left => p.paid.map Prod.fst ++ left = p.request.charges config
  | .refused _ => True
  | .admitted _ => p.paid.map Prod.fst = p.request.charges config

/-- A request that has paid all its charges is sound at every stage behind them. -/
theorem Passage.sound_of_paid {request : HttpRequest} {paid : List (String × ℚ)}
    (h : paid.map Prod.fst = request.charges config) (stage : GateStage)
    (hstage : ∀ left, stage ≠ .charging left) : Passage.Sound config ⟨request, stage, paid⟩ := by
  cases stage with
  | charging left => exact absurd rfl (hstage left)
  | refused refusal => trivial
  | admitted principal => exact h

/-- A request that is authenticated is not charged again. -/
theorem authenticate_ne_charging {P : PlatformStore} {r : HttpRequest} {instant : ℕ} {now : UInt64}
    (left : List String) : (authenticate config P r instant now).2 ≠ .charging left := by
  unfold authenticate
  dsimp only
  split <;> simp

/-- A step of the gate keeps its requests sound. -/
theorem Gate.sound_step (h : ∀ p ∈ g.passages, p.Sound config) (event : GateEvent) :
    ∀ p ∈ (g.step config event).passages, p.Sound config := by
  -- A step changes one passage at most, so it suffices that the new one is sound.
  have hset : ∀ {place : ℕ} {p' : Passage}, p'.Sound config →
      ∀ p ∈ g.passages.set place p', p.Sound config := by
    intro place p' hp' p hp
    rcases List.mem_or_eq_of_mem_set hp with hp | rfl
    · exact h p hp
    · exact hp'
  have hmoves := g.moves config event
  generalize g.calls event = calls at hmoves
  generalize g.requests config event = requests at hmoves
  generalize g.step config event = g' at hmoves ⊢
  cases hmoves with
  | arrived request =>
    intro p hp
    rcases List.mem_append.mp hp with hp | hp
    · exact h p hp
    · rw [List.mem_singleton.mp hp]
      exact rfl
  -- The charge moves from those that are left to those that are paid.
  | @passed place reading request key left paid hplace hallowed =>
    have hpaid : paid.map Prod.fst ++ key :: left = request.charges config :=
      h _ (List.mem_of_getElem? hplace)
    refine hset ?_
    change (paid ++ [(key, reading)]).map Prod.fst ++ left = request.charges config
    rw [List.map_append, List.append_assoc]
    exact hpaid
  | limited hplace hlimited => exact hset trivial
  | checked hplace hprotected =>
    have hpaid := h _ (List.mem_of_getElem? hplace)
    exact hset (Passage.sound_of_paid ((List.append_nil _).symm.trans hpaid) _
      authenticate_ne_charging)
  | opened hplace hopen =>
    have hpaid := h _ (List.mem_of_getElem? hplace)
    exact hset (Passage.sound_of_paid ((List.append_nil _).symm.trans hpaid) _ (by simp))
  | platform request => exact h
  | stayed => exact h

/-! ## What the buckets let through -/

/-- How often a request has passed a bucket with readings in an interval. -/
def Passage.timesPaid (key : String) (a c : ℚ) (p : Passage) : ℕ :=
  p.paid.countP fun q => q.1 = key && decide (a ≤ q.2) && decide (q.2 ≤ c)

/-- The map of buckets after a call. -/
def chargedBuckets (buckets : Buckets) (call : RateCall) : Buckets :=
  (allowWith Limits.ofKey buckets call).1

/-- A step charges the buckets that it calls, and no others. -/
theorem Gate.buckets_step (g : Gate) (event : GateEvent) :
    (g.step config event).buckets = (g.calls event).foldl chargedBuckets g.buckets := by
  have hmoves := g.moves config event
  generalize g.calls event = calls at hmoves ⊢
  generalize g.requests config event = requests at hmoves
  generalize g.step config event = g' at hmoves ⊢
  cases hmoves <;> rfl

/-- A step changes the platform by the requests that it makes, and not otherwise. -/
theorem Gate.platform_step (g : Gate) (event : GateEvent) :
    (g.step config event).platform =
      (g.requests config event).foldl (PlatformStore.step config.crypto) g.platform := by
  have hmoves := g.moves config event
  generalize g.calls event = calls at hmoves
  generalize g.requests config event = requests at hmoves ⊢
  generalize g.step config event = g' at hmoves ⊢
  cases hmoves with
  | checked hplace hprotected => exact authenticate_platform
  | _ => rfl

/-- What is paid in a step is what the limiter allows in it. -/
theorem Gate.timesPaid_step (g : Gate) (key : String) (a c : ℚ) (event : GateEvent) :
    weigh (Passage.timesPaid key a c) (g.step config event).passages =
      weigh (Passage.timesPaid key a c) g.passages +
        allowedIn key a c (decisions (allowWith Limits.ofKey) g.buckets (g.calls event)) := by
  -- A step that pays nothing leaves the sum as it is.
  have hset : ∀ {place : ℕ} {p p' : Passage}, g.passages[place]? = some p →
      p'.timesPaid key a c = p.timesPaid key a c →
      weigh (Passage.timesPaid key a c) (g.passages.set place p') =
        weigh (Passage.timesPaid key a c) g.passages := by
    intro place p p' hplace hsame
    have hweigh := weigh_set (Passage.timesPaid key a c) hplace p'
    omega
  have hmoves := g.moves config event
  generalize g.calls event = calls at hmoves ⊢
  generalize g.requests config event = requests at hmoves
  generalize g.step config event = g' at hmoves ⊢
  cases hmoves with
  | arrived request =>
    rw [weigh_append]
    rfl
  | @passed place reading request key' left paid hplace hallowed =>
    have hweigh := weigh_set (Passage.timesPaid key a c) hplace
      ⟨request, .charging left, paid ++ [(key', reading)]⟩
    -- The passage gains the charge that the bucket has just let through.
    have hpaid : Passage.timesPaid key a c ⟨request, .charging left, paid ++ [(key', reading)]⟩ =
        Passage.timesPaid key a c ⟨request, .charging (key' :: left), paid⟩ +
          allowedIn key a c [(⟨key', reading⟩, true)] := by
      unfold Passage.timesPaid allowedIn
      rw [List.countP_append, List.countP_singleton, List.countP_singleton]
      rfl
    have hdecided : decisions (allowWith Limits.ofKey) g.buckets [⟨key', reading⟩] =
        [(⟨key', reading⟩, true)] := by
      rw [← hallowed]
      rfl
    rw [hdecided]
    dsimp only
    omega
  | @limited place reading request key' left paid hplace hlimited =>
    have hdecided : decisions (allowWith Limits.ofKey) g.buckets [⟨key', reading⟩] =
        [(⟨key', reading⟩, false)] := by
      rw [← hlimited]
      rfl
    rw [hdecided]
    exact hset hplace rfl
  | checked hplace hprotected => exact hset hplace rfl
  | opened hplace hopen => exact hset hplace rfl
  | platform request => rfl
  | stayed => rfl

end

/-- The decisions of a run are those of its first part, and then those of its second part. -/
theorem decisions_append (step : Buckets → RateCall → Buckets × Bool) (buckets : Buckets)
    (first second : List RateCall) :
    decisions step buckets (first ++ second) = decisions step buckets first ++
      decisions step (first.foldl (fun buckets call => (step buckets call).1) buckets) second := by
  induction first generalizing buckets with
  | nil => rfl
  | cons call first ih =>
    rw [List.cons_append, decisions, decisions, ih, List.cons_append]
    rfl

/-- What is let through in an interval adds up over the parts of a run. -/
theorem allowedIn_append (key : String) (a c : ℚ) (first second : List (RateCall × Bool)) :
    allowedIn key a c (first ++ second) = allowedIn key a c first + allowedIn key a c second :=
  List.countP_append

section

variable (config : GateConfig)

/-- The calls of the limiter in a run. -/
def rateCalls (g : Gate) (events : List GateEvent) : List RateCall :=
  emitted (Gate.step config) Gate.calls g events

/-- What is done to the platform store in a run. -/
def platformRequests (g : Gate) (events : List GateEvent) : List PlatformRequest :=
  emitted (Gate.step config) (Gate.requests config) g events

/-- The reading of the clock at an event. -/
def GateEvent.reading : GateEvent → Option ℚ
  | .charge _ reading => some reading
  | _ => none

end

section

variable {config : GateConfig}

variable (config) in

/-- The platform after a run of the gate is that after its requests. -/
theorem Gate.platform_foldl (g : Gate) (events : List GateEvent) :
    (events.foldl (Gate.step config) g).platform =
      (platformRequests config g events).foldl (PlatformStore.step config.crypto) g.platform :=
  foldl_emitted Gate.platform Gate.platform_step g events

variable (config) in

/-- What is paid in a run is what the limiter allows in it. -/
theorem Gate.timesPaid_foldl (g : Gate) (key : String) (a c : ℚ) (events : List GateEvent) :
    weigh (Passage.timesPaid key a c) (events.foldl (Gate.step config) g).passages =
      weigh (Passage.timesPaid key a c) g.passages + allowedIn key a c
        (decisions (allowWith Limits.ofKey) g.buckets (rateCalls config g events)) := by
  induction events generalizing g with
  | nil => rfl
  | cons event events ih =>
    have hcalls : rateCalls config g (event :: events) =
        g.calls event ++ rateCalls config (g.step config event) events := rfl
    rw [List.foldl_cons, ih, g.timesPaid_step, hcalls, decisions_append, allowedIn_append,
      g.buckets_step, Nat.add_assoc]
    rfl

/-- The calls of a run read the clock in the order of its events. -/
theorem rateCalls_sublist (g : Gate) (events : List GateEvent) :
    ((rateCalls config g events).map RateCall.now).Sublist
      (events.filterMap GateEvent.reading) := by
  induction events generalizing g with
  | nil => exact List.Sublist.refl _
  | cons event events ih =>
    have hcalls : rateCalls config g (event :: events) =
        g.calls event ++ rateCalls config (g.step config event) events := rfl
    have hevent : ((g.calls event).map RateCall.now).Sublist event.reading.toList := by
      have hmoves := g.moves config event
      generalize g.calls event = calls at hmoves ⊢
      generalize g.requests config event = requests at hmoves
      generalize g.step config event = g' at hmoves
      cases hmoves with
      | passed hplace hallowed => exact List.Sublist.refl _
      | limited hplace hlimited => exact List.Sublist.refl _
      | _ => exact List.nil_sublist _
    have hsplit : (event :: events).filterMap GateEvent.reading =
        event.reading.toList ++ events.filterMap GateEvent.reading := by
      rw [List.filterMap_cons]
      cases event.reading <;> rfl
    rw [hcalls, List.map_append, hsplit]
    exact hevent.append (ih _)

end

/-- Readings that do not go back at all are in order. -/
theorem InOrder.of_pairwise {limits : String → Limits} {calls : List RateCall} {buckets : Buckets}
    (h : (calls.map RateCall.now).Pairwise (· ≤ ·)) : InOrder limits buckets calls := by
  induction calls generalizing buckets with
  | nil => trivial
  | cons call rest ih =>
    rw [List.map_cons, List.pairwise_cons] at h
    exact ⟨fun later hlater _ => h.1 _ (List.mem_map_of_mem hlater), ih h.2⟩

/-- With readings in order no more calls are allowed for a key than its limits say. -/
theorem allowedIn_le_of_inOrder {limits : String → Limits} {calls : List RateCall}
    (horder : InOrder limits (.empty _) calls) (key : String) {a c : ℚ} (hac : a ≤ c) :
    (allowedIn key a c (decisions (allowWith limits) (.empty _) calls) : ℚ) ≤
      (limits key).burst + (limits key).rps * (c - a) := by
  have hagree : Agree limits (.empty _) (.empty _) calls := fun _ => .inl rfl
  have hlimited : Limited limits (.empty _) := by
    intro key b hb
    rw [Buckets.get?_empty] at hb
    cases hb
  have hbehind : Behind limits key (.empty _) calls := by
    intro b hb
    rw [Buckets.get?_empty] at hb
    cases hb
  rw [decisions_allowWith hagree hlimited horder]
  exact allowedIn_le_budgetOf hac horder.forward hbehind

/-! ## Who gets through -/

/-- Who the request at a place is from, on a protected route: the operator, whose key it presented,
or the user of a key that had been issued and not withdrawn when the request presented it. -/
inductive Identified (config : GateConfig) (events : List GateEvent) (place : ℕ) (r : HttpRequest) :
    Option RequestPrincipal → Prop
  | operator (hkey : config.apiKey.all fun expected => requestApiKey r.headers = some expected) :
    Identified config events place r (some .globalApiKey)
  | user {before : List GateEvent} {key : String} {auth : ApiKeyAuth}
    (hfinish : ∃ instant now after, events = before ++ .finish place instant now :: after)
    (hkey : requestApiKey r.headers = some key)
    (hissued : Since (PlatformStore.step config.crypto)
      (fun P request => request.issues config.crypto P key auth)
      (fun P request => request.withdraws P key auth) PlatformStore.new
      (platformRequests config Gate.new before))
    (hcluster : auth.clusterId.isSome) (hvalid : isValidUserId auth.userId) :
    Identified config events place r (some (.userApiKey auth))

/-- No key that is issued has the hash of another one that a request presents. -/
def HashesApart (config : GateConfig) (events : List GateEvent) : Prop :=
  ∀ request key, .arrive request ∈ events → requestApiKey request.headers = some key →
    ∀ issued, .platform issued ∈ events → issued.NoCollision config.crypto key

/-- The request has passed a bucket. -/
def Passage.Passed (p : Passage) (key : String) : Prop :=
  key ∈ p.paid.map Prod.fst

/-- A request on a limited route that does not come from the operator. -/
def HttpRequest.Limited (config : GateConfig) (r : HttpRequest) : Prop :=
  r.endpoint.route ∉ openRoutes ∧ r.endpoint.route.2 ∉ unlimitedPaths ∧
    ¬ (config.apiKey.isSome ∧ requestApiKey r.headers = config.apiKey)

/-- What holds of the requests that have got through in a run. -/
structure GateSafe (config : GateConfig) (events : List GateEvent) : Prop where
  /-- A limited request has passed the bucket of its address and that of its key. -/
  charged : ∀ p ∈ (Gate.after config events).passages, ∀ principal,
    p.stage = .admitted principal → p.request.Limited config →
      p.Passed ("addr:" ++ clientAddress p.request.headers p.request.peer config.trustProxy) ∧
        ∀ key, requestApiKey p.request.headers = some key → p.Passed ("key:" ++ key)
  /-- An attempt at credentials has passed its bucket, whoever makes it. -/
  attempted : ∀ p ∈ (Gate.after config events).passages, ∀ principal,
    p.stage = .admitted principal → p.request.endpoint.route ∈ credentialRoutes →
      p.Passed ("auth:" ++ clientAddress p.request.headers p.request.peer config.trustProxy)
  /-- A bucket lets no more requests through in an interval than its limits say. -/
  bounded : ∀ key a c, a ≤ c →
    ((Gate.after config events).passages.countP fun p => 0 < p.timesPaid key a c : ℚ) ≤
      (Limits.ofKey key).burst + (Limits.ofKey key).rps * (c - a)
  /-- A request on a protected route is from somebody. -/
  identified : ∀ place p principal, (Gate.after config events).passages[place]? = some p →
    p.stage = .admitted principal → p.request.endpoint.route ∈ protectedRoutes →
      Identified config events place p.request principal

section

variable {config : GateConfig} {events : List GateEvent}

/-- The gate after one more event. -/
theorem Gate.after_append (events : List GateEvent) (event : GateEvent) :
    Gate.after config (events ++ [event]) = (Gate.after config events).step config event := by
  unfold Gate.after
  rw [List.foldl_append]
  rfl

/-- What is said of a request stays true. -/
theorem Identified.append {place : ℕ} {r : HttpRequest} {principal : Option RequestPrincipal}
    (h : Identified config events place r principal) (event : GateEvent) :
    Identified config (events ++ [event]) place r principal := by
  cases h with
  | operator hkey => exact .operator hkey
  | user hfinish hkey hissued hcluster hvalid =>
    obtain ⟨instant, now, after, hsplit⟩ := hfinish
    refine .user ⟨instant, now, after ++ [event], ?_⟩ hkey hissued hcluster hvalid
    rw [hsplit, List.append_assoc, List.cons_append]

variable (config) in

/-- A request on its way has arrived. -/
theorem arrived_of_mem (events : List GateEvent) :
    ∀ p ∈ (Gate.after config events).passages, .arrive p.request ∈ events := by
  induction events using List.reverseRecOn with
  | nil =>
    intro p hp
    cases hp
  | append_singleton events event ih =>
    rw [Gate.after_append]
    -- Every step keeps the request of the passage that it changes.
    have hset : ∀ {place : ℕ} {p p' : Passage},
        (Gate.after config events).passages[place]? = some p → p'.request = p.request →
        ∀ q ∈ (Gate.after config events).passages.set place p',
          .arrive q.request ∈ events ++ [event] := by
      intro place p p' hplace hsame q hq
      rcases List.mem_or_eq_of_mem_set hq with hq | rfl
      · exact List.mem_append_left _ (ih q hq)
      · rw [hsame]
        exact List.mem_append_left _ (ih p (List.mem_of_getElem? hplace))
    generalize Gate.after config events = g at ih hset ⊢
    have hmoves := g.moves config event
    generalize g.calls event = calls at hmoves
    generalize g.requests config event = requests at hmoves
    generalize g.step config event = g' at hmoves ⊢
    cases hmoves with
    | arrived request =>
      intro p hp
      rcases List.mem_append.mp hp with hp | hp
      · exact List.mem_append_left _ (ih p hp)
      · rw [List.mem_singleton.mp hp]
        exact List.mem_append_right _ List.mem_cons_self
    | passed hplace hallowed => exact hset hplace rfl
    | limited hplace hlimited => exact hset hplace rfl
    | checked hplace hprotected => exact hset hplace rfl
    | opened hplace hopen => exact hset hplace rfl
    | platform request => exact fun p hp => List.mem_append_left _ (ih p hp)
    | stayed => exact fun p hp => List.mem_append_left _ (ih p hp)

/-- What is done to the platform store in a run is done from elsewhere, or looks up a key. -/
theorem noCollision_of_mem {before : List GateEvent} {key : String}
    (h : ∀ issued, .platform issued ∈ before → issued.NoCollision config.crypto key) :
    ∀ request ∈ platformRequests config Gate.new before,
      request.NoCollision config.crypto key := by
  intro request hrequest
  obtain ⟨first, event, rest, rfl, hmem⟩ := mem_emitted hrequest
  generalize first.foldl (Gate.step config) Gate.new = g at hmem
  have hmoves := g.moves config event
  generalize g.calls event = calls at hmoves
  generalize g.requests config event = requests at hmoves hmem
  generalize g.step config event = g' at hmoves
  cases hmoves with
  | platform issued =>
    rw [List.mem_singleton.mp hmem]
    exact h issued (by simp)
  | @checked place instant now asking paid hplace hprotected =>
    unfold lookups at hmem
    split_ifs at hmem
    · cases hmem
    · obtain ⟨presented, -, rfl⟩ := Option.map_eq_some_iff.mp (Option.mem_toList.mp hmem)
      intro issuedKey hissuedKey
      cases hissuedKey
  | _ => cases hmem

/-- Who gets through on a protected route was identified. -/
theorem identified_of_getElem? (hapart : HashesApart config events) (place : ℕ) (p : Passage)
    (principal : Option RequestPrincipal)
    (hplace : (Gate.after config events).passages[place]? = some p)
    (hstage : p.stage = .admitted principal)
    (hprotected : p.request.endpoint.route ∈ protectedRoutes) :
    Identified config events place p.request principal := by
  induction events using List.reverseRecOn generalizing place p principal with
  | nil => cases hplace
  | append_singleton events event ih =>
    have hapart' : HashesApart config events := fun request key harrive hkey issued hissued =>
      hapart request key (List.mem_append_left _ harrive) hkey issued
        (List.mem_append_left _ hissued)
    have hold := fun place p principal hplace hstage hprotected =>
      (ih hapart' place p principal hplace hstage hprotected).append event
    have harrived := arrived_of_mem config events
    have hplatform := Gate.platform_foldl config Gate.new events
    rw [Gate.after_append] at hplace
    change (Gate.after config events).platform = _ at hplatform
    generalize Gate.after config events = g at hold harrived hplatform hplace
    have hmoves := g.moves config event
    generalize g.calls event = calls at hmoves
    generalize g.requests config event = requests at hmoves
    generalize g.step config event = g' at hmoves hplace
    -- A passage that was put in its place is the one of the step, and all others are old.
    have hset : ∀ {changed : ℕ} {p' : Passage}, (g.passages.set changed p')[place]? = some p →
        (place = changed ∧ p = p') ∨ g.passages[place]? = some p := by
      intro changed p' hset
      rw [List.getElem?_set] at hset
      split_ifs at hset with hsame
      · exact .inl ⟨hsame.symm, (Option.some.inj hset).symm⟩
      · exact .inr hset
    -- Only a check admits to a protected route, and it reads the keys of the requests so far.
    cases hmoves with
    | arrived request =>
      rw [List.getElem?_append] at hplace
      split_ifs at hplace
      · exact hold place p principal hplace hstage hprotected
      · have hp := List.mem_singleton.mp (List.mem_of_getElem? hplace)
        rw [hp] at hstage
        exact absurd hstage (by simp)
    | passed hbefore hallowed =>
      rcases hset hplace with ⟨-, rfl⟩ | hplace
      · exact absurd hstage (by simp)
      · exact hold place p principal hplace hstage hprotected
    | limited hbefore hlimited =>
      rcases hset hplace with ⟨-, rfl⟩ | hplace
      · exact absurd hstage (by simp)
      · exact hold place p principal hplace hstage hprotected
    | @checked changed instant now request paid hbefore hroute =>
      rcases hset hplace with ⟨rfl, rfl⟩ | hplace
      · rcases authenticate_admitted hstage with
          ⟨hkey, rfl⟩ | ⟨key, auth, hkey, haccepted, hcluster, hvalid, rfl⟩
        · exact .operator hkey
        · refine .user ⟨instant, now, [], rfl⟩ hkey ?_ hcluster hvalid
          rw [hplatform] at haccepted
          refine (PlatformStore.acceptedKey_after auth
            (noCollision_of_mem fun issued hissued => ?_)).mp haccepted
          exact hapart' request key (harrived _ (List.mem_of_getElem? hbefore)) hkey issued hissued
      · exact hold place p principal hplace hstage hprotected
    | opened hbefore hopen =>
      rcases hset hplace with ⟨-, rfl⟩ | hplace
      · exact absurd hprotected hopen
      · exact hold place p principal hplace hstage hprotected
    | platform request => exact hold place p principal hplace hstage hprotected
    | stayed => exact hold place p principal hplace hstage hprotected

/-- A request that got through has passed all buckets that are charged for it. -/
theorem passed_of_admitted {p : Passage} (hp : p ∈ (Gate.after config events).passages)
    {principal : Option RequestPrincipal} (hstage : p.stage = .admitted principal) :
    ∀ key ∈ p.request.charges config, p.Passed key := by
  have hsound : ∀ p ∈ (Gate.after config events).passages, p.Sound config := by
    have hrun : EachStep (Gate.step config) (fun _ _ => True) Gate.new events :=
      fun _ _ _ _ => trivial
    refine hrun.invariant (I := fun g => ∀ p ∈ g.passages, p.Sound config)
      (fun g event h _ => Gate.sound_step h event) ?_
    intro p hp
    cases hp
  have hpaid := hsound p hp
  unfold Passage.Sound at hpaid
  rw [hstage] at hpaid
  intro key hkey
  unfold Passage.Passed
  rwa [hpaid]

/-- A limited request is charged to its address, and to its key if it has one. -/
theorem charges_of_limited {r : HttpRequest} (h : r.Limited config) :
    "addr:" ++ clientAddress r.headers r.peer config.trustProxy ∈ r.charges config ∧
      ∀ key, requestApiKey r.headers = some key → "key:" ++ key ∈ r.charges config := by
  obtain ⟨hopen, hunlimited, hoperator⟩ := h
  have hexempt : ¬ (r.operator config && config.apiKey.isSome) = true := by
    rw [Bool.and_eq_true]
    rintro ⟨hkey, hset⟩
    obtain ⟨expected, hexpected⟩ := Option.isSome_iff_exists.mp hset
    unfold HttpRequest.operator at hkey
    rw [authorizeGlobalApiKey_eq] at hkey
    unfold isGlobalApiKey at hkey
    rw [hexpected, Option.all_some, decide_eq_true_eq] at hkey
    exact hoperator ⟨hset, hkey.trans hexpected.symm⟩
  unfold HttpRequest.charges HttpRequest.limiterKeys
  rw [if_neg (not_or.mpr ⟨hopen, hunlimited⟩), if_neg hexempt]
  refine ⟨List.mem_append_left _ List.mem_cons_self, fun key hkey => ?_⟩
  rw [hkey]
  exact List.mem_append_left _ (List.mem_cons_of_mem _ List.mem_cons_self)

end

/-- However the steps of requests follow one another, if the clock does not go back the requests
that have got through are limited and identified. -/
theorem gate_safe (config : GateConfig) (events : List GateEvent)
    (horder : (events.filterMap GateEvent.reading).Pairwise (· ≤ ·))
    (hapart : HashesApart config events) : GateSafe config events where
  charged p hp principal hstage hlimited := by
    obtain ⟨haddress, hkey⟩ := charges_of_limited hlimited
    exact ⟨passed_of_admitted hp hstage _ haddress, fun key hpresented =>
      passed_of_admitted hp hstage _ (hkey key hpresented)⟩
  attempted p hp principal hstage hroute := by
    refine passed_of_admitted hp hstage _ (List.mem_append_right _ ?_)
    rw [if_pos hroute]
    exact List.mem_cons_self
  bounded key a c hac := by
    have hpaid := Gate.timesPaid_foldl config Gate.new key a c events
    have hcount : (Gate.after config events).passages.countP (fun p => 0 < p.timesPaid key a c) ≤
        weigh (Passage.timesPaid key a c) (Gate.after config events).passages := by
      -- A passage that has paid counts for one at least.
      generalize (Gate.after config events).passages = passages
      induction passages with
      | nil => exact le_refl _
      | cons p passages ih =>
        rw [List.countP_cons, weigh_cons]
        split_ifs with hpos
        · have hone := of_decide_eq_true hpos
          omega
        · omega
    have hempty : weigh (Passage.timesPaid key a c) Gate.new.passages = 0 := rfl
    -- The buckets are asked in the order of their readings.
    have hinorder : InOrder Limits.ofKey (.empty _) (rateCalls config Gate.new events) :=
      InOrder.of_pairwise (horder.sublist (rateCalls_sublist Gate.new events))
    refine le_trans ?_ (allowedIn_le_of_inOrder hinorder key hac)
    rw [hempty, Nat.zero_add] at hpaid
    exact_mod_cast hcount.trans hpaid.le
  identified := identified_of_getElem? hapart

/-- A server with an operator's key. -/
def plainGate : GateConfig := ⟨.plain, some "operator", false⟩

/-- A query with the key of a user. -/
def keyedQuery : HttpRequest where
  endpoint := ⟨(.post, "/query"), by decide⟩
  headers := ⟨some " ak_ada ", none, none⟩
  peer := some "10.0.0.1"

/-- A user's key is injected, and revoked as soon as it was presented. -/
def revokedRun : List GateEvent :=
  [.platform (.adminInjectApiKey "key_1" "usr_adalove" "laptop" "ak_ada" (some "c") 10),
    .arrive keyedQuery, .charge 0 1, .arrive keyedQuery, .charge 0 2, .charge 1 3, .finish 0 7 20,
    .platform (.adminRevokeApiKey "key_1"), .charge 1 4, .finish 1 8 30]

/-- The request that presented the key in time got through. -/
example : (Gate.after plainGate revokedRun).passages.map Passage.stage =
    [.admitted (some (.userApiKey ⟨"usr_adalove", "key_1", some "c"⟩)),
      .refused (.status .unauthorized)] := by
  decide +kernel

/-- The theorem at a run in which a key is revoked while a request with it is under way. -/
theorem gate_safe_revoked : GateSafe plainGate revokedRun :=
  gate_safe plainGate revokedRun (by decide +kernel) fun _ _ _ _ _ _ _ _ hsame => hsame

end Tellodb
