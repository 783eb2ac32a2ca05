import Tellodb.Api.Handlers
import Tellodb.Relational.Unwinding
import Mathlib.Algebra.GroupWithZero.Nat

/-!
# What one key is told of another

Two keys whose clusters differ may belong to one user, and then the handlers give them one tenant:
what is ingested with one of them is read with the other (`other_cluster`). The keys of two users
have two tenants, and what they still share is the cache of the reranker and the room for open
tenants. `answers_run` says of every run that a key is told the same with and without the requests
of the other, as long as these are of another user or only read (`Services.Leaves`), the scores that
the tenant finds in the cache are those of its own executors, and no tenant has to be closed
(`Services.Steady`). -/

namespace Tellodb

open Relational Cache

section

variable {γ : Type} {H : Hnsw γ} {F ρ : Type}

/-! ## Requests that read -/

/-- A request that changes no store and loads no segment. -/
def Request.isRead : Request → Bool
  | .currentFact _ _ _ => true
  | .factHistory _ _ => true
  | .graphQuery _ _ _ _ => true
  | .graphWalk _ _ _ _ => true
  | .graphExport _ _ _ _ => true
  | .memoryInspect _ _ _ => true
  | _ => false

/-- A read at a node, if there is one. -/
theorem exists_reads_of_map {node : Except StatusCode String}
    {response : String → TenantStore → Response ρ} {program : TenantHandle H → Program H F ρ}
    (h : (node.map fun node => reads (H := H) (F := F) (response node)) = .ok program) :
    ∃ response : TenantStore → Response ρ, program = reads response := by
  cases node with
  | error status => exact absurd h nofun
  | ok node => exact ⟨_, (Except.ok.inj h).symm⟩

/-! ## The handles -/

/-- A server without tenants. -/
def Server.new (H : Hnsw γ) (F : Type) (maxOpenTenants cacheSize : ℕ) : Server H F :=
  ⟨fun _ => .empty, .empty _ _ maxOpenTenants, .empty _ _ cacheSize⟩

namespace Server

variable {w : Server H F} {tenantId userId : String}

/-- The handle of a tenant that was used. -/
theorem tenantStore_put_self (hroom : w.tenants.HasRoom tenantId) (tenant : TenantHandle H)
    (cache : LruCache UInt64 (List F)) :
    (w.put tenantId tenant cache).tenantStore tenantId = ⟨tenant.store, tenant.index, []⟩ := by
  unfold put tenantStore
  dsimp only
  rw [Function.update_self, hroom.peek_put_self]
  rfl

/-- The handle of another tenant. -/
theorem tenantStore_put_of_ne (hroom : w.tenants.HasRoom tenantId) (hne : userId ≠ tenantId)
    (tenant : TenantHandle H) (cache : LruCache UInt64 (List F)) :
    (w.put tenantId tenant cache).tenantStore userId = w.tenantStore userId := by
  unfold put tenantStore
  dsimp only
  rw [Function.update_of_ne hne, hroom.peek_put_of_ne _ hne]

end Server

/-! ## The condition -/

variable [Zero F]

/-- Whatever a program finds in the cache of the reranker is what its executors give. -/
def Program.Fresh (E : Services H F ρ) (cache : LruCache UInt64 (List F)) : Program H F ρ → Prop
  | .respond _ _ => True
  | .rerank q texts next =>
    (∀ scores, cache.peek (rerankCacheKey E.hash q texts) = some scores →
      rerankChunks E.rerankers q texts = .ok scores) ∧
    (next (predictScoresBatch E.hash E.rerankers cache q texts).1).Fresh E
      (predictScoresBatch E.hash E.rerankers cache q texts).2

namespace Services

/-- The tenant that a call is for, if it is let in. -/
def tenantOf (E : Services H F ρ) (c : Call) : Option String :=
  (authorizeRequest E.apiKey E.authenticateApiKey c.apiKey).toOption.map RequestPrincipal.tenantId

/-- A call closes no other tenant, and if it is for the tenant of the user, finds no scores in the
cache that are not those of its executors. -/
structure Steady (E : Services H F ρ) (userId : String) (w : Server H F) (c : Call) : Prop where
  room : ∀ tenantId ∈ E.tenantOf c, w.tenants.HasRoom tenantId
  fresh : ∀ program, E.tenantOf c = some userId → c.request.program E c.moment = .ok program →
    (program (w.tenantStore userId)).Fresh E w.rerankCache

/-- A call that is steady and, if it is made with the other key, is for another tenant or a read. -/
structure Leaves (E : Services H F ρ) (userId otherKey : String) (w : Server H F) (c : Call) :
    Prop where
  steady : E.Steady userId w c
  apart : c.apiKey = some otherKey → E.tenantOf c ≠ some userId ∨ c.request.isRead = true

end Services

/-! ## One request -/

/-- The scores of texts from the executors alone. -/
def Services.scores (E : Services H F ρ) (q : String) (texts : List String) :
    Except String (List F) :=
  (predictScoresBatch E.hash E.rerankers (.empty _ _ 0) q texts).1

/-- What a program responds without the cache, and the handle after it. -/
def Program.answer (E : Services H F ρ) : Program H F ρ → Response ρ × TenantHandle H
  | .respond response tenant => (response, tenant)
  | .rerank q texts next => (next (E.scores q texts)).answer E

variable {E : Services H F ρ}

/-- The scores from a cache are those of the executors if the entry is. -/
theorem predictScoresBatch_eq {cache : LruCache UInt64 (List F)} {q : String} {texts : List String}
    (h : ∀ scores, cache.peek (rerankCacheKey E.hash q texts) = some scores →
      rerankChunks E.rerankers q texts = .ok scores) :
    (predictScoresBatch E.hash E.rerankers cache q texts).1 = E.scores q texts := by
  have hempty : (LruCache.empty UInt64 (List F) 0).peek (rerankCacheKey E.hash q texts) = none := rfl
  unfold Services.scores predictScoresBatch
  dsimp only
  split
  · rfl
  split
  · rfl
  rw [hempty]
  cases hpeek : cache.peek (rerankCacheKey E.hash q texts) with
  | some scores => rw [h scores hpeek]
  | none => cases rerankChunks E.rerankers q texts <;> rfl

/-- A program that finds only what its executors give does what it does without the cache. -/
theorem Program.run_eq {cache : LruCache UInt64 (List F)} {program : Program H F ρ}
    (h : program.Fresh E cache) :
    (program.run E cache).1 = (program.answer E).1 ∧
      (program.run E cache).2.1 = (program.answer E).2 := by
  induction program generalizing cache with
  | respond response tenant => exact ⟨rfl, rfl⟩
  | rerank q texts next ih =>
    obtain ⟨hfound, hnext⟩ := h
    have hrest := ih _ hnext
    rw [predictScoresBatch_eq hfound] at hrest
    rw [Program.run, Program.answer, predictScoresBatch_eq hfound]
    exact hrest

/-- A read leaves the handle as it is. -/
theorem Request.run_of_isRead {request : Request} (h : request.isRead = true) {m : Moment}
    {program : TenantHandle H → Program H F ρ} (hprogram : request.program E m = .ok program)
    (tenant : TenantHandle H) (cache : LruCache UInt64 (List F)) :
    ((program tenant).run E cache).2.1 = tenant := by
  have hreads : ∃ response : TenantStore → Response ρ, program = reads response := by
    cases request with
    | currentFact entityId factKey asOfMs => exact ⟨_, (Except.ok.inj hprogram).symm⟩
    | factHistory entityId factKey => exact ⟨_, (Except.ok.inj hprogram).symm⟩
    | memoryInspect memoryId window radius => exact ⟨_, (Except.ok.inj hprogram).symm⟩
    | graphQuery userId subject direction limit => exact exists_reads_of_map hprogram
    | graphWalk userId node direction limit => exact exists_reads_of_map hprogram
    | graphExport userId seed direction maxNodes => exact exists_reads_of_map hprogram
    | _ => exact absurd h Bool.false_ne_true
  obtain ⟨response, rfl⟩ := hreads
  rfl

namespace Server

variable {w : Server H F} {c : Call} {tenantId userId : String}

/-- A request from nobody, or one that is refused at once, changes nothing. -/
theorem serve_of_refused (h : ∀ tenantId program, E.tenantOf c = some tenantId →
    c.request.program E c.moment ≠ .ok program) :
    (w.serve E c).1 = w ∧ ∃ status, ∀ w' : Server H F, (w'.serve E c).2 = .refused status := by
  unfold Services.tenantOf at h
  unfold serve
  cases hprincipal : authorizeRequest E.apiKey E.authenticateApiKey c.apiKey with
  | error status => exact ⟨rfl, status, fun _ => rfl⟩
  | ok principal =>
    cases hprogram : c.request.program E c.moment with
    | error status => exact ⟨rfl, status, fun _ => rfl⟩
    | ok program =>
      rw [hprincipal] at h
      exact absurd hprogram (h _ program rfl)

/-- What a request does once its tenant is open. -/
theorem serve_of_ok {program : TenantHandle H → Program H F ρ}
    (htenant : E.tenantOf c = some tenantId)
    (hprogram : c.request.program E c.moment = .ok program) :
    w.serve E c =
      (w.put tenantId ((program (w.tenantStore tenantId)).run E w.rerankCache).2.1
        ((program (w.tenantStore tenantId)).run E w.rerankCache).2.2,
        ((program (w.tenantStore tenantId)).run E w.rerankCache).1) := by
  unfold Services.tenantOf at htenant
  cases hprincipal : authorizeRequest E.apiKey E.authenticateApiKey c.apiKey with
  | error status =>
    rw [hprincipal] at htenant
    exact absurd htenant nofun
  | ok principal =>
    rw [hprincipal] at htenant
    have hid : principal.tenantId = tenantId := Option.some.inj htenant
    simp only [serve, hprincipal, hprogram, hid]

/-- A request for another tenant, or a read, does not change the handle of a user. -/
theorem tenantStore_serve (hsteady : E.Steady userId w c)
    (hother : E.tenantOf c ≠ some userId ∨ c.request.isRead = true) :
    (w.serve E c).1.tenantStore userId = w.tenantStore userId := by
  by_cases h : ∃ tenantId program, E.tenantOf c = some tenantId ∧
      c.request.program E c.moment = .ok program
  · obtain ⟨tenantId, program, htenant, hprogram⟩ := h
    have hroom := hsteady.room tenantId htenant
    rw [serve_of_ok htenant hprogram]
    by_cases hsame : userId = tenantId
    · -- Then it is a read.
      subst hsame
      rw [Request.run_of_isRead (hother.resolve_left (not_not_intro htenant)) hprogram,
        tenantStore_put_self hroom]
      rfl
    · exact tenantStore_put_of_ne hroom hsame _ _
  · rw [(serve_of_refused fun tenantId program htenant hprogram =>
      h ⟨tenantId, program, htenant, hprogram⟩).1]

/-- Two servers with one handle of a user respond the same to a request for it, and have one handle
afterwards. -/
theorem serve_of_tenant {w' : Server H F} (hsame : w.tenantStore userId = w'.tenantStore userId)
    (hsteady : E.Steady userId w c) (hsteady' : E.Steady userId w' c)
    (htenant : E.tenantOf c = some userId) :
    (w.serve E c).2 = (w'.serve E c).2 ∧
      (w.serve E c).1.tenantStore userId = (w'.serve E c).1.tenantStore userId := by
  cases hprogram : c.request.program E c.moment with
  | error status =>
    have hrefused : ∀ tenantId program, E.tenantOf c = some tenantId →
        c.request.program E c.moment ≠ .ok program :=
      fun _ _ _ hok => absurd (hprogram.symm.trans hok) nofun
    obtain ⟨hstate, status, hresponse⟩ := serve_of_refused (w := w) hrefused
    rw [hstate, (serve_of_refused hrefused).1, hresponse, hresponse]
    exact ⟨rfl, hsame⟩
  | ok program =>
    have hrun := Program.run_eq (hsteady.fresh program htenant hprogram)
    have hrun' := Program.run_eq (hsteady'.fresh program htenant hprogram)
    rw [serve_of_ok htenant hprogram, serve_of_ok htenant hprogram]
    dsimp only
    rw [tenantStore_put_self (hsteady.room userId htenant),
      tenantStore_put_self (hsteady'.room userId htenant), hrun.1, hrun'.1, hrun.2, hrun'.2, hsame]
    exact ⟨rfl, rfl⟩

/-! ## Runs -/

/-- The requests of a key. -/
def madeWith (key : String) (c : Call) : Bool :=
  c.apiKey = some key

/-- Servers with one handle of a user stay so when one of them does not get the requests of the
other key. -/
theorem unwinding (E : Services H F ρ) {key otherKey : String} {auth otherAuth : ApiKeyAuth}
    (hkey : authorizeRequest E.apiKey E.authenticateApiKey (some key) = .ok (.userApiKey auth))
    (hother : authorizeRequest E.apiKey E.authenticateApiKey (some otherKey) =
      .ok (.userApiKey otherAuth))
    (hclusters : auth.clusterId ≠ otherAuth.clusterId) :
    Unwinding (serve E) (madeWith key) (madeWith otherKey) (E.Leaves auth.userId otherKey)
      (E.Steady auth.userId)
      (fun w w' : Server H F => w.tenantStore auth.userId = w'.tenantStore auth.userId) where
  hidden_step := by
    intro w w' c hsame hhidden hleaves
    rw [tenantStore_serve hleaves.steady (hleaves.apart (of_decide_eq_true hhidden)), hsame]
  step := by
    -- A call of the tenant does the same on both sides, and any other leaves the tenant alone.
    intro w w' c hsame hhidden hleaves hsteady
    by_cases htenant : E.tenantOf c = some auth.userId
    · exact (serve_of_tenant hsame hleaves.steady hsteady htenant).2
    · rw [tenantStore_serve hleaves.steady (.inl htenant), tenantStore_serve hsteady (.inl htenant),
        hsame]
  answer := by
    intro w w' c hsame hobserved hleaves hsteady
    refine (serve_of_tenant hsame hleaves.steady hsteady ?_).1
    have hmade : c.apiKey = some key := of_decide_eq_true hobserved
    unfold Services.tenantOf
    rw [hmade, hkey]
    rfl
  apart := by
    intro c hobserved
    refine decide_eq_false fun hmade => hclusters ?_
    have hboth : some key = some otherKey := (of_decide_eq_true hobserved).symm.trans hmade
    rw [hboth, hother] at hkey
    exact congrArg ApiKeyAuth.clusterId (RequestPrincipal.userApiKey.inj (Except.ok.inj hkey)).symm

/-- A key is told the same with and without the requests of a key of another cluster, in every run
in which these are of another user or reads, no tenant is closed, and the cache of the reranker
holds the scores that the tenant's requests would get without it. -/
theorem answers_run (E : Services H F ρ) {key otherKey : String} (auth otherAuth : ApiKeyAuth)
    (hkey : authorizeRequest E.apiKey E.authenticateApiKey (some key) = .ok (.userApiKey auth))
    (hother : authorizeRequest E.apiKey E.authenticateApiKey (some otherKey) =
      .ok (.userApiKey otherAuth))
    (hclusters : auth.clusterId ≠ otherAuth.clusterId) (w : Server H F) {calls : List Call}
    (hcalls : EachStep (fun w c => (serve E w c).1) (E.Leaves auth.userId otherKey) w calls)
    (hwithout : EachStep (fun w c => (serve E w c).1) (E.Steady auth.userId) w
      (calls.filter fun c => !madeWith otherKey c)) :
    answers (serve E) (madeWith key) w calls =
      answers (serve E) (madeWith key) w (calls.filter fun c => !madeWith otherKey c) :=
  (unwinding E hkey hother hclusters).answers_eq rfl hcalls hwithout

end Server

end

/-! ## One user with two clusters -/

/-- Services without models, where a payload is one memory and a query finds nothing. -/
def plainServices (authenticateApiKey : String → Except String (Option ApiKeyAuth)) :
    Services (Hnsw.exact (List ℚ)) ℕ Unit where
  apiKey := some "operator"
  authenticateApiKey := authenticateApiKey
  embedding := ⟨fun _ => [], id, fun _ _ => 0, ⟨.turn, 0⟩, false⟩
  vectors := ⟨id, 10⟩
  hash := fun _ => 0
  rerankers := []
  expand := fun m items w => .ok (
    { payloads := items
      enriched := items.map IngestPayload.textualContent
      admission := ⟨fun _ => none, fun _ => true, fun _ => false⟩
      order := m.order
      clock := m.clock
      artifacts := {}
      faults := ⟨false, false⟩ }, w)
  search := fun _ _ w => .respond (.results ()) w

/-- A memory is ingested with one key and inspected with another. -/
def toldCalls : List Call :=
  [⟨some "key-b", .ingest [{ IngestPayload.default with
      entityId := "alice", memoryId := "alice::s1::0", textualContent := "I moved to Denver." }],
      ⟨.insertion, ⟨100, 100, 100⟩, 100⟩⟩,
    ⟨some "key-a", .memoryInspect "alice::s1::0" none none, ⟨.insertion, ⟨200, 200, 200⟩, 200⟩⟩]

/-- A directory of two keys in two clusters. -/
def twoClusters (userA userB key : String) : Except String (Option ApiKeyAuth) :=
  .ok <| if key = "key-a" then some ⟨userA, "a", some "cluster-1"⟩
    else if key = "key-b" then some ⟨userB, "b", some "cluster-2"⟩ else none

/-- Keys of two users. -/
theorem two_users :
    answers (Server.serve (plainServices (twoClusters "usr_anna" "usr_bert")))
      (Server.madeWith "key-a") (.new _ _ 32 1) toldCalls =
    answers (Server.serve (plainServices (twoClusters "usr_anna" "usr_bert")))
      (Server.madeWith "key-a") (.new _ _ 32 1)
      (toldCalls.filter fun c => !Server.madeWith "key-b" c) := by
  refine Server.answers_run (plainServices (twoClusters "usr_anna" "usr_bert"))
    ⟨"usr_anna", "a", some "cluster-1"⟩ ⟨"usr_bert", "b", some "cluster-2"⟩ (by decide +kernel)
    (by decide +kernel) (by decide) (.new _ _ 32 1) ?_ ?_
  · refine EachStep.cons_iff.mpr ⟨⟨⟨by decide +kernel, ?_⟩, by decide +kernel⟩,
      EachStep.cons_iff.mpr ⟨⟨⟨by decide +kernel, ?_⟩, by decide +kernel⟩, .nil⟩⟩
    · exact fun _ htenant => absurd htenant (by decide +kernel)
    · intro program _ hprogram
      rw [← Except.ok.inj hprogram]
      trivial
  · refine EachStep.cons_iff.mpr ⟨⟨by decide +kernel, ?_⟩, .nil⟩
    intro program _ hprogram
    rw [← Except.ok.inj hprogram]
    trivial

/-- Keys of one user: what is ingested with one of them is told to the other. -/
theorem other_cluster :
    ¬ ∀ (E : Services (Hnsw.exact (List ℚ)) ℕ Unit) (key otherKey : String)
        (auth otherAuth : ApiKeyAuth),
      authorizeRequest E.apiKey E.authenticateApiKey (some key) = .ok (.userApiKey auth) →
      authorizeRequest E.apiKey E.authenticateApiKey (some otherKey) = .ok (.userApiKey otherAuth) →
      auth.clusterId ≠ otherAuth.clusterId → ∀ calls : List Call,
        answers (Server.serve E) (Server.madeWith key) (.new _ _ 32 1) calls =
          answers (Server.serve E) (Server.madeWith key) (.new _ _ 32 1)
            (calls.filter fun c => !Server.madeWith otherKey c) := by
  intro hclaim
  have hsame := hclaim (plainServices (twoClusters "usr_anna" "usr_anna")) "key-a" "key-b"
    ⟨"usr_anna", "a", some "cluster-1"⟩ ⟨"usr_anna", "b", some "cluster-2"⟩ (by decide +kernel)
    (by decide +kernel) (by decide) toldCalls
  exact absurd hsame (by decide +kernel)

end Tellodb
