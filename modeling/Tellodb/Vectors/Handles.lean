import Tellodb.Vectors.Interleaved
import Tellodb.Cache.Lru

/-!
# Handles of a tenant that is reopened

`TenantDatabaseManager` keeps the tenants that were used last. A tenant that is evicted and used
again gets a new handle with a vector index of its own, while operations that have the old handle
go on: they write to the same database, and tell the old index (`stale_handle`). `handles_run` is
what holds of every run in which an operation on a handle that is no longer kept touches no vector
of a segment that is loaded in the one that is (`TenantManager.Orderly`). -/

namespace Tellodb

open Relational Cache

/-! ## The manager -/

/-- A handle that was opened, with what the operations on it have left to do. -/
structure OpenTenant {γ : Type} (H : Hnsw γ) where
  tenantId : String
  index : VectorIndex H
  tasks : List IndexTask

/-- `TenantDatabaseManager`, with the databases and all handles that were opened. The cache holds
the handles by their number. -/
structure TenantManager {γ : Type} (H : Hnsw γ) where
  stores : String → TenantStore
  tenants : LruCache String ℕ
  handles : List (OpenTenant H)

/-- What may happen next. -/
inductive ManagerStep where
  /-- `get_tenant` -/
  | getTenant (tenantId : String)
  /-- A step of an operation that has a handle. -/
  | onHandle (handle : ℕ) (a : HandleStep)

namespace TenantManager

variable {γ : Type} {H : Hnsw γ}

/-- A manager over some databases. -/
def withCapacity (H : Hnsw γ) (capacity : ℕ) (stores : String → TenantStore) : TenantManager H :=
  ⟨stores, .empty String ℕ capacity, []⟩

/-- `get_tenant`, with the number of the handle. -/
def getTenant (w : TenantManager H) (tenantId : String) : TenantManager H × ℕ :=
  match w.tenants.peek tenantId with
  | some handle => (⟨w.stores, w.tenants.touch tenantId, w.handles⟩, handle)
  | none => (⟨w.stores, w.tenants.put tenantId w.handles.length,
      w.handles ++ [⟨tenantId, .new H, []⟩]⟩, w.handles.length)

/-- A handle on its database. -/
def on (w : TenantManager H) (tenant : OpenTenant H) : TenantHandle H :=
  ⟨w.stores tenant.tenantId, tenant.index, tenant.tasks⟩

/-- The next state of the manager. -/
def step (config : VectorConfig γ) (cosineSimilarity : List ℚ → List ℚ → ℚ) (w : TenantManager H) :
    ManagerStep → TenantManager H
  | .getTenant tenantId => (w.getTenant tenantId).1
  | .onHandle handle a =>
    match w.handles[handle]? with
    | some tenant =>
      let next := (w.on tenant).step config cosineSimilarity a
      ⟨Function.update w.stores tenant.tenantId next.store, w.tenants,
        w.handles.set handle ⟨tenant.tenantId, next.index, next.tasks⟩⟩
    | none => w

end TenantManager

/-! ## The condition -/

/-- A step on another handle of the tenant touches no vector of the segments that are loaded in this
one. -/
def TenantHandle.LeftAlone {γ : Type} {H : Hnsw γ} (w : TenantHandle H) : HandleStep → Prop
  | .commit _ _ b =>
    (∀ item ∈ b.observations, lastItem b.observations item.2.1 = some item →
      w.Loaded item.2.2.entityId → item.2.2.embedding.isEmpty = true) ∧
    ∀ v ∈ w.store.vectorLookup.rows, w.Loaded v.entityId →
      lastItem b.observations v.memoryId = none ∧
        ∀ update ∈ b.neighbourEmbeddingUpdates, update.1 ≠ v.memoryId
  | .delete _ _ memoryId _ => ∀ v ∈ w.store.vectorLookup.rows, w.Loaded v.entityId →
    v.memoryId ≠ memoryId ∧ sqlHasPrefix (derivedPrefix memoryId) v.memoryId = false
  | _ => True

instance {γ : Type} {H : Hnsw γ} (w : TenantHandle H) : (a : HandleStep) → Decidable (w.LeftAlone a)
  | .commit _ _ b => inferInstanceAs (Decidable ((∀ item ∈ b.observations, _) ∧
      ∀ v ∈ w.store.vectorLookup.rows, _))
  | .delete _ _ _ _ => inferInstanceAs (Decidable (∀ v ∈ w.store.vectorLookup.rows, _))
  | .reindex _ => .isTrue trivial
  | .load _ => .isTrue trivial
  | .advance _ _ => .isTrue trivial

section

variable {γ : Type} {H : Hnsw γ} {config : VectorConfig γ} {cosineSimilarity : List ℚ → List ℚ → ℚ}
  {w : TenantHandle H} {entityId : String}

/-- A commit that leaves the loaded segments alone leaves their vectors as they are. -/
theorem storedCode_commitIngest_of_leftAlone {order : HashOrder} {clock : IngestClock}
    {b : IngestBatches} {S' : TenantStore} {outcome : CommitOutcome}
    (hw : Anchored w.store.memories w.store.vectorLookup)
    (h : w.store.commitIngest cosineSimilarity order clock b = .ok (S', outcome))
    (hleft : w.LeftAlone (.commit order clock b)) (hloaded : w.Loaded entityId) (id : ℕ) :
    storedCode config S'.vectorLookup entityId id =
      storedCode config w.store.vectorLookup entityId id := by
  obtain ⟨s, hwritten, hcode, -, -⟩ := commitIngest_written config hw h
  obtain ⟨hnew, hold⟩ := hleft
  -- A vector that is stored is that of one memory, before and after.
  have hname : ∀ v ∈ w.store.vectorLookup.rows, ∀ r ∈ s.1.rows, r.rowid = v.vectorId →
      r.memoryId = v.memoryId := by
    intro v hv r hr hrowid
    obtain ⟨q, hq, hqrowid, hqname, -⟩ := hw v hv
    obtain ⟨q', hq', hq'rowid, hq'name⟩ := hwritten.kept q hq
    rw [eq_of_rowid hr hq' (hrowid.trans (hqrowid.symm.trans hq'rowid.symm)), hq'name, hqname]
  -- The memories that are written have no vector under the entity, before or after.
  have hwrite : storedCode config s.2.1 entityId id =
      storedCode config w.store.vectorLookup entityId id := by
    rw [hwritten.code entityId id]
    cases hlast : lastWrite (b.observations.zip s.2.2) id with
    | none => rfl
    | some x =>
      have hxid := List.find?_some hlast
      have hx := List.mem_reverse.mp (List.mem_of_find?_eq_some hlast)
      obtain ⟨r, hr, hrowid, hrname⟩ := hwritten.named x hx
      have hitem := hwritten.lastItem_eq hr
      rw [hrowid, of_decide_eq_true hxid, hlast, hrname] at hitem
      have hmem : x.1 ∈ b.observations := (List.of_mem_zip hx).1
      rw [Option.elim_some, if_neg]
      · refine (storedCode_eq_none.mpr fun v hv hid hentity => ?_).symm
        have hsame := hname v hv r hr (hrowid.trans ((of_decide_eq_true hxid).trans hid.symm))
        have hnone := (hold v hv (hentity ▸ hloaded)).1
        rw [← hsame, hrname, hitem] at hnone
        exact absurd hnone (by simp)
      · rintro ⟨hsome, hentity⟩
        have hempty := hnew x.1 hmem hitem (hentity ▸ hloaded)
        rw [hsome] at hempty
        exact absurd hempty (by simp)
  rw [hcode entityId id, hwrite]
  -- No neighbour that is written has its vector under the entity.
  cases hstored : storedCode config w.store.vectorLookup entityId id with
  | none => rfl
  | some code =>
    obtain ⟨v, hv, hid, hentity, -⟩ := storedCode_eq_some.mp hstored
    cases hneighbour : lastNeighbour (neighbourVectors s.2.1 b.neighbourEmbeddingUpdates) id with
    | none => rfl
    | some n =>
      have hnid := List.find?_some hneighbour
      have hn := List.mem_reverse.mp (List.mem_of_find?_eq_some hneighbour)
      obtain ⟨update, hupdate, -, u, hu, huid, huname⟩ := memoryId_neighbourVectors hn
      obtain ⟨r, hr, hrowid, hrname, -⟩ := hwritten.anchored u hu
      have hsame := hname v hv r hr (hrowid.trans
        (huid.trans ((of_decide_eq_true hnid).trans hid.symm)))
      exact absurd (huname.symm.trans (hrname.symm.trans hsame))
        ((hold v hv (hentity ▸ hloaded)).2 update hupdate)

/-- A deletion that leaves the loaded segments alone leaves their vectors as they are. -/
theorem storedCode_deleteObservation_of_leftAlone {order : HashOrder} {now : UInt64}
    {memoryId reason : String} (hleft : w.LeftAlone (.delete order now memoryId reason))
    (hloaded : w.Loaded entityId) (id : ℕ) :
    storedCode config (w.store.deleteObservation order now memoryId reason).1.vectorLookup entityId
      id = storedCode config w.store.vectorLookup entityId id := by
  refine Option.ext fun code => ?_
  rw [storedCode_eq_some, storedCode_eq_some]
  constructor
  · rintro ⟨v, hv, hplace⟩
    exact ⟨v, (mem_vectorLookup_deleteObservation.mp hv).1, hplace⟩
  · rintro ⟨v, hv, hid, hentity, hcode⟩
    obtain ⟨hself, hstarts⟩ := hleft v hv (hentity ▸ hloaded)
    refine ⟨v, mem_vectorLookup_deleteObservation.mpr ⟨hv, hself, fun hchunk => ?_⟩, hid, hentity,
      hcode⟩
    obtain ⟨r, -, hname, hchunk⟩ := (mem_chunkIds _ _).mp hchunk
    rw [hstarts] at hchunk
    exact absurd hchunk (by simp)

/-- A step keeps the vectors at their memories. -/
theorem TenantHandle.anchored_step (hw : Anchored w.store.memories w.store.vectorLookup)
    (a : HandleStep) : Anchored (w.step config cosineSimilarity a).store.memories
      (w.step config cosineSimilarity a).store.vectorLookup := by
  cases a with
  | commit order clock b =>
    cases hcommit : w.store.commitIngest cosineSimilarity order clock b with
    | error e =>
      rw [step_commit_of_error hcommit]
      exact hw
    | ok result =>
      rw [step_commit_of_ok hcommit]
      exact hw.commitIngest hcommit
  | delete order now memoryId reason => exact hw.deleteObservation
  | reindex memoryIds => exact hw
  | load entityId => exact hw
  | advance i entityId =>
    cases htask : w.tasks[i]? with
    | none =>
      rw [step_advance_of_none htask]
      exact hw
    | some task =>
      rw [step_advance htask]
      exact hw

/-- A step on another handle that leaves the loaded segments alone leaves their vectors as they
are. -/
theorem storedCode_step_of_leftAlone {w' : TenantHandle H} {a : HandleStep}
    (hstore : w'.store = w.store) (hw : Anchored w.store.memories w.store.vectorLookup)
    (hleft : w.LeftAlone a) (hloaded : w.Loaded entityId) (id : ℕ) :
    storedCode config (w'.step config cosineSimilarity a).store.vectorLookup entityId id =
      storedCode config w.store.vectorLookup entityId id := by
  -- Only a commit and a deletion change the vectors.
  cases a with
  | commit order clock b =>
    cases hcommit : w'.store.commitIngest cosineSimilarity order clock b with
    | error e => rw [TenantHandle.step_commit_of_error hcommit, hstore]
    | ok result =>
      rw [TenantHandle.step_commit_of_ok hcommit]
      rw [hstore] at hcommit
      exact storedCode_commitIngest_of_leftAlone hw hcommit hleft hloaded id
  | delete order now memoryId reason =>
    show storedCode config (w'.store.deleteObservation order now memoryId reason).1.vectorLookup _ _
      = _
    rw [hstore]
    exact storedCode_deleteObservation_of_leftAlone hleft hloaded id
  | reindex memoryIds => exact congrArg (fun S => storedCode config S.vectorLookup entityId id) hstore
  | load part => exact congrArg (fun S => storedCode config S.vectorLookup entityId id) hstore
  | advance i part =>
    cases htask : w'.tasks[i]? with
    | none => rw [TenantHandle.step_advance_of_none htask, hstore]
    | some task =>
      rw [TenantHandle.step_advance htask]
      exact congrArg (fun S => storedCode config S.vectorLookup entityId id) hstore

end

namespace TenantManager

variable {γ : Type} {H : Hnsw γ}

/-- A step on the handle that is kept for its tenant is in order, and one on another handle leaves
that one alone. -/
def Orderly (config : VectorConfig γ) (w : TenantManager H) : ManagerStep → Prop
  | .getTenant _ => True
  | .onHandle handle a => ∀ tenant ∈ w.handles[handle]?, ∀ kept ∈ w.tenants.entries,
    kept.1 = tenant.tenantId →
      if kept.2 = handle then (w.on tenant).Orderly config a
      else ∀ current ∈ w.handles[kept.2]?, (w.on current).LeftAlone a

instance [DecidableEq γ] (config : VectorConfig γ) (w : TenantManager H) :
    (a : ManagerStep) → Decidable (w.Orderly config a)
  | .getTenant _ => .isTrue trivial
  | .onHandle handle _ => inferInstanceAs (Decidable (∀ tenant ∈ w.handles[handle]?, _))

/-! ## Runs -/

/-- The vectors of every tenant are at their memories, and the handle that is kept for a tenant
agrees with them except where a patch is still owed. -/
structure Sound (config : VectorConfig γ) (w : TenantManager H) : Prop where
  anchored : ∀ tenantId, Anchored (w.stores tenantId).memories (w.stores tenantId).vectorLookup
  kept : ∀ entry ∈ w.tenants.entries, ∃ tenant, w.handles[entry.2]? = some tenant ∧
    tenant.tenantId = entry.1 ∧ (w.on tenant).Sound config

section

variable {config : VectorConfig γ} {cosineSimilarity : List ℚ → List ℚ → ℚ} {w : TenantManager H}

/-- A tenant that is used has a handle that agrees with the store. -/
theorem Sound.getTenant (hw : w.Sound config) (tenantId : String) :
    (w.getTenant tenantId).1.Sound config ∧ ∃ tenant,
      (w.getTenant tenantId).1.handles[(w.getTenant tenantId).2]? = some tenant ∧
        tenant.tenantId = tenantId ∧ ((w.getTenant tenantId).1.on tenant).Sound config := by
  unfold TenantManager.getTenant
  cases hpeek : w.tenants.peek tenantId with
  | some handle =>
    dsimp only
    exact ⟨⟨hw.anchored, fun entry hentry => hw.kept entry (LruCache.mem_touch hentry)⟩,
      hw.kept (tenantId, handle) (LruCache.mem_of_peek hpeek)⟩
  | none =>
    dsimp only
    have hnew : (w.handles ++ [(⟨tenantId, .new H, []⟩ : OpenTenant H)])[w.handles.length]? =
        some ⟨tenantId, .new H, []⟩ := List.getElem?_concat_length
    have hsound : (TenantHandle.new H (w.stores tenantId)).Sound config :=
      TenantHandle.sound_new (hw.anchored tenantId)
    refine ⟨⟨hw.anchored, fun entry hentry => ?_⟩, _, hnew, rfl, hsound⟩
    rcases LruCache.mem_put hentry with rfl | hold
    · exact ⟨_, hnew, rfl, hsound⟩
    · obtain ⟨tenant, htenant, hid, hkept⟩ := hw.kept entry hold
      refine ⟨tenant, ?_, hid, hkept⟩
      rw [List.getElem?_append_left (List.getElem?_eq_some_iff.mp htenant).1]
      exact htenant

/-- The state after a step on a handle. -/
theorem step_onHandle {handle : ℕ} {tenant : OpenTenant H} (h : w.handles[handle]? = some tenant)
    (a : HandleStep) : w.step config cosineSimilarity (.onHandle handle a) =
      ⟨Function.update w.stores tenant.tenantId
          ((w.on tenant).step config cosineSimilarity a).store, w.tenants,
        w.handles.set handle ⟨tenant.tenantId, ((w.on tenant).step config cosineSimilarity a).index,
          ((w.on tenant).step config cosineSimilarity a).tasks⟩⟩ := by
  simp only [step, h]

/-- Nothing happens on a handle that was not opened. -/
theorem step_onHandle_of_none {handle : ℕ} (h : w.handles[handle]? = none) (a : HandleStep) :
    w.step config cosineSimilarity (.onHandle handle a) = w := by
  simp only [step, h]

/-- A step on a handle keeps the handles that are kept in agreement with their stores. -/
theorem Sound.onHandle (hw : w.Sound config) {handle : ℕ} {a : HandleStep}
    (ha : w.Orderly config (.onHandle handle a)) :
    (w.step config cosineSimilarity (.onHandle handle a)).Sound config := by
  cases htenant : w.handles[handle]? with
  | none =>
    rw [step_onHandle_of_none htenant]
    exact hw
  | some tenant =>
    rw [step_onHandle htenant]
    have hlt := (List.getElem?_eq_some_iff.mp htenant).1
    have hanchored : Anchored ((w.on tenant).step config cosineSimilarity a).store.memories
        ((w.on tenant).step config cosineSimilarity a).store.vectorLookup :=
      TenantHandle.anchored_step (hw.anchored tenant.tenantId) a
    -- The store of the tenant has changed, and the others have not.
    refine ⟨fun tenantId => ?_, fun entry hentry => ?_⟩
    · by_cases hid : tenantId = tenant.tenantId
      · subst hid
        dsimp only
        rw [Function.update_self]
        exact hanchored
      · dsimp only
        rw [Function.update_of_ne hid]
        exact hw.anchored tenantId
    -- A kept handle is this one, another one of the tenant, or one of another tenant.
    · obtain ⟨current, hcurrent, hid, hkept⟩ := hw.kept entry hentry
      by_cases hsame : entry.2 = handle
      · -- The handle itself is the one that is kept.
        obtain rfl := Option.some.inj ((hsame ▸ hcurrent).symm.trans htenant)
        have horder := ha current htenant entry hentry hid.symm
        rw [if_pos hsame] at horder
        refine ⟨_, (congrArg (fun i => (w.handles.set handle _)[i]?) hsame).trans
          (List.getElem?_set_self hlt), hid, ?_⟩
        unfold on
        dsimp only
        rw [Function.update_self]
        exact hkept.step horder
      · refine ⟨current, by rw [List.getElem?_set_ne (Ne.symm hsame)]; exact hcurrent, hid, ?_⟩
        by_cases hother : current.tenantId = tenant.tenantId
        · -- Another handle of the tenant is, which is left alone.
          have hleft := ha tenant htenant entry hentry (hid.symm.trans hother)
          rw [if_neg hsame] at hleft
          have hstore : (w.on tenant).store = (w.on current).store := congrArg w.stores hother.symm
          unfold on
          dsimp only
          rw [hother, Function.update_self]
          refine ⟨hanchored, ?_⟩
          have hwritten : Cache.Coherent (storedCode config ((w.on tenant).step config cosineSimilarity
              a).store.vectorLookup) current.index.held ((w.on current).owed config ++ []) :=
            hkept.coherent.write fun entityId hloaded id => .inl
              (storedCode_step_of_leftAlone hstore hkept.anchored (hleft current hcurrent)
                (TenantHandle.loaded_iff.mp hloaded) id)
          rw [List.append_nil] at hwritten
          exact hwritten
        · unfold on
          dsimp only
          rw [Function.update_of_ne hother]
          exact hkept

/-- Every step in order keeps the handles that are kept in agreement with their stores. -/
theorem Sound.step (hw : w.Sound config) {a : ManagerStep} (ha : w.Orderly config a) :
    (w.step config cosineSimilarity a).Sound config := by
  cases a with
  | getTenant tenantId => exact (hw.getTenant tenantId).1
  | onHandle handle a => exact hw.onHandle ha

/-- When nothing is left to do after steps in order, a search through the handle of a tenant sees
exactly its vectors. -/
theorem handles_run (H : Hnsw γ) (capacity : ℕ) (earlier : String → List StoreStep)
    {steps : List ManagerStep} :
    let stores := fun tenantId =>
      (earlier tenantId).foldl (TenantStore.step cosineSimilarity) TenantStore.empty
    let w := steps.foldl (TenantManager.step config cosineSimilarity)
      (withCapacity H capacity stores)
    EachStep (TenantManager.step config cosineSimilarity) (Orderly config)
      (withCapacity H capacity stores) steps →
    (∀ tenant ∈ w.handles, (w.on tenant).owed config = []) →
    ∀ tenantId, ∃ tenant,
      (w.getTenant tenantId).1.handles[(w.getTenant tenantId).2]? = some tenant ∧
        tenant.tenantId = tenantId ∧ tenant.index.Sees config (w.stores tenantId) := by
  intro stores w hrun howed tenantId
  have hfirst : (withCapacity H capacity stores).Sound config :=
    ⟨fun tenantId => anchored_run (earlier tenantId), fun _ h => absurd h List.not_mem_nil⟩
  have hw : w.Sound config := hrun.invariant (fun _ _ hw ha => hw.step ha) hfirst
  obtain ⟨-, tenant, htenant, rfl, hsound⟩ := hw.getTenant tenantId
  refine ⟨tenant, htenant, rfl, VectorIndex.Mirrors.sees ?_⟩
  -- A handle that is new has nothing left to do, like the others.
  have hnone : ((w.getTenant tenant.tenantId).1.on tenant).owed config = [] := by
    have hmem := List.mem_of_getElem? htenant
    unfold TenantManager.getTenant at hmem
    split at hmem
    · exact howed tenant hmem
    · rcases List.mem_append.mp hmem with hold | hnew
      · exact howed tenant hold
      · rw [List.mem_singleton.mp hnew]
        rfl
  have hcoherent := hsound.coherent
  rw [hnone] at hcoherent
  refine VectorIndex.mirrors_iff.mpr fun entityId held hheld => ?_
  have hstores : (w.getTenant tenant.tenantId).1.stores = w.stores := by
    unfold TenantManager.getTenant
    split <;> rfl
  have heq := hcoherent.eq hheld
  unfold on at heq
  rw [hstores] at heq
  exact heq

end

end TenantManager

/-! ## A handle that is stale -/

/-- The commit of one memory. -/
private def seenCommit (embedding : List ℚ) : HandleStep :=
  .commit .insertion ⟨100, 100, 100⟩ { observations := [(100, "alice::s1::0",
    { entityId := "alice"
      textualContent := "lives in Oslo"
      embedding := embedding
      kind := .fact
      contentHash := "h1"
      expiresAtMs := none
      sessionId := "s1"
      turnIndex := 0
      role := ""
      parentMemoryId := none })] }

/-- A tenant is evicted while an ingest has its handle, and used again before the ingest commits. -/
theorem stale_handle :
    let w := [.getTenant "usr_a", .getTenant "usr_b", .getTenant "usr_a",
      .onHandle 2 (.load "alice"), .onHandle 0 (seenCommit [1]),
      .onHandle 0 (.advance 0 "alice")].foldl
        (TenantManager.step (⟨id, 10⟩ : VectorConfig (List ℚ)) fun _ _ => 0)
        (TenantManager.withCapacity (Hnsw.exact (List ℚ)) 1 fun _ => TenantStore.empty)
    (∀ tenant ∈ w.handles, (w.on tenant).owed ⟨id, 10⟩ = []) ∧
      ∀ tenant ∈ (w.getTenant "usr_a").1.handles[(w.getTenant "usr_a").2]?,
        ¬ tenant.index.Sees ⟨id, 10⟩ (w.stores "usr_a") := by
  refine ⟨by decide +kernel, fun tenant htenant => ?_⟩
  refine VectorIndex.not_sees "alice" 1 none ?_ (by decide +kernel)
  revert htenant
  revert tenant
  decide +kernel

/-- The ingest commits before the segment is loaded in the new handle, and the memory is then
written again through that one. -/
theorem handle_in_turn :
    let w := [.getTenant "usr_a", .getTenant "usr_b", .getTenant "usr_a",
      .onHandle 0 (seenCommit [1]), .onHandle 2 (.load "alice"), .onHandle 0 (.advance 0 "alice"),
      .onHandle 2 (seenCommit [2]), .onHandle 2 (.advance 0 "alice")].foldl
        (TenantManager.step (⟨id, 10⟩ : VectorConfig (List ℚ)) fun _ _ => 0)
        (TenantManager.withCapacity (Hnsw.exact (List ℚ)) 1 fun _ => TenantStore.empty)
    ∀ tenantId, ∃ tenant,
      (w.getTenant tenantId).1.handles[(w.getTenant tenantId).2]? = some tenant ∧
        tenant.tenantId = tenantId ∧ tenant.index.Sees ⟨id, 10⟩ (w.stores tenantId) :=
  TenantManager.handles_run (Hnsw.exact (List ℚ)) 1 (fun _ => []) (by decide +kernel)
    (by decide +kernel)

end Tellodb
