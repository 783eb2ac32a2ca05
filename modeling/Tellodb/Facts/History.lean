import Tellodb.Facts.Chain
import Tellodb.Machine.Word

/-!
# Histories of registrations

`registerBatches` runs a history of batches, of any sizes and in any order of arrival, from given
tables. In a `Consistent` history no memory changes what it states under a key, and every key and
memory belong to one entity; times lie below `2^63`, where the casts between `u64` and `i64` keep
the order. The invariant of such a history (`Recorded`) is that the chains are linked and that
every version states something the history registered. -/

namespace Tellodb

open Relational FactTables FactVersion

/-- On values that are not negative the cast to `u64` keeps the value. -/
theorem toNat_toUInt64 {a : Int64} (h : 0 ≤ a.toInt) : (a.toUInt64.toNat : ℤ) = a.toInt := by
  have hlt := a.toUInt64.toNat_lt
  rw [← Int64.toInt_toBitVec, BitVec.toInt_eq_toNat_cond, Int64.toNat_toBitVec] at h ⊢
  split at h
  · rw [if_pos ‹_›]
  · omega

/-- A batch: an entity, the statements about it, and the reading of the recording clock. -/
structure FactBatch where
  entityId : String
  registrations : List FactRegistration
  recordedAt : UInt64

/-- The statements of a batch, each with its entity. -/
def FactBatch.statements (b : FactBatch) : List (String × FactRegistration) :=
  b.registrations.map fun f => (b.entityId, f)

/-- Runs a history of batches. -/
def registerBatches (T : FactTables) (H : List FactBatch) : Except String FactTables :=
  H.foldlM (fun T b =>
    (·.1) <$> T.registerFactVersionsTx b.entityId b.registrations b.recordedAt) T

/-- A result that evaluates to a value is a success with that value. -/
theorem exists_ok_of_evaluates {α β : Type*} {r : Except String α} {g : α → β} {b : β}
    (h : r.toOption.map g = some b) : ∃ a, r = .ok a ∧ g a = b := by
  cases r with
  | error e => exact absurd h (by simp [Except.toOption])
  | ok a => exact ⟨a, rfl, Option.some.inj h⟩

/-- No memory changes its statement under a key, and every key and memory belong to one entity. -/
structure Consistent (S : List (String × FactRegistration)) : Prop where
  /-- Every key and memory belong to one entity. -/
  entity : ∀ a ∈ S, ∀ b ∈ S, a.2.factKey = b.2.factKey → a.2.memoryId = b.2.memoryId → a.1 = b.1
  /-- An entity, key and memory are always presented with the same time and object. -/
  statement : ∀ a ∈ S, ∀ b ∈ S, a.1 = b.1 → a.2.factKey = b.2.factKey →
    a.2.memoryId = b.2.memoryId → a.2.timestamp = b.2.timestamp ∧ a.2.object = b.2.object
  /-- Times lie below `2^63`. -/
  bounded : ∀ a ∈ S, a.2.timestamp.toNat < 2 ^ 63

/-- The version states what was registered about an entity. -/
structure FactVersion.States (v : FactVersion) (a : String × FactRegistration) : Prop where
  entityId : v.entityId = a.1
  factKey : v.factKey = a.2.factKey
  memoryId : v.memoryId = a.2.memoryId
  timestampMs : v.timestampMs = a.2.timestamp.toInt64
  object : v.object = a.2.object

/-- Rows with one statement state the same. -/
theorem FactVersion.States.congr {v w : FactVersion} {a : String × FactRegistration}
    (h : v.States a) (hvw : v.statement = w.statement) : w.States a where
  entityId := (entityId_of_statement hvw).symm.trans h.entityId
  factKey := (factKey_of_statement hvw).symm.trans h.factKey
  memoryId := (memoryId_of_statement hvw).symm.trans h.memoryId
  timestampMs := (timestampMs_of_statement hvw).symm.trans h.timestampMs
  object := (object_of_statement hvw).symm.trans h.object

/-- The invariant of a history: linked chains of versions that state what was registered. -/
structure Recorded (S : List (String × FactRegistration)) (T : FactTables) : Prop where
  chained : Chained T
  states : ∀ v ∈ T.versions.rows, ∃ a ∈ S, v.States a

/-- In a consistent history a registration agrees with the version stored under its key. -/
theorem Recorded.agrees {S : List (String × FactRegistration)} {T : FactTables}
    (hT : Recorded S T) (hS : Consistent S) {a : String × FactRegistration} (ha : a ∈ S) :
    T.Agrees a.1 a.2 := by
  intro v hv hkey
  obtain ⟨b, hb, hstates⟩ := hT.states v hv
  have hfactKey : b.2.factKey = a.2.factKey :=
    hstates.factKey.symm.trans (congrArg Prod.fst hkey)
  have hmemoryId : b.2.memoryId = a.2.memoryId :=
    hstates.memoryId.symm.trans (congrArg Prod.snd hkey)
  have hentity := hS.entity b hb a ha hfactKey hmemoryId
  have htime := (hS.statement b hb a ha hentity hfactKey hmemoryId).1
  exact ⟨hstates.entityId.trans hentity, by rw [hstates.timestampMs, htime]⟩

/-- One registration of a consistent history keeps its invariant. -/
theorem Recorded.registeredFact {S : List (String × FactRegistration)} {T : FactTables}
    (hT : Recorded S T) (hS : Consistent S) {a : String × FactRegistration} (ha : a ∈ S)
    (recordedAt : UInt64) : Recorded S (T.registeredFact a.1 recordedAt a.2) := by
  refine ⟨hT.chained.registeredFact (.inr (hT.agrees hS ha)), fun v hv => ?_⟩
  have hv := List.mem_map_of_mem (f := FactVersion.statement) hv
  change v.statement ∈ FactTables.statements _ at hv
  have hold : ∀ w ∈ T.statements, w = v.statement → ∃ a ∈ S, v.States a := by
    intro w hw hwv
    obtain ⟨u, hu, rfl⟩ := List.mem_map.mp hw
    obtain ⟨b, hb, hstates⟩ := hT.states u hu
    exact ⟨b, hb, hstates.congr hwv⟩
  rcases T.statements_registeredFact a.1 recordedAt a.2 with h | h
  · exact hold _ (h ▸ hv) rfl
  · rw [h] at hv
    rcases List.mem_append.mp hv with hv | hv
    · exact hold _ hv rfl
    · have hnew : ((newVersion a.1 recordedAt a.2).withRowid T.versions.nextRowid).States a :=
        ⟨rfl, rfl, rfl, rfl, rfl⟩
      exact ⟨a, ha, hnew.congr (List.mem_singleton.mp hv).symm⟩

/-- Exactly one version of a linked chain is current, and it is the last. -/
theorem Chained.filter_current {T : FactTables} (hT : Chained T) (factKey entityId : String) :
    ((T.timeline factKey entityId).filter fun v => v.status = .current) =
      (T.timeline factKey entityId).getLast?.toList :=
  (hT.linked factKey entityId).filter_latest

/-- A linked chain with versions has a current version, its last. -/
theorem Chained.currentFactVersion {T : FactTables} (hT : Chained T) (factKey entityId : String) :
    T.currentFactVersion factKey entityId =
      (T.timeline factKey entityId).getLast?.map fun v =>
        (v.memoryId, v.timestampMs.toUInt64) := by
  unfold FactTables.currentFactVersion lastBy
  rw [(T.keyed_chainKey factKey entityId).orderBy_filter]
  change ((T.timeline factKey entityId).filter _).getLast?.map _ = _
  rw [hT.filter_current]
  cases (T.timeline factKey entityId).getLast? <;> rfl

/-- Over linked chains the repair loop does nothing: a batch is its loop. -/
theorem Chained.registerFactVersionsTx {T : FactTables} {entityId : String}
    {fs : List FactRegistration} {recordedAt : UInt64}
    (h : Chained (T.registeredAll entityId recordedAt fs)) :
    ∃ statuses, T.registerFactVersionsTx entityId fs recordedAt =
        .ok (T.registeredAll entityId recordedAt fs, statuses) ∧
      statuses.length = fs.length := by
  refine registerFactVersionsTx_of_current fun factKey hne => ?_
  rw [h.currentFactVersion, Option.isSome_map, List.getLast?_isSome]
  exact hne

/-- The run rule: what holds of the given tables and is kept by every registration of a history,
given what was registered before it, holds of the tables after the history, if it implies linked
chains. -/
theorem registerBatches_run {I : List (String × FactRegistration) → FactTables → Prop}
    (hchained : ∀ P T, I P T → Chained T) {P : List (String × FactRegistration)}
    {H : List FactBatch}
    (hstep : ∀ P' a rest T recordedAt, P ++ H.flatMap FactBatch.statements = P' ++ a :: rest →
      I P' T → I (P' ++ [a]) (T.registeredFact a.1 recordedAt a.2))
    {T : FactTables} (hT : I P T) :
    ∃ T', registerBatches T H = .ok T' ∧ I (P ++ H.flatMap FactBatch.statements) T' := by
  induction H generalizing P T with
  | nil => exact ⟨T, rfl, by simpa using hT⟩
  | cons b H ih =>
    -- The loop of the first batch, one registration at a time.
    have hloop : ∀ (fs : List FactRegistration) (P : List (String × FactRegistration))
        (T : FactTables), (∀ P' a rest T recordedAt,
          P ++ (fs.map (fun f => (b.entityId, f)) ++ H.flatMap FactBatch.statements) =
            P' ++ a :: rest → I P' T → I (P' ++ [a]) (T.registeredFact a.1 recordedAt a.2)) →
        I P T → I (P ++ fs.map fun f => (b.entityId, f))
          (T.registeredAll b.entityId b.recordedAt fs) := by
      intro fs
      induction fs with
      | nil =>
        intro P T _ hT
        simpa [registeredAll] using hT
      | cons f fs ihf =>
        intro P T hstep hT
        have hnext := hstep P (b.entityId, f) _ T b.recordedAt rfl hT
        have hrest := ihf (P ++ [(b.entityId, f)]) _ (by simpa using hstep) hnext
        simpa [registeredAll] using hrest
    rw [List.flatMap_cons] at hstep ⊢
    have hbatch := hloop b.registrations P T hstep hT
    obtain ⟨statuses, htx, -⟩ := (hchained _ _ hbatch).registerFactVersionsTx
    obtain ⟨T', hrun, hT'⟩ := ih (P := P ++ b.statements)
      (by simpa [List.append_assoc] using hstep) hbatch
    refine ⟨T', ?_, by simpa using hT'⟩
    unfold registerBatches at hrun ⊢
    rw [List.foldlM_cons, htx]
    exact hrun

/-- A consistent history runs without error and keeps its invariant. -/
theorem registerBatches_recorded {H : List FactBatch}
    (hH : Consistent (H.flatMap FactBatch.statements)) :
    ∃ T, registerBatches FactTables.empty H = .ok T ∧
      Recorded (H.flatMap FactBatch.statements) T := by
  refine registerBatches_run (I := fun _ T => Recorded (H.flatMap FactBatch.statements) T)
    (P := []) (fun _ _ hT => hT.chained) (fun P a rest T recordedAt hsplit hT => ?_)
    ⟨chained_empty, fun v hv => absurd hv List.not_mem_nil⟩
  refine hT.registeredFact hH ?_ recordedAt
  rw [List.nil_append] at hsplit
  rw [hsplit]
  exact List.mem_append_right _ List.mem_cons_self

end Tellodb
