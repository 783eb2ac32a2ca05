import Tellodb.Facts.Batch

/-!
# Chains stay linked

`Chained` is the invariant of the fact tables: every chain, in its order, is a linked timeline,
and every version is valid from its own time. A registration keeps it if it restates its covering
version, or if the version already stored under its key and memory, should there be one, is of the
same entity and time (`Chained.registeredFact`). Such a registration restores exactly the columns
that its insertion disturbs, which is `Linked.splice` of the timeline library.

A history in which no memory changes its statement keeps it from the empty tables on, and
`registerBatches_chained` reads off the columns, the current version and the version in force at
every instant. -/

namespace Tellodb

open Relational

/-- The invariant of the fact tables. -/
structure Chained (T : FactTables) : Prop where
  /-- The columns of every version agree with its place in its chain. -/
  linked : ∀ factKey entityId, Linked ((T.timeline factKey entityId).map FactVersion.entry)
  /-- Every version is valid from its own time. -/
  validFrom : ∀ v ∈ T.versions.rows, v.validFromMs = v.timestampMs

namespace FactTables

open FactVersion

/-- The empty tables are chained. -/
theorem chained_empty : Chained FactTables.empty :=
  ⟨fun _ _ => Linked.nil, fun _ hv => absurd hv List.not_mem_nil⟩

/-- A version stored under the key and memory of a registration is of the same entity and time. -/
def Agrees (T : FactTables) (entityId : String) (f : FactRegistration) : Prop :=
  ∀ v ∈ T.versions.rows, v.primaryKey = (f.factKey, f.memoryId) →
    v.entityId = entityId ∧ v.timestampMs = f.timestamp.toInt64

instance (T : FactTables) (entityId : String) (f : FactRegistration) :
    Decidable (T.Agrees entityId f) :=
  inferInstanceAs (Decidable (∀ v ∈ T.versions.rows, v.primaryKey = (f.factKey, f.memoryId) →
    v.entityId = entityId ∧ v.timestampMs = f.timestamp.toInt64))

/-- The version that a registration finds or makes under its key and memory is of its entity and
time, if it agrees with the one stored before. -/
theorem Agrees.stored {T : FactTables} {entityId : String} {f : FactRegistration}
    (h : T.Agrees entityId f) {recordedAt : UInt64} {n : FactVersion}
    (hn : (T.inserted entityId recordedAt f).versions.find? (f.factKey, f.memoryId) = some n) :
    n.entityId = entityId ∧ n.timestampMs = f.timestamp.toInt64 := by
  obtain ⟨hmem, hkey⟩ := Table.find?_eq_some.mp hn
  rcases T.inserted_cases entityId recordedAt f with ⟨-, -, -, hsame⟩ | ⟨-, hrows⟩
  · exact h n (hsame ▸ hmem) hkey
  · rw [hrows] at hmem
    rcases List.mem_append.mp hmem with hmem | hmem
    · exact h n hmem hkey
    · rw [List.mem_singleton.mp hmem]
      exact ⟨rfl, rfl⟩

/-- Without the row just appended, a chain is what it was. -/
theorem timeline_of_append {T T' : FactTables} {n : FactVersion} {factKey entityId : String}
    {before after : List FactVersion} (hrows : T'.versions.rows = T.versions.rows ++ [n])
    (hsplit : T'.timeline factKey entityId = before ++ n :: after) :
    T.timeline factKey entityId = before ++ after := by
  have hn := mem_timeline.mp (hsplit ▸ List.mem_append_right before List.mem_cons_self)
  have hchain : T'.chain factKey entityId = T.chain factKey entityId ++ [n] := by
    unfold chain
    rw [hrows, List.filter_append]
    simp [hn.2]
  have hsub : (before ++ after).Sublist (before ++ n :: after) :=
    (List.sublist_cons_self n after).append_left before
  refine orderBy_eq_of_pairwise ((hsplit ▸ T'.timeline_pairwise factKey entityId).sublist hsub) ?_
  -- Both sides with `n` in front rearrange the chain that has it.
  have hperm : (n :: (before ++ after)).Perm (n :: T.chain factKey entityId) := by
    refine List.perm_middle.symm.trans ?_
    rw [← hsplit]
    refine (orderBy_perm _ _).trans ?_
    rw [hchain]
    exact List.perm_append_singleton n _
  exact hperm.cons_inv

/-- Around a version that agrees with its registration, the two halves of the chain are linked. -/
theorem linked_halves {T : FactTables} (hT : Chained T) {entityId : String} {recordedAt : UInt64}
    {f : FactRegistration} {n : FactVersion} {before after : List FactVersion}
    (hn : (T.inserted entityId recordedAt f).versions.find? (f.factKey, f.memoryId) = some n)
    (hsplit : (T.inserted entityId recordedAt f).timeline f.factKey entityId =
      before ++ n :: after) :
    (before.map entry).IsChain Entry.Follows ∧ (after.map entry).IsChain Entry.Follows ∧
      (∀ v ∈ (before.map entry).head?, v.previous = none) ∧
      ∀ v ∈ (after.map entry).getLast?, v.Open := by
  have hlinked := hT.linked f.factKey entityId
  rcases T.inserted_cases entityId recordedAt f with ⟨-, -, -, hsame⟩ | ⟨hnew, hrows⟩
  · -- The version was stored before: the chain was already split by it.
    rw [← timeline_congr hsame, hsplit, List.map_append, List.map_cons] at hlinked
    obtain ⟨hfollows, hfirst, hlast⟩ := hlinked
    obtain ⟨hbefore, hafter, -⟩ := List.isChain_append.mp hfollows
    refine ⟨hbefore, hafter.tail, fun v hv => hfirst v ?_, fun v hv => hlast v ?_⟩
    · exact List.mem_head?_append_of_mem_head? hv
    · rw [List.getLast?_append_of_ne_nil _ (List.cons_ne_nil _ _)]
      exact List.mem_getLast?_cons hv
  · -- The version is new: the chain was the two halves.
    obtain ⟨hmem, hkey⟩ := Table.find?_eq_some.mp hn
    have hlast : n = (newVersion entityId recordedAt f).withRowid T.versions.nextRowid := by
      rw [hrows] at hmem
      rcases List.mem_append.mp hmem with hmem | hmem
      · exact absurd hkey (hnew n hmem)
      · exact List.mem_singleton.mp hmem
    subst hlast
    rw [timeline_of_append hrows hsplit, List.map_append] at hlinked
    obtain ⟨hfollows, hfirst, hlast⟩ := hlinked
    obtain ⟨hbefore, hafter, -⟩ := List.isChain_append.mp hfollows
    refine ⟨hbefore, hafter, fun v hv => hfirst v ?_, fun v hv => hlast v ?_⟩
    · exact List.mem_head?_append_of_mem_head? hv
    · exact List.mem_getLast?_append_of_mem_getLast? hv

/-- An element-wise image commutes with the update of the last element. -/
theorem map_modifyLast {l : List FactVersion} {g : FactVersion → FactVersion}
    {k : Entry String ℤ → Entry String ℤ} (h : ∀ v ∈ l, (g v).entry = k v.entry) :
    (l.modifyLast g).map entry = (l.map entry).modifyLast k := by
  rcases List.eq_nil_or_concat l with rfl | ⟨init, a, rfl⟩
  · rfl
  · rw [List.concat_eq_append] at *
    simp [List.modifyLast_concat, h a]

/-- An element-wise image commutes with the update of the first element. -/
theorem map_modifyHead {l : List FactVersion} {g : FactVersion → FactVersion}
    {k : Entry String ℤ → Entry String ℤ} (h : ∀ v ∈ l, (g v).entry = k v.entry) :
    (l.modifyHead g).map entry = (l.map entry).modifyHead k := by
  cases l with
  | nil => rfl
  | cons a rest => simp [h a]

/-- The entry of a version whose place is set. -/
theorem entry_setPlace (f : FactRegistration) (predecessor successor : Option FactPosition)
    (v : FactVersion) : ((setPlace f predecessor successor).set v).entry =
      { ident := v.memoryId
        start := f.timestamp.toInt64.toInt
        stop := successor.map fun s => s.timestamp.toInt64.toInt
        previous := predecessor.map FactPosition.memoryId
        next := successor.map FactPosition.memoryId
        latest := successor.isNone } := by
  cases successor <;> simp [entry, setPlace]

/-- Placing a version that agrees with its registration keeps the chains linked. -/
theorem placeVersion_chained {T : FactTables} (hT : Chained T) {entityId : String}
    {recordedAt : UInt64} {f : FactRegistration} {n : FactVersion}
    (hn : (T.inserted entityId recordedAt f).versions.find? (f.factKey, f.memoryId) = some n)
    (hentity : n.entityId = entityId) (htime : n.timestampMs = f.timestamp.toInt64) :
    Chained (T.placeVersion entityId recordedAt f n) := by
  have hmemory : n.memoryId = f.memoryId := congrArg Prod.snd (Table.find?_eq_some.mp hn).2
  obtain ⟨before, after, hsplit, hneighbours, hplaced⟩ := placeVersion_timeline hn hentity htime
  -- A version is valid from its own time, whether it was there or is the new one.
  have hvalid : ∀ v ∈ (T.inserted entityId recordedAt f).versions.rows,
      v.validFromMs = v.timestampMs := by
    intro v hv
    rcases T.inserted_cases entityId recordedAt f with ⟨-, -, -, hsame⟩ | ⟨-, hrows⟩
    · exact hT.validFrom v (hsame ▸ hv)
    · rw [hrows] at hv
      rcases List.mem_append.mp hv with hv | hv
      · exact hT.validFrom v hv
      · rw [List.mem_singleton.mp hv]
        rfl
  refine ⟨fun factKey entity => ?_, ?_⟩
  -- The fact's own chain is linked around the version, and the others are as before.
  · by_cases hfact : factKey = f.factKey ∧ entity = entityId
    · obtain ⟨rfl, rfl⟩ := hfact
      obtain ⟨hbefore, hafter, hfirst, hlast⟩ := linked_halves hT hn hsplit
      -- The version's own entry names the rows around it.
      have hvalidAfter : ∀ w ∈ after, w.validFromMs = w.timestampMs := by
        intro w hw
        refine hvalid w (mem_timeline.mp (?_ : w ∈ timeline _ f.factKey entity)).1
        rw [hsplit]
        exact List.mem_append_right _ (List.mem_cons_of_mem _ hw)
      rw [hplaced, List.map_append, List.map_cons,
        map_modifyLast (k := fun v => v.closedBy ((setPlace f (before.getLast?.map position)
          (after.head?.map position)).set n).entry),
        map_modifyHead (k := fun v => v.after ((setPlace f (before.getLast?.map position)
          (after.head?.map position)).set n).entry)]
      -- The halves are joined at the version.
      · refine Linked.splice hbefore hafter hfirst hlast ?_ ?_ ?_ ?_
        · rw [entry_setPlace]
          simp [entry, position, Function.comp_def]
        · rw [entry_setPlace]
          simp [entry, position, Function.comp_def]
        · rw [entry_setPlace]
          cases after with
          | nil => rfl
          | cons w rest => simp [entry, position, hvalidAfter w (by simp)]
        · rw [entry_setPlace]
          cases after <;> simp
      · intro v _
        unfold Entry.after
        rw [entry_setPlace, hmemory]
        rfl
      · intro v _
        unfold Entry.closedBy
        rw [entry_setPlace, hmemory]
        rfl
    · rw [placeVersion_timeline_of_ne hn hentity hfact]
      exact hT.linked factKey entity
  · intro v hv
    unfold placeVersion at hv
    rw [linkVersion_rows] at hv
    obtain ⟨w, hw, rfl⟩ := List.mem_map.mp hv
    have hlink := linkRow_statement f ((T.inserted entityId recordedAt f).neighbours entityId f n).1
      ((T.inserted entityId recordedAt f).neighbours entityId f n).2 w
    rw [timestampMs_of_statement hlink, linkRow_validFromMs]
    split
    · -- The only row under this key and memory is the stored version.
      rename_i hself
      have hwn : w = n := by
        obtain ⟨hmem, hkey⟩ := Table.find?_eq_some.mp hn
        refine (T.inserted entityId recordedAt f).versions.keyed.eq_of_mem hw hmem ?_
        rw [hkey]
        simpa [isVersion, primaryKey] using hself
      rw [hwn, htime]
    · exact hvalid w hw

end FactTables

open FactTables FactVersion

/-- A registration keeps the chains linked if it restates its covering version or agrees with the
version stored under its key and memory. -/
theorem Chained.registeredFact {T : FactTables} (hT : Chained T) {entityId : String}
    {recordedAt : UInt64} {f : FactRegistration}
    (h : T.restates entityId f = true ∨ T.Agrees entityId f) :
    Chained (T.registeredFact entityId recordedAt f) := by
  cases hr : T.restates entityId f with
  | true =>
    have hsame := registeredFact_versions_of_restates hr recordedAt
    refine ⟨fun factKey entity => ?_, fun v hv => hT.validFrom v (hsame ▸ hv)⟩
    rw [timeline_congr hsame]
    exact hT.linked factKey entity
  | false =>
    have hagrees : T.Agrees entityId f := h.resolve_left (by simp [hr])
    obtain ⟨n, hn, htables⟩ := registeredFact_of_not_restates hr recordedAt
    rw [htables]
    exact placeVersion_chained hT hn (hagrees.stored hn).1 (hagrees.stored hn).2

end Tellodb
