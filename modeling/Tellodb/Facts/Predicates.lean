import Tellodb.Storage.Ingest
import Tellodb.Relational.Run

/-!
# Predicates and their groups

`canonicalize_predicates_tx` assigns to each predicate of an entity the most similar group that is
stored, or makes it a group of its own. `canonicalizePredicate_spec` says what one predicate does to
the table: nothing if it is known, else one row at the end, whose canonical form is a group of the
same entity. From this follow all the laws of runs of calls (`predicates_run`): assignments stay,
canonical forms are their own, entities are apart, and a call does what its elements do one at a
time. -/

namespace Tellodb

open Relational

/-- The canonical form that is stored for a predicate of an entity. -/
def canonicalOf (t : Table PredicateCanonRow.primaryKey) (entityId predicate : String) :
    Option String :=
  (t.find? (entityId, predicate)).map PredicateCanonRow.canonical

/-- A call of `canonicalize_predicates_tx`. -/
structure CanonCall where
  entityId : String
  /-- The predicates with their embeddings. -/
  predicates : List (String × List ℚ)
  tau : ℚ

/-- What a call or several calls assign. -/
abbrev Assigned := List ((String × String) × String)

/-- `canonicalize_predicates_tx`: the table and what is assigned. -/
def CanonCall.run (cosineSimilarity : List ℚ → List ℚ → ℚ)
    (t : Table PredicateCanonRow.primaryKey) (call : CanonCall) :
    Table PredicateCanonRow.primaryKey × Assigned :=
  call.predicates.foldl (canonicalizePredicate cosineSimilarity call.tau call.entityId) (t, [])

/-- One call after another. -/
def runCalls (cosineSimilarity : List ℚ → List ℚ → ℚ) (t : Table PredicateCanonRow.primaryKey)
    (calls : List CanonCall) : Table PredicateCanonRow.primaryKey × Assigned :=
  calls.foldl (fun s call =>
    ((call.run cosineSimilarity s.1).1, s.2 ++ (call.run cosineSimilarity s.1).2)) (t, [])

/-- The calls that resolve the elements of a call one at a time. -/
def CanonCall.single (call : CanonCall) : List CanonCall :=
  call.predicates.map fun item => { call with predicates := [item] }

/-- A row is the group of a canonical form. -/
structure PredicateCanonRow.IsGroup (r : PredicateCanonRow) (entityId canonical : String) :
    Prop where
  entityId : r.entityId = entityId
  predicate : r.predicate = canonical
  canonical : r.canonical = canonical

/-- Every canonical form is its own. -/
def CanonClosed (t : Table PredicateCanonRow.primaryKey) : Prop :=
  ∀ r ∈ t.rows, ∃ g ∈ t.rows, g.IsGroup r.entityId r.canonical

/-! ## One predicate -/

section

variable {cosineSimilarity : List ℚ → List ℚ → ℚ} {tau : ℚ} {entityId : String}
  {t : Table PredicateCanonRow.primaryKey}

/-- A group that a predicate joins is stored. -/
theorem bestGroup_isGroup {embedding : List ℚ} {best : String × ℚ}
    (h : bestGroup cosineSimilarity tau t entityId embedding = some best) :
    ∃ g ∈ t.rows, g.IsGroup entityId best.1 := by
  unfold bestGroup at h
  have hinv : ∀ b ∈ some best, ∃ g ∈ t.rows, g.IsGroup entityId b.1 := by
    rw [← h]
    refine List.foldlRecOn (motive := fun found : Option (String × ℚ) =>
      ∀ b ∈ found, ∃ g ∈ t.rows, g.IsGroup entityId b.1) _ _
      (fun b hb => absurd hb (Option.not_mem_none b)) fun found hfound r hr b hb => ?_
    obtain ⟨hr, hgroup⟩ := List.mem_filter.mp hr
    obtain ⟨hentity, hown⟩ := of_decide_eq_true hgroup
    dsimp only at hb
    split at hb
    · split at hb
      · rw [← Option.some.inj hb]
        exact ⟨r, hr, hentity, hown, rfl⟩
      · exact hfound b hb
    · exact hfound b hb
  exact hinv best rfl

/-- The group that a predicate joins depends on the rows of its entity only. -/
theorem bestGroup_congr {t' : Table PredicateCanonRow.primaryKey}
    (h : t'.rows.filter (fun r => r.entityId = entityId) =
      t.rows.filter fun r => r.entityId = entityId) (embedding : List ℚ) :
    bestGroup cosineSimilarity tau t' entityId embedding =
      bestGroup cosineSimilarity tau t entityId embedding := by
  have hsplit : ∀ u : Table PredicateCanonRow.primaryKey,
      u.rows.filter (fun r => r.entityId = entityId ∧ r.predicate = r.canonical) =
        (u.rows.filter fun r => r.entityId = entityId).filter fun r =>
          r.predicate = r.canonical := by
    intro u
    rw [List.filter_filter]
    exact List.filter_congr fun r _ => by simp [Bool.and_comm]
  unfold bestGroup
  rw [hsplit t', hsplit t, h]

/-- What is stored for a predicate depends on the rows of its entity only. -/
theorem find?_congr_entity {t' : Table PredicateCanonRow.primaryKey}
    (h : t'.rows.filter (fun r => r.entityId = entityId) =
      t.rows.filter fun r => r.entityId = entityId) (predicate : String) :
    t'.find? (entityId, predicate) = t.find? (entityId, predicate) := by
  have hmem : ∀ r : PredicateCanonRow, r.entityId = entityId → (r ∈ t'.rows ↔ r ∈ t.rows) := by
    intro r hr
    have hiff : r ∈ t'.rows.filter (fun r => r.entityId = entityId) ↔
        r ∈ t.rows.filter fun r => r.entityId = entityId := by rw [h]
    simpa [List.mem_filter, hr] using hiff
  refine Option.ext fun r => ?_
  rw [Table.find?_eq_some, Table.find?_eq_some]
  constructor
  · rintro ⟨hr, hkey⟩
    exact ⟨(hmem r (congrArg Prod.fst hkey)).mp hr, hkey⟩
  · rintro ⟨hr, hkey⟩
    exact ⟨(hmem r (congrArg Prod.fst hkey)).mpr hr, hkey⟩

/-- The row of a predicate that is not known. -/
def newPredicate (cosineSimilarity : List ℚ → List ℚ → ℚ) (tau : ℚ)
    (t : Table PredicateCanonRow.primaryKey) (entityId : String) (item : String × List ℚ) :
    PredicateCanonRow :=
  let canonical := ((bestGroup cosineSimilarity tau t entityId item.2).map Prod.fst).getD item.1
  ⟨entityId, item.1, canonical, if canonical = item.1 then some item.2 else none⟩

/-- What one predicate does to the table, and the canonical form that it is assigned. -/
def resolvePredicate (cosineSimilarity : List ℚ → List ℚ → ℚ) (tau : ℚ) (entityId : String)
    (t : Table PredicateCanonRow.primaryKey) (item : String × List ℚ) :
    Table PredicateCanonRow.primaryKey × String :=
  match t.find? (entityId, item.1) with
  | some row => (t, row.canonical)
  | none => (t.insertOrReplace (newPredicate cosineSimilarity tau t entityId item),
    (newPredicate cosineSimilarity tau t entityId item).canonical)

/-- A round of the loop resolves one predicate. -/
theorem canonicalizePredicate_eq (s : Table PredicateCanonRow.primaryKey × Assigned)
    (item : String × List ℚ) : canonicalizePredicate cosineSimilarity tau entityId s item =
      ((resolvePredicate cosineSimilarity tau entityId s.1 item).1, s.2 ++
        [((entityId, item.1), (resolvePredicate cosineSimilarity tau entityId s.1 item).2)]) := by
  obtain ⟨predicate, embedding⟩ := item
  unfold canonicalizePredicate resolvePredicate newPredicate
  dsimp only
  cases s.1.find? (entityId, predicate) <;> rfl

/-- A row with a new key comes last. -/
theorem rows_insertOrReplace_of_new {r : PredicateCanonRow} (h : t.find? r.primaryKey = none) :
    (t.insertOrReplace r).rows = t.rows ++ [r] := by
  have hrows : (t.insertOrReplace r).rows =
      (t.rows.filter fun b => b.primaryKey ≠ r.primaryKey) ++ [r] := rfl
  rw [hrows, List.filter_eq_self.mpr fun b hb => decide_eq_true (Table.find?_eq_none.mp h b hb)]

/-- The new row of a predicate finds its group, and is it if it joins none. -/
theorem newPredicate_isGroup (item : String × List ℚ) :
    ∃ g ∈ t.rows ++ [newPredicate cosineSimilarity tau t entityId item],
      g.IsGroup entityId (newPredicate cosineSimilarity tau t entityId item).canonical := by
  cases hbest : bestGroup cosineSimilarity tau t entityId item.2 with
  | some best =>
    obtain ⟨g, hg, hgroup⟩ := bestGroup_isGroup hbest
    refine ⟨g, List.mem_append_left _ hg, ?_⟩
    unfold newPredicate
    rw [hbest]
    exact hgroup
  | none =>
    refine ⟨_, List.mem_append_right _ (List.mem_singleton_self _), rfl, ?_, rfl⟩
    unfold newPredicate
    rw [hbest]
    rfl

/-- What one predicate does: its canonical form is assigned and stored, and the table gets no other
row than that. -/
structure Canonicalized (t t' : Table PredicateCanonRow.primaryKey)
    (entityId predicate canonical : String) : Prop where
  stored : canonicalOf t' entityId predicate = some canonical
  rows : t'.rows = t.rows ∨ (t.find? (entityId, predicate) = none ∧
    ∃ r : PredicateCanonRow, t'.rows = t.rows ++ [r] ∧ r.entityId = entityId ∧
      r.predicate = predicate ∧ ∃ g ∈ t'.rows, g.IsGroup entityId r.canonical)

/-- One predicate of a call. -/
theorem canonicalized_resolvePredicate (cosineSimilarity : List ℚ → List ℚ → ℚ) (tau : ℚ)
    (entityId : String) (t : Table PredicateCanonRow.primaryKey) (item : String × List ℚ) :
    Canonicalized t (resolvePredicate cosineSimilarity tau entityId t item).1 entityId item.1
      (resolvePredicate cosineSimilarity tau entityId t item).2 := by
  unfold resolvePredicate
  cases hknown : t.find? (entityId, item.1) with
  | some r =>
    refine ⟨?_, .inl rfl⟩
    unfold canonicalOf
    rw [hknown]
    rfl
  | none =>
    have hrows := rows_insertOrReplace_of_new
      (r := newPredicate cosineSimilarity tau t entityId item) hknown
    refine ⟨?_, .inr ⟨hknown, _, hrows, rfl, rfl, ?_⟩⟩
    · have hkey : (newPredicate cosineSimilarity tau t entityId item).primaryKey =
          (entityId, item.1) := rfl
      unfold canonicalOf
      rw [Table.find?_insertOrReplace, if_pos hkey]
      rfl
    · dsimp only
      rw [hrows]
      exact newPredicate_isGroup item

/-- Rows that stay keep what is stored for a predicate. -/
theorem canonicalOf_of_subset {t' : Table PredicateCanonRow.primaryKey} (h : t.rows ⊆ t'.rows)
    {predicate canonical : String} (hc : canonicalOf t entityId predicate = some canonical) :
    canonicalOf t' entityId predicate = some canonical := by
  obtain ⟨r, hr, rfl⟩ := Option.map_eq_some_iff.mp hc
  obtain ⟨hmem, hkey⟩ := Table.find?_eq_some.mp hr
  exact Option.map_eq_some_iff.mpr ⟨r, Table.find?_eq_some.mpr ⟨h hmem, hkey⟩, rfl⟩

/-- One predicate removes no row. -/
theorem Canonicalized.subset {t' : Table PredicateCanonRow.primaryKey}
    {predicate canonical : String} (h : Canonicalized t t' entityId predicate canonical) :
    t.rows ⊆ t'.rows := by
  rcases h.rows with hrows | ⟨-, r, hrows, -⟩
  · rw [hrows]
    exact List.Subset.refl _
  · rw [hrows]
    exact List.subset_append_left _ _

/-- One predicate keeps canonical forms their own. -/
theorem Canonicalized.closed {t' : Table PredicateCanonRow.primaryKey}
    {predicate canonical : String} (h : Canonicalized t t' entityId predicate canonical)
    (ht : CanonClosed t) : CanonClosed t' := by
  intro r hr
  rcases h.rows with hrows | ⟨-, new, hrows, hentity, -, hgroup⟩
  · rw [hrows] at hr ⊢
    exact ht r hr
  · rw [hrows, List.mem_append, List.mem_singleton] at hr
    rcases hr with hold | rfl
    · obtain ⟨g, hg, hown⟩ := ht r hold
      exact ⟨g, h.subset hg, hown⟩
    · rw [hentity]
      exact hgroup

/-- Tables with the same rows of an entity do the same for one of its predicates. -/
theorem resolvePredicate_congr (cosineSimilarity : List ℚ → List ℚ → ℚ) (tau : ℚ)
    {t' : Table PredicateCanonRow.primaryKey}
    (h : t'.rows.filter (fun r => r.entityId = entityId) =
      t.rows.filter fun r => r.entityId = entityId) (item : String × List ℚ) :
    (resolvePredicate cosineSimilarity tau entityId t' item).1.rows.filter
        (fun r => r.entityId = entityId) =
      (resolvePredicate cosineSimilarity tau entityId t item).1.rows.filter
        (fun r => r.entityId = entityId) ∧
      (resolvePredicate cosineSimilarity tau entityId t' item).2 =
        (resolvePredicate cosineSimilarity tau entityId t item).2 := by
  have hfind := find?_congr_entity h item.1
  unfold resolvePredicate
  rw [hfind]
  cases hknown : t.find? (entityId, item.1) with
  | some r => exact ⟨h, rfl⟩
  | none =>
    have hsame : newPredicate cosineSimilarity tau t' entityId item =
        newPredicate cosineSimilarity tau t entityId item := by
      unfold newPredicate
      rw [bestGroup_congr h]
    dsimp only
    rw [hsame, rows_insertOrReplace_of_new (hfind.trans hknown),
      rows_insertOrReplace_of_new hknown, List.filter_append, List.filter_append, h]
    exact ⟨rfl, rfl⟩

/-- One predicate leaves the rows of other entities alone. -/
theorem Canonicalized.filter_of_ne {t' : Table PredicateCanonRow.primaryKey}
    {predicate canonical other : String} (h : Canonicalized t t' entityId predicate canonical)
    (hne : entityId ≠ other) : t'.rows.filter (fun r => r.entityId = other) =
      t.rows.filter fun r => r.entityId = other := by
  rcases h.rows with hrows | ⟨-, r, hrows, hentity, -⟩
  · rw [hrows]
  · rw [hrows, List.filter_append, List.filter_cons_of_neg (by simpa [hentity] using hne),
      List.filter_nil, List.append_nil]

end

/-! ## Runs of calls -/

section

variable {cosineSimilarity : List ℚ → List ℚ → ℚ} {t : Table PredicateCanonRow.primaryKey}

/-- A call after some assignments. -/
theorem foldl_canonicalizePredicate (tau : ℚ) (entityId : String) (items : List (String × List ℚ))
    (t : Table PredicateCanonRow.primaryKey) (assigned : Assigned) :
    items.foldl (canonicalizePredicate cosineSimilarity tau entityId) (t, assigned) =
      ((items.foldl (canonicalizePredicate cosineSimilarity tau entityId) (t, [])).1, assigned ++
        (items.foldl (canonicalizePredicate cosineSimilarity tau entityId) (t, [])).2) :=
  foldl_emit (fun t assigned item => by
    rw [canonicalizePredicate_eq, canonicalizePredicate_eq]
    rfl) items t assigned

/-- The first call of a run, and the run after it. -/
theorem runCalls_cons (call : CanonCall) (calls : List CanonCall) :
    runCalls cosineSimilarity t (call :: calls) =
      ((runCalls cosineSimilarity (call.run cosineSimilarity t).1 calls).1,
        (call.run cosineSimilarity t).2 ++
          (runCalls cosineSimilarity (call.run cosineSimilarity t).1 calls).2) :=
  foldl_emit (fun _ _ _ => by simp) calls _ _

/-- A call whose predicates are resolved one after another. -/
theorem run_cons (entityId : String) (tau : ℚ) (item : String × List ℚ)
    (items : List (String × List ℚ)) :
    CanonCall.run cosineSimilarity t ⟨entityId, item :: items, tau⟩ =
      (let resolved := resolvePredicate cosineSimilarity tau entityId t item
       ((CanonCall.run cosineSimilarity resolved.1 ⟨entityId, items, tau⟩).1,
        ((entityId, item.1), resolved.2) ::
          (CanonCall.run cosineSimilarity resolved.1 ⟨entityId, items, tau⟩).2)) := by
  unfold CanonCall.run
  rw [List.foldl_cons, canonicalizePredicate_eq, foldl_canonicalizePredicate]
  rfl

/-- What a call does to the table: rows stay, canonical forms stay their own, and what is assigned
is what is stored. -/
structure Resolved (t t' : Table PredicateCanonRow.primaryKey) (assigned : Assigned) : Prop where
  subset : t.rows ⊆ t'.rows
  closed : CanonClosed t → CanonClosed t'
  stored : ∀ a ∈ assigned, canonicalOf t' a.1.1 a.1.2 = some a.2

/-- A call after another. -/
theorem Resolved.trans {t' t'' : Table PredicateCanonRow.primaryKey} {assigned more : Assigned}
    (h : Resolved t t' assigned) (h' : Resolved t' t'' more) :
    Resolved t t'' (assigned ++ more) where
  subset := List.Subset.trans h.subset h'.subset
  closed ht := h'.closed (h.closed ht)
  stored a ha := by
    rcases List.mem_append.mp ha with ha | ha
    · exact canonicalOf_of_subset h'.subset (h.stored a ha)
    · exact h'.stored a ha

/-- A call resolves its predicates. -/
theorem resolved_run (call : CanonCall) : Resolved t (call.run cosineSimilarity t).1
    (call.run cosineSimilarity t).2 := by
  obtain ⟨entityId, predicates, tau⟩ := call
  induction predicates generalizing t with
  | nil => exact ⟨List.Subset.refl _, id, fun a ha => absurd ha List.not_mem_nil⟩
  | cons item items ih =>
    have hone := canonicalized_resolvePredicate cosineSimilarity tau entityId t item
    have hfirst : Resolved t (resolvePredicate cosineSimilarity tau entityId t item).1
        [((entityId, item.1), (resolvePredicate cosineSimilarity tau entityId t item).2)] :=
      ⟨hone.subset, hone.closed, fun a ha => by
        rw [List.mem_singleton.mp ha]
        exact hone.stored⟩
    rw [run_cons]
    exact hfirst.trans ih

/-- A run of calls resolves their predicates. -/
theorem resolved_runCalls (cosineSimilarity : List ℚ → List ℚ → ℚ)
    (t : Table PredicateCanonRow.primaryKey) (calls : List CanonCall) :
    Resolved t (runCalls cosineSimilarity t calls).1 (runCalls cosineSimilarity t calls).2 := by
  induction calls generalizing t with
  | nil => exact ⟨List.Subset.refl _, id, fun a ha => absurd ha List.not_mem_nil⟩
  | cons call calls ih =>
    rw [runCalls_cons]
    exact (resolved_run call).trans (ih _)

/-- A call about an entity depends on the rows of that entity only. -/
theorem run_congr (cosineSimilarity : List ℚ → List ℚ → ℚ) (call : CanonCall)
    {t' : Table PredicateCanonRow.primaryKey}
    (h : t'.rows.filter (fun r => r.entityId = call.entityId) =
      t.rows.filter fun r => r.entityId = call.entityId) :
    (call.run cosineSimilarity t').1.rows.filter (fun r => r.entityId = call.entityId) =
        (call.run cosineSimilarity t).1.rows.filter (fun r => r.entityId = call.entityId) ∧
      (call.run cosineSimilarity t').2 = (call.run cosineSimilarity t).2 := by
  obtain ⟨entityId, predicates, tau⟩ := call
  induction predicates generalizing t t' with
  | nil => exact ⟨h, rfl⟩
  | cons item items ih =>
    obtain ⟨hrows, hcanonical⟩ := resolvePredicate_congr cosineSimilarity tau h item
    obtain ⟨hrest, hassigned⟩ := ih hrows
    rw [run_cons, run_cons]
    dsimp only
    rw [hcanonical, hassigned]
    exact ⟨hrest, rfl⟩

/-- A call about another entity leaves the rows of an entity alone. -/
theorem run_of_ne (cosineSimilarity : List ℚ → List ℚ → ℚ)
    (t : Table PredicateCanonRow.primaryKey) (call : CanonCall) {entityId : String}
    (hne : call.entityId ≠ entityId) :
    (call.run cosineSimilarity t).1.rows.filter (fun r => r.entityId = entityId) =
      t.rows.filter fun r => r.entityId = entityId := by
  obtain ⟨other, predicates, tau⟩ := call
  induction predicates generalizing t with
  | nil => rfl
  | cons item items ih =>
    have hone := (canonicalized_resolvePredicate cosineSimilarity tau other t item).filter_of_ne hne
    rw [run_cons]
    exact (ih _ hne).trans hone

/-- What a call assigns is about its entity. -/
theorem entityId_of_assigned (call : CanonCall) {a : (String × String) × String}
    (ha : a ∈ (call.run cosineSimilarity t).2) : a.1.1 = call.entityId := by
  obtain ⟨entityId, predicates, tau⟩ := call
  induction predicates generalizing t with
  | nil => exact absurd ha List.not_mem_nil
  | cons item items ih =>
    rw [run_cons] at ha
    rcases List.mem_cons.mp ha with rfl | ha
    · rfl
    · exact ih ha

/-- A run of calls does for an entity what its calls about that entity do. -/
theorem runCalls_entity (cosineSimilarity : List ℚ → List ℚ → ℚ) (entityId : String)
    (calls : List CanonCall) {t' : Table PredicateCanonRow.primaryKey}
    (h : t'.rows.filter (fun r => r.entityId = entityId) =
      t.rows.filter fun r => r.entityId = entityId) :
    let own := calls.filter fun call => call.entityId = entityId
    (runCalls cosineSimilarity t calls).1.rows.filter (fun r => r.entityId = entityId) =
        (runCalls cosineSimilarity t' own).1.rows.filter (fun r => r.entityId = entityId) ∧
      (runCalls cosineSimilarity t calls).2.filter (fun a => a.1.1 = entityId) =
        (runCalls cosineSimilarity t' own).2 := by
  induction calls generalizing t t' with
  | nil => exact ⟨h.symm, rfl⟩
  | cons call calls ih =>
    dsimp only at ih ⊢
    rw [runCalls_cons]
    -- A call of the entity does the same on both tables, and any other does nothing to its rows.
    by_cases hentity : call.entityId = entityId
    · obtain rfl := hentity
      obtain ⟨hrows, hassigned⟩ := run_congr cosineSimilarity call h
      obtain ⟨hrest, hmore⟩ := ih hrows
      rw [List.filter_cons_of_pos (by simp), runCalls_cons, List.filter_append, hmore, hassigned]
      refine ⟨hrest, congrArg (· ++ _) (List.filter_eq_self.mpr fun a ha => ?_)⟩
      exact decide_eq_true (entityId_of_assigned call ha)
    · have hrows := run_of_ne cosineSimilarity t call hentity
      obtain ⟨hrest, hmore⟩ := ih (h.trans hrows.symm)
      rw [List.filter_cons_of_neg (by simpa using hentity), List.filter_append, hmore]
      refine ⟨hrest, ?_⟩
      have hnone : (call.run cosineSimilarity t).2.filter (fun a => a.1.1 = entityId) = [] :=
        List.filter_eq_nil_iff.mpr fun a ha => by
          rw [entityId_of_assigned call ha]
          simpa using hentity
      rw [hnone, List.nil_append]

/-- The elements of a call one at a time. -/
theorem runCalls_single (call : CanonCall) :
    runCalls cosineSimilarity t call.single = call.run cosineSimilarity t := by
  obtain ⟨entityId, predicates, tau⟩ := call
  induction predicates generalizing t with
  | nil => rfl
  | cons item items ih =>
    have hsingle : CanonCall.single ⟨entityId, item :: items, tau⟩ =
        ⟨entityId, [item], tau⟩ :: CanonCall.single ⟨entityId, items, tau⟩ := rfl
    rw [hsingle, runCalls_cons, run_cons, run_cons, ih]
    rfl

/-- In every run of calls from a new table what is assigned is stored and stays, a canonical form
is its own, an entity gets what it gets from its own calls, and a call does what its elements do one
at a time. -/
theorem predicates_run (cosineSimilarity : List ℚ → List ℚ → ℚ) (calls more : List CanonCall) :
    let t := (runCalls cosineSimilarity (Table.empty _) calls).1
    let after := runCalls cosineSimilarity t more
    (∀ entityId predicate canonical, canonicalOf t entityId predicate = some canonical →
        canonicalOf after.1 entityId predicate = some canonical) ∧
      (∀ a ∈ after.2, canonicalOf after.1 a.1.1 a.1.2 = some a.2) ∧
      (∀ entityId predicate canonical, canonicalOf t entityId predicate = some canonical →
        canonicalOf t entityId canonical = some canonical) ∧
      (∀ entityId,
        let own := runCalls cosineSimilarity t (more.filter fun call => call.entityId = entityId)
        after.2.filter (fun a => a.1.1 = entityId) = own.2 ∧
          ∀ predicate, canonicalOf after.1 entityId predicate =
            canonicalOf own.1 entityId predicate) ∧
      ∀ call : CanonCall,
        runCalls cosineSimilarity t call.single = call.run cosineSimilarity t := by
  intro t after
  have hbefore := resolved_runCalls cosineSimilarity (Table.empty _) calls
  have hafter := resolved_runCalls cosineSimilarity t more
  refine ⟨fun _ _ _ h => canonicalOf_of_subset hafter.subset h, hafter.stored, ?_,
    fun entityId => ?_, fun call => runCalls_single call⟩
  · intro entityId predicate canonical h
    -- A canonical predicate is its own one, by the group that it stands for.
    have hclosed : CanonClosed t := hbefore.closed fun r hr => absurd hr List.not_mem_nil
    obtain ⟨r, hr, rfl⟩ := Option.map_eq_some_iff.mp h
    obtain ⟨hmem, hkey⟩ := Table.find?_eq_some.mp hr
    obtain ⟨g, hg, hgroup⟩ := hclosed r hmem
    have hentity : r.entityId = entityId := congrArg Prod.fst hkey
    refine Option.map_eq_some_iff.mpr ⟨g, Table.find?_eq_some.mpr ⟨hg, ?_⟩, hgroup.canonical⟩
    unfold PredicateCanonRow.primaryKey
    rw [hgroup.entityId, hgroup.predicate, hentity]
  -- The calls of another entity make no difference.
  · obtain ⟨hrows, hassigned⟩ := runCalls_entity cosineSimilarity entityId more
      (t := t) rfl
    refine ⟨hassigned, fun predicate => ?_⟩
    unfold canonicalOf
    rw [find?_congr_entity hrows]

end

end Tellodb
