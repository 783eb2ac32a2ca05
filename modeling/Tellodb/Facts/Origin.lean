import Tellodb.Facts.Commit
import Tellodb.Facts.Delete

/-!
# Where versions and edges come from

A commit writes versions of the facts it registers only, and an edge of a fact under the memory that
states it or under one whose version it replaced, which is a memory of the same entity
(`registerFactsTx_origin`). A deletion writes the edges of versions again (`mem_edges_deleteFacts`).
So what holds of all memories that state facts of an entity holds of the edges. Nothing is asked of
the facts or of the chains. -/

namespace Tellodb

open Relational FactTables

/-- The memory whose version a fact superseded. -/
def FactVersionStatus.superseded : FactVersionStatus → Option String
  | .current superseded => superseded.map Prod.snd
  | _ => none

/-- A version states a fact under an entity. -/
structure FactVersion.StatedBy (v : FactVersion) (entityId : String) (f : FactRegistration) :
    Prop where
  entityId : v.entityId = entityId
  memoryId : v.memoryId = f.memoryId
  subject : v.subject = f.subject
  object : v.object = f.object

section Batch

variable {entityId : String} {recordedAt : UInt64} {P : String → Prop}

/-- What a registration adds to the statements states its fact. -/
theorem mem_statements_registeredFact {T : FactTables} {f : FactRegistration} {v : FactVersion}
    (h : v ∈ (T.registeredFact entityId recordedAt f).statements) :
    v ∈ T.statements ∨ v.StatedBy entityId f := by
  rcases T.statements_registeredFact entityId recordedAt f with hsame | hnew
  · exact .inl (hsame ▸ h)
  · rw [hnew, List.mem_append, List.mem_singleton] at h
    rcases h with h | rfl
    · exact .inl h
    · exact .inr ⟨rfl, rfl, rfl, rfl⟩

/-- A round of the loop names a memory of the entity, if any, as superseded. -/
theorem registerFact_superseded (entityId : String) (recordedAt : UInt64) (s : Progress)
    (f : FactRegistration) :
    ∃ s', registerFact entityId recordedAt s f = .ok s' ∧
      s'.tables = s.tables.registeredFact entityId recordedAt f ∧
      ∃ status, s'.statuses = s.statuses ++ [status] ∧ ∀ x ∈ status.superseded,
        ∃ v ∈ s.tables.statements, v.entityId = entityId ∧ v.memoryId = x := by
  -- Only a fact that is placed supersedes anything.
  cases h : s.tables.restates entityId f with
  | true =>
    obtain ⟨version, hcovering, hstep⟩ := registerFact_restates h recordedAt
    refine ⟨_, hstep, ?_, _, rfl, fun x hx => absurd hx (Option.not_mem_none x)⟩
    unfold registeredFact
    simp only [h, if_true, hcovering]
  | false =>
    obtain ⟨n, hn, hstep⟩ := registerFact_places h recordedAt
    obtain ⟨n', hn', htables⟩ := registeredFact_of_not_restates h recordedAt
    obtain rfl : n = n' := Option.some.inj (hn.symm.trans hn')
    refine ⟨_, hstep, htables.symm, _, rfl, fun x hx => ?_⟩
    unfold placedStatus at hx
    split at hx
    · -- The superseded version was the current one of the chain.
      obtain ⟨place, hplace, rfl⟩ := Option.map_eq_some_iff.mp hx
      obtain ⟨current, hcurrent, rfl⟩ := Option.map_eq_some_iff.mp hplace
      obtain ⟨hcurrent, -⟩ := Option.filter_eq_some_iff.mp hcurrent
      obtain ⟨v, hv, rfl⟩ := Option.map_eq_some_iff.mp hcurrent
      have hmem := (mem_orderBy _ _ _).mp (List.mem_of_getLast? hv)
      have hchain := List.mem_filter.mp (List.mem_filter.mp hmem).1
      exact ⟨v.statement, List.mem_map_of_mem hchain.1, (of_decide_eq_true hchain.2).2, rfl⟩
    · exact absurd hx (Option.not_mem_none x)

/-- The loop of a batch adds statements of its facts, and names memories of the entity. -/
theorem registerLoop_superseded {fs : List FactRegistration} {s s' : Progress}
    (hT : ∀ v ∈ s.tables.statements, v.entityId = entityId → P v.memoryId)
    (hfs : ∀ f ∈ fs, P f.memoryId) (hs : ∀ status ∈ s.statuses, ∀ x ∈ status.superseded, P x)
    (h : fs.foldlM (registerFact entityId recordedAt) s = .ok s') :
    (∀ v ∈ s'.tables.statements, v ∈ s.tables.statements ∨ ∃ f ∈ fs, v.StatedBy entityId f) ∧
      ∀ status ∈ s'.statuses, ∀ x ∈ status.superseded, P x := by
  induction fs generalizing s with
  | nil =>
    obtain rfl := Except.ok.inj h
    exact ⟨fun v hv => .inl hv, hs⟩
  | cons f fs ih =>
    obtain ⟨next, hstep, htables, status, hstatuses, hsuperseded⟩ :=
      registerFact_superseded entityId recordedAt s f
    rw [List.foldlM_cons, hstep] at h
    -- The next tables hold the old statements and the fact's.
    have hnext : ∀ v ∈ next.tables.statements, v ∈ s.tables.statements ∨ v.StatedBy entityId f := by
      intro v hv
      rw [htables] at hv
      exact mem_statements_registeredFact hv
    have hrest := ih (s := next) (fun v hv hentity => ?_)
      (fun g hg => hfs g (List.mem_cons_of_mem _ hg)) (fun status' hstatus' x hx => ?_) h
    · refine ⟨fun v hv => ?_, hrest.2⟩
      rcases hrest.1 v hv with hold | ⟨g, hg, hstated⟩
      · exact (hnext v hold).imp_right fun hstated => ⟨f, List.mem_cons_self, hstated⟩
      · exact .inr ⟨g, List.mem_cons_of_mem _ hg, hstated⟩
    · rcases hnext v hv with hold | hstated
      · exact hT v hold hentity
      · rw [hstated.memoryId]
        exact hfs f List.mem_cons_self
    · rw [hstatuses, List.mem_append, List.mem_singleton] at hstatus'
      rcases hstatus' with hold | rfl
      · exact hs status' hold x hx
      · obtain ⟨v, hv, hentity, rfl⟩ := hsuperseded x hx
        exact hT v hv hentity

/-- The repair loop keeps the statements, and changes statuses to stale ones only. -/
theorem resolveDeferred_superseded {deferred : List (ℕ × String × String)} {T T' : FactTables}
    {statuses statuses' : List FactVersionStatus}
    (h : T.resolveDeferred statuses deferred = .ok (T', statuses')) :
    T'.statements = T.statements ∧
      ∀ status ∈ statuses', status ∈ statuses ∨ status.superseded = none := by
  induction deferred generalizing T statuses with
  | nil =>
    obtain ⟨rfl, rfl⟩ := Prod.mk.inj (Except.ok.inj h)
    exact ⟨rfl, fun _ hstatus => .inl hstatus⟩
  | cons d rest ih =>
    obtain ⟨settled, hsettled, hrest⟩ := exists_of_bind h
    -- Settling changes the status and not the statements.
    have hstatements : settled.1.statements = T.statements := by
      have hcases : settled.1 = T.settled d.2.1 d.2.2 := by
        unfold settleCurrent at hsettled
        unfold FactTables.settled
        cases hcurrent : T.currentFactVersion d.2.1 d.2.2 with
        | some found =>
          simp only [hcurrent] at hsettled ⊢
          exact congrArg Prod.fst (Except.ok.inj hsettled).symm
        | none =>
          simp only [hcurrent] at hsettled ⊢
          split at hsettled
          · exact congrArg Prod.fst (Except.ok.inj hsettled).symm
          · exact absurd hsettled (by simp)
      rw [hcases, statements_settled]
    obtain ⟨hT', hstatuses⟩ := ih hrest
    refine ⟨hT'.trans hstatements, fun status hstatus => ?_⟩
    rcases hstatuses status hstatus with hmem | hnone
    · rcases List.mem_or_eq_of_mem_set hmem with hold | rfl
      · exact .inl hold
      · exact .inr rfl
    · exact .inr hnone

/-- A batch about an entity. -/
theorem registerFactVersionsTx_superseded {T T' : FactTables} {fs : List FactRegistration}
    {statuses : List FactVersionStatus}
    (hT : ∀ v ∈ T.statements, v.entityId = entityId → P v.memoryId)
    (hfs : ∀ f ∈ fs, P f.memoryId)
    (h : T.registerFactVersionsTx entityId fs recordedAt = .ok (T', statuses)) :
    (∀ v ∈ T'.statements, v ∈ T.statements ∨ ∃ f ∈ fs, v.StatedBy entityId f) ∧
      ∀ status ∈ statuses, ∀ x ∈ status.superseded, P x := by
  obtain ⟨s, hloop, hresolve⟩ := exists_of_bind h
  obtain ⟨hstatements, hsuperseded⟩ := registerLoop_superseded hT hfs
    (fun _ hstatus => absurd hstatus List.not_mem_nil) hloop
  obtain ⟨hT', hstatuses⟩ := resolveDeferred_superseded hresolve
  refine ⟨fun v hv => hstatements v (hT' ▸ hv), fun status hstatus x hx => ?_⟩
  rcases hstatuses status hstatus with hold | hnone
  · exact hsuperseded status hold x hx
  · rw [hnone] at hx
    exact absurd hx (Option.not_mem_none x)

end Batch

section Facts

variable {P : String → String → Prop} {recordedAt : UInt64}

/-- The facts of some entities, one entity after the other. -/
theorem registerGroups_superseded {groups : List (String × List IngestFactRegistration)}
    {s s' : FactTables × List (FactVersionStatus × IngestFactRegistration)}
    (hentity : ∀ group ∈ groups, ∀ fact ∈ group.2, fact.entityId = group.1)
    (hfacts : ∀ group ∈ groups, ∀ fact ∈ group.2, P fact.entityId fact.memoryId)
    (hT : ∀ v ∈ s.1.statements, P v.entityId v.memoryId)
    (h : groups.foldlM (registerGroup recordedAt) s = .ok s') :
    (∀ v ∈ s'.1.statements, v ∈ s.1.statements ∨ ∃ group ∈ groups, ∃ fact ∈ group.2,
      v.StatedBy fact.entityId fact.registration) ∧
    ∀ outcome ∈ s'.2, outcome ∈ s.2 ∨ (∃ group ∈ groups, outcome.2 ∈ group.2) ∧
      ∀ x ∈ outcome.1.superseded, P outcome.2.entityId x := by
  induction groups generalizing s with
  | nil =>
    obtain rfl := Except.ok.inj h
    exact ⟨fun v hv => .inl hv, fun outcome houtcome => .inl houtcome⟩
  | cons group groups ih =>
    rw [List.foldlM_cons] at h
    obtain ⟨next, hgroup, hrest⟩ := exists_of_bind h
    obtain ⟨⟨T, statuses⟩, hbatch, hnext⟩ := exists_of_bind hgroup
    obtain rfl := Except.ok.inj hnext
    have hown := hentity group List.mem_cons_self
    -- The facts of the group are all of its entity.
    obtain ⟨hstatements, hstatuses⟩ := registerFactVersionsTx_superseded (P := P group.1)
      (fun v hv (hv' : v.entityId = group.1) => hv' ▸ hT v hv) (fun f hf => by
        obtain ⟨fact, hfact, rfl⟩ := List.mem_map.mp hf
        exact hown fact hfact ▸ hfacts group List.mem_cons_self fact hfact) hbatch
    -- What the group adds is stated by its facts.
    have hadded : ∀ v ∈ T.statements, v ∈ s.1.statements ∨ ∃ fact ∈ group.2,
        v.StatedBy fact.entityId fact.registration := by
      intro v hv
      refine (hstatements v hv).imp_right fun ⟨f, hf, hstated⟩ => ?_
      obtain ⟨fact, hfact, rfl⟩ := List.mem_map.mp hf
      exact ⟨fact, hfact, (hown fact hfact).symm ▸ hstated⟩
    have hkept := ih (s := (T, s.2 ++ statuses.zip group.2))
      (fun g hg => hentity g (List.mem_cons_of_mem _ hg))
      (fun g hg => hfacts g (List.mem_cons_of_mem _ hg)) (fun v hv => ?_) hrest
    · refine ⟨fun v hv => ?_, fun outcome houtcome => ?_⟩
      · rcases hkept.1 v hv with hold | ⟨g, hg, hstated⟩
        · exact (hadded v hold).imp_right fun hstated => ⟨group, List.mem_cons_self, hstated⟩
        · exact .inr ⟨g, List.mem_cons_of_mem _ hg, hstated⟩
      -- An outcome is of an earlier group, of this one or of a later one.
      · rcases hkept.2 outcome houtcome with hold | ⟨⟨g, hg, hmem⟩, hsuperseded⟩
        · rcases List.mem_append.mp hold with hold | hzip
          · exact .inl hold
          · obtain ⟨hstatus, hfact⟩ := List.of_mem_zip hzip
            refine .inr ⟨⟨group, List.mem_cons_self, hfact⟩, fun x hx => ?_⟩
            rw [hown outcome.2 hfact]
            exact hstatuses outcome.1 hstatus x hx
        · exact .inr ⟨⟨g, List.mem_cons_of_mem _ hg, hmem⟩, hsuperseded⟩
    · rcases hadded v hv with hold | ⟨fact, hfact, hstated⟩
      · exact hT v hold
      · rw [hstated.entityId, hstated.memoryId]
        exact hfacts group List.mem_cons_self fact hfact

/-- The edges of a fact are under its memory or under one that it superseded. -/
theorem mem_graphEntries {status : FactVersionStatus} {fact : IngestFactRegistration}
    {entry : IngestGraphEdge} (h : entry ∈ graphEntries status fact) :
    entry.subject = fact.subject ∧ entry.object = fact.object ∧
      (entry.memoryId = fact.memoryId ∨ status.superseded = some entry.memoryId) := by
  unfold graphEntries at h
  split at h
  · rcases List.mem_cons.mp h with rfl | h
    · exact ⟨rfl, rfl, .inl rfl⟩
    · obtain rfl := List.mem_singleton.mp h
      exact ⟨rfl, rfl, .inr rfl⟩
  · obtain rfl := List.mem_singleton.mp h
    exact ⟨rfl, rfl, .inl rfl⟩
  · obtain rfl := List.mem_singleton.mp h
    exact ⟨rfl, rfl, .inl rfl⟩
  · exact absurd h List.not_mem_nil

/-- The registration of facts adds versions that state them, and edges of them under memories of
their entities, if that is what the versions and the facts are under. -/
theorem registerFactsTx_origin {order : HashOrder} {S R : TenantStore}
    {facts : List IngestFactRegistration} {updates : List (String × Bool × UInt64)}
    (hT : ∀ v ∈ S.facts.statements, P v.entityId v.memoryId)
    (hfacts : ∀ fact ∈ facts, P fact.entityId fact.memoryId)
    (h : registerFactsTx order recordedAt S facts = .ok (R, updates)) :
    (∀ v ∈ R.facts.statements, v ∈ S.facts.statements ∨ ∃ fact ∈ facts,
      v.StatedBy fact.entityId fact.registration) ∧
    ∀ e ∈ R.edges.rows, e ∈ S.edges.rows ∨ ∃ fact ∈ facts,
      e.source = fact.subject ∧ e.target = fact.object ∧ P fact.entityId e.memoryId := by
  obtain ⟨⟨T, outcomes⟩, hgroups, hR⟩ := exists_of_bind h
  obtain ⟨rfl, -⟩ := Prod.mk.inj (Except.ok.inj hR)
  -- A group holds the facts of one entity.
  have hgroup : ∀ group ∈ groupFacts order facts, ∀ fact ∈ group.2,
      fact ∈ facts ∧ fact.entityId = group.1 := by
    intro group hgroup fact hfact
    obtain ⟨entityId, -, rfl⟩ := List.mem_map.mp hgroup
    obtain ⟨hmem, hentity⟩ := List.mem_filter.mp hfact
    exact ⟨hmem, of_decide_eq_true hentity⟩
  obtain ⟨hstatements, houtcomes⟩ := registerGroups_superseded
    (fun group hg fact hfact => (hgroup group hg fact hfact).2)
    (fun group hg fact hfact => hfacts fact (hgroup group hg fact hfact).1) hT hgroups
  constructor
  · intro v hv
    refine (hstatements v hv).imp_right fun ⟨group, hg, fact, hfact, hstated⟩ => ?_
    exact ⟨fact, (hgroup group hg fact hfact).1, hstated⟩
  · intro e he
    refine (Table.mem_of_mem_foldl_insertOrReplace he).imp_right fun ⟨entry, hentry, hrow⟩ => ?_
    obtain ⟨outcome, houtcome, hentry⟩ := List.mem_flatMap.mp (List.mem_filter.mp hentry).1
    obtain ⟨hsubject, hobject, hmemory⟩ := mem_graphEntries hentry
    -- The edge is written for an outcome, from its own memory or the superseded one.
    rcases houtcomes outcome houtcome with hnone | ⟨⟨group, hg, hfact⟩, hsuperseded⟩
    · exact absurd hnone List.not_mem_nil
    · have hmem := (hgroup group hg outcome.2 hfact).1
      refine ⟨outcome.2, hmem, ?_, ?_, ?_⟩
      · rw [← hrow]
        exact hsubject
      · rw [← hrow]
        exact hobject
      · rw [← hrow]
        change P outcome.2.entityId entry.memoryId
        rcases hmemory with hsame | hold
        · rw [hsame]
          exact hfacts outcome.2 hmem
        · exact hsuperseded entry.memoryId hold

/-- The plain edges of a commit are those of its cards and of its facts. -/
theorem mem_insertCardEdgesTx {S : TenantStore} {cards : List MemoryCard}
    {facts : List IngestFactRegistration} {e : EdgeRow}
    (h : e ∈ (insertCardEdgesTx S cards facts).edges.rows) :
    e ∈ S.edges.rows ∨
      (∃ card ∈ cards, e.source = card.subject ∧ e.target = card.object ∧
        e.memoryId = card.sourceMemoryId) ∨
      ∃ fact ∈ facts, e.source = fact.subject ∧ e.target = fact.object ∧
        e.memoryId = fact.memoryId := by
  refine (Table.mem_of_mem_foldl_insertOrIgnore h).imp_right fun hrow => ?_
  rcases List.mem_append.mp (List.mem_filter.mp hrow).1 with hrow | hrow
  · obtain ⟨card, hcard, rfl⟩ := List.mem_map.mp hrow
    exact .inl ⟨card, hcard, rfl, rfl, rfl⟩
  · obtain ⟨fact, hfact, rfl⟩ := List.mem_map.mp hrow
    exact .inr ⟨fact, hfact, rfl, rfl, rfl⟩

end Facts

section Delete

/-- The edges after the rebuild of chains are those before and those of versions. -/
theorem mem_edges_rebuildAll {facts : List (String × String)}
    {s : FactTables × Table EdgeRow.edgeId} {e : EdgeRow}
    (h : e ∈ (facts.foldl rebuildFactChainAfterDelete s).2.rows) :
    e ∈ s.2.rows ∨ ∃ v ∈ s.1.statements,
      e.source = v.subject ∧ e.target = v.object ∧ e.memoryId = v.memoryId := by
  induction facts generalizing s with
  | nil => exact .inl h
  | cons fact facts ih =>
    rcases ih h with hedge | ⟨v, hv, hedge⟩
    · refine (Table.mem_of_mem_foldl_insertOrReplace hedge).imp_right fun ⟨v, hv, hrow⟩ => ?_
      have hmem : v ∈ (rebuildFactChainAfterDelete s fact).1.versions.rows :=
        (List.mem_filter.mp (List.mem_filter.mp hv).1).1
      have hstatement : v.statement ∈ s.1.statements := by
        rw [← statements_rebuild s fact]
        exact List.mem_map_of_mem hmem
      rw [← hrow]
      exact ⟨v.statement, hstatement, rfl, rfl, rfl⟩
    · rw [statements_rebuild] at hv
      exact .inr ⟨v, hv, hedge⟩

/-- The edges after a deletion are some of those before and those of versions that are left. -/
theorem mem_edges_deleteFacts {T : FactTables} {edges : Table EdgeRow.edgeId} {memoryId : String}
    {e : EdgeRow} (h : e ∈ (deleteFacts memoryId T edges).2.rows) :
    e ∈ edges.rows ∨ ∃ v ∈ T.statements,
      e.source = v.subject ∧ e.target = v.object ∧ e.memoryId = v.memoryId := by
  rcases mem_edges_rebuildAll h with hedge | ⟨v, hv, hedge⟩
  · exact .inl (Table.mem_deleteWhere.mp hedge).1
  · obtain ⟨w, hw, rfl⟩ := List.mem_map.mp hv
    refine .inr ⟨w.statement, List.mem_map_of_mem ?_, hedge⟩
    have hrows : w ∈ (T.versions.deleteWhere fun v => isOf memoryId v.memoryId).rows := hw
    rw [RowTable.deleteWhere_rows] at hrows
    exact (List.mem_filter.mp hrows).1

end Delete

end Tellodb
