import Tellodb.Storage.Ingest

/-!
# The versions reported for memories

`fact_versions_for_memories` reports one version for each memory it is asked for. It asks in chunks,
and a version that a record derived from a memory states is reported under the derived record where
that one is asked for in the same chunk, else under the memory; of the rows under one memory the
last one stays. `versionFor` is the version that the memory itself states, or inherits where it
states none. `reported_iff` says when that is the one reported. -/

namespace Tellodb

open Relational

/-- A version as `fact_versions_for_memories` reports it. -/
structure FactVersionRow where
  factKey : String
  entityId : String
  object : String
  isCurrent : Bool
  validFromMs : UInt64
  validToMs : Option UInt64
  supersededBy : Option String
  currentObject : Option String
  supersededAtMs : Option UInt64
  evidence : List String
deriving DecidableEq

/-- `ORDER BY v.valid_from_ms, v.memory_id`, equal ones in row order. -/
def FactVersion.reportKey (v : FactVersion) : ℤ ×ₗ String ×ₗ ℕ :=
  toLex (v.validFromMs.toInt, toLex (v.memoryId, v.rowid))

namespace TenantStore

/-- The rows that a chunk selects: `WHERE v.memory_id IN (..) OR m.parent_memory_id IN (..)`. -/
def askedRows (S : TenantStore) (chunk : List String) : List FactVersion :=
  orderBy FactVersion.reportKey (S.facts.versions.rows.filter fun v =>
    chunk.contains v.memoryId || (S.parentOf v.memoryId).any chunk.contains)

/-- The memory under which a row of a chunk is kept. -/
def keptUnder (S : TenantStore) (chunk : List String) (v : FactVersion) : String :=
  if chunk.contains v.memoryId then v.memoryId else (S.parentOf v.memoryId).getD v.memoryId

/-- `rows_by_memory` -/
def rowsByMemory (S : TenantStore) (memoryIds : List String) :
    Table (Prod.fst : String × FactVersion → String) :=
  (memoryIds.toChunks inChunk).foldl (fun rows chunk =>
    (S.askedRows chunk).foldl (fun rows v => rows.insertOrReplace (S.keptUnder chunk v, v)) rows)
    (Table.empty _)

/-- The selected columns of a version, without its evidence. -/
def versionRow (S : TenantStore) (v : FactVersion) : FactVersionRow where
  factKey := v.factKey
  entityId := v.entityId
  object := v.object
  isCurrent := v.status = .current
  validFromMs := v.validFromMs.toUInt64
  validToMs := v.validToMs.map Int64.toUInt64
  supersededBy := (v.supersededBy.bind S.parentOf).or v.supersededBy
  currentObject := (S.facts.versions.rows.find? fun c => c.factKey = v.factKey &&
    c.entityId = v.entityId && decide (c.status = .current)).map FactVersion.object
  supersededAtMs := (S.facts.versions.rows.find? fun s => s.factKey = v.factKey &&
    decide (some s.memoryId = v.supersededBy)).map fun s => s.timestampMs.toUInt64
  evidence := []

/-- The evidence of a version, newest first. The query asks for the versions in chunks, each of them
in one, and its order keeps the rows of a version together. -/
def evidenceOf (S : TenantStore) (v : FactVersion) : List String :=
  (orderBy (fun e => (toLex (-e.timestampMs.toInt, e.memoryId) : ℤ ×ₗ String))
    (S.facts.evidence.rows.filter fun e => e.entityId = v.entityId && e.factKey = v.factKey &&
      decide (e.versionMemoryId = v.memoryId))).map
    fun e => (S.parentOf e.memoryId).getD e.memoryId

/-- The version that is kept for a memory. -/
def keptVersion (S : TenantStore) (memoryIds : List String) (memoryId : String) :
    Option FactVersion :=
  ((S.rowsByMemory memoryIds).find? memoryId).map Prod.snd

/-- `fact_versions_for_memories`, by memory. -/
def factVersionsForMemories (S : TenantStore) (memoryIds : List String) (memoryId : String) :
    Option FactVersionRow :=
  (S.keptVersion memoryIds memoryId).map fun v =>
    { S.versionRow v with evidence := S.evidenceOf v }

/-! ## The version of a memory -/

/-- The versions that a memory states itself. -/
def ownVersions (S : TenantStore) (memoryId : String) : List FactVersion :=
  S.facts.versions.rows.filter fun v => v.memoryId = memoryId

/-- The versions that records derived from a memory state. -/
def inheritedVersions (S : TenantStore) (memoryId : String) : List FactVersion :=
  S.facts.versions.rows.filter fun v =>
    decide (v.memoryId ≠ memoryId) && decide (S.parentOf v.memoryId = some memoryId)

/-- The last version that a memory states itself, else the last one that it inherits. -/
def versionFor (S : TenantStore) (memoryId : String) : Option FactVersion :=
  (lastBy FactVersion.reportKey (S.ownVersions memoryId)).or
    (lastBy FactVersion.reportKey (S.inheritedVersions memoryId))

/-- The versions that a chunk keeps under a memory it asks for: its own, and those of its derived
records that are not asked for in the chunk. -/
def keptIn (S : TenantStore) (memoryId : String) (chunk : List String) : List FactVersion :=
  if chunk.contains memoryId then
    S.facts.versions.rows.filter fun v => decide (v.memoryId = memoryId) ||
      (!chunk.contains v.memoryId && decide (S.parentOf v.memoryId = some memoryId))
  else []

/-- The last chunk that keeps a version under a memory. -/
def decidingChunk (S : TenantStore) (memoryIds : List String) (memoryId : String) :
    Option (List String) :=
  (memoryIds.toChunks inChunk).reverse.find? fun chunk => !(S.keptIn memoryId chunk).isEmpty

/-- In a chunk, the memory's own versions come after all that it inherits in the chunk, and the last
version that a memory without own ones inherits is of a record that the chunk does not ask for. -/
structure Decides (S : TenantStore) (memoryId : String) (chunk : List String) : Prop where
  own : S.ownVersions memoryId ≠ [] → ∀ d ∈ S.inheritedVersions memoryId,
    d.memoryId ∉ chunk → ∃ o ∈ S.ownVersions memoryId, d.reportKey < o.reportKey
  inherited : S.ownVersions memoryId = [] → ∀ d ∈ S.inheritedVersions memoryId,
    (∀ d' ∈ S.inheritedVersions memoryId, d'.reportKey ≤ d.reportKey) → d.memoryId ∉ chunk

/-- The chunk that decides lets the memory's version through, or there is no version. -/
structure Reports (S : TenantStore) (memoryIds : List String) (memoryId : String) : Prop where
  decides : ∀ chunk, S.decidingChunk memoryIds memoryId = some chunk → S.Decides memoryId chunk
  empty : S.decidingChunk memoryIds memoryId = none → S.versionFor memoryId = none

end TenantStore

/-! ## What is kept -/

namespace TenantStore

variable {S : TenantStore} {memoryId : String} {memoryIds : List String}

/-- Row identifiers make the order strict. -/
theorem keyed_reportKey (S : TenantStore) :
    Keyed FactVersion.reportKey S.facts.versions.rows := by
  refine List.pairwise_map.mpr (S.facts.versions.ascending.imp fun {a b} hlt heq => ?_)
  have hids : a.rowid = b.rowid := congrArg (fun k => (ofLex (ofLex k).2).2) heq
  exact absurd hids (Nat.ne_of_lt hlt)

/-- A memory's own versions are the stored ones that name it. -/
theorem mem_ownVersions {v : FactVersion} :
    v ∈ S.ownVersions memoryId ↔ v ∈ S.facts.versions.rows ∧ v.memoryId = memoryId := by
  simp [ownVersions]

/-- It inherits the versions of the memories that are derived from it. -/
theorem mem_inheritedVersions {v : FactVersion} :
    v ∈ S.inheritedVersions memoryId ↔ v ∈ S.facts.versions.rows ∧ v.memoryId ≠ memoryId ∧
      S.parentOf v.memoryId = some memoryId := by
  simp [inheritedVersions]

/-- What a chunk keeps under a memory it asks for is its own or inherited from a record that the
chunk does not ask for. -/
theorem mem_keptIn {chunk : List String} {v : FactVersion} :
    v ∈ S.keptIn memoryId chunk ↔ memoryId ∈ chunk ∧
      (v ∈ S.ownVersions memoryId ∨ v ∈ S.inheritedVersions memoryId ∧ v.memoryId ∉ chunk) := by
  rw [mem_ownVersions, mem_inheritedVersions]
  unfold keptIn
  by_cases hmem : memoryId ∈ chunk
  · rw [if_pos (List.contains_iff_mem.mpr hmem)]
    simp only [List.mem_filter, Bool.or_eq_true, decide_eq_true_eq, Bool.and_eq_true,
      Bool.not_eq_true', List.contains_eq_mem, decide_eq_false_iff_not]
    constructor
    · rintro ⟨hrow, hown | ⟨hchunk, hparent⟩⟩
      · exact ⟨hmem, .inl ⟨hrow, hown⟩⟩
      · exact ⟨hmem, .inr ⟨⟨hrow, fun heq => hchunk (heq ▸ hmem), hparent⟩, hchunk⟩⟩
    · rintro ⟨-, ⟨hrow, hown⟩ | ⟨⟨hrow, -, hparent⟩, hchunk⟩⟩
      · exact ⟨hrow, .inl hown⟩
      · exact ⟨hrow, .inr ⟨hchunk, hparent⟩⟩
  · rw [if_neg fun h => hmem (List.contains_iff_mem.mp h)]
    simp [hmem]

/-- The rows that a chunk keeps under a memory. -/
theorem askedRows_filter (chunk : List String) :
    ((S.askedRows chunk).filter fun v => S.keptUnder chunk v = memoryId) =
      orderBy FactVersion.reportKey (S.keptIn memoryId chunk) := by
  have hkeyed := S.keyed_reportKey
  unfold askedRows
  rw [← (hkeyed.filter _).orderBy_filter, List.filter_filter]
  unfold keptIn
  -- A row of the chunk is kept under its own memory, or else under its parent.
  by_cases hmem : memoryId ∈ chunk
  · rw [if_pos (List.contains_iff_mem.mpr hmem)]
    refine congrArg (orderBy FactVersion.reportKey) (List.filter_congr fun v _ => ?_)
    unfold keptUnder
    by_cases hv : v.memoryId ∈ chunk
    · simp [hv]
    · cases hparent : S.parentOf v.memoryId with
      | none =>
        have hne : v.memoryId ≠ memoryId := fun heq => hv (heq ▸ hmem)
        simp [hv, hne]
      | some parent =>
        have hne : v.memoryId ≠ memoryId := fun heq => hv (heq ▸ hmem)
        by_cases heq : parent = memoryId
        · simp [hv, hne, heq, hmem]
        · simp [hv, hne, heq]
  · -- A row is kept under a memory of the chunk.
    have hnone : (S.facts.versions.rows.filter fun v =>
        decide (S.keptUnder chunk v = memoryId) &&
          (chunk.contains v.memoryId || (S.parentOf v.memoryId).any chunk.contains)) = [] := by
      refine List.filter_eq_nil_iff.mpr fun v _ hboth => ?_
      obtain ⟨hkept, hasked⟩ := Bool.and_eq_true_iff.mp hboth
      have hkept := of_decide_eq_true hkept
      unfold keptUnder at hkept
      split at hkept
      · rename_i hv
        exact hmem (hkept ▸ List.contains_iff_mem.mp hv)
      · rename_i hv
        rw [Bool.eq_false_iff.mpr hv, Bool.false_or] at hasked
        obtain ⟨parent, hparent, hin⟩ := (Option.any_eq_true ..).mp hasked
        rw [hparent, Option.getD_some] at hkept
        exact hmem (hkept ▸ List.contains_iff_mem.mp hin)
    rw [if_neg fun h => hmem (List.contains_iff_mem.mp h), hnone]

/-- The pairs that the chunks insert. -/
theorem rowsByMemory_eq (S : TenantStore) (memoryIds : List String) :
    S.rowsByMemory memoryIds =
      ((memoryIds.toChunks inChunk).flatMap fun chunk =>
        (S.askedRows chunk).map fun v => (S.keptUnder chunk v, v)).foldl
        (fun rows pair => rows.insertOrReplace pair) (Table.empty _) := by
  unfold rowsByMemory
  rw [List.foldl_flatMap]
  simp only [List.foldl_map]

/-- The version kept for a memory is the last one of the last chunk that keeps any. -/
theorem keptVersion_eq :
    S.keptVersion memoryIds memoryId =
      (S.decidingChunk memoryIds memoryId).bind fun chunk =>
        lastBy FactVersion.reportKey (S.keptIn memoryId chunk) := by
  -- What the loop leaves under the memory comes from the last chunk that has anything for it.
  have hpairs : ∀ chunk, ((S.askedRows chunk).map fun v => (S.keptUnder chunk v, v)).filter
      (fun pair => decide (pair.1 = memoryId)) =
        (orderBy FactVersion.reportKey (S.keptIn memoryId chunk)).map fun v => (memoryId, v) := by
    intro chunk
    rw [← askedRows_filter, List.filter_map]
    refine List.map_congr_left fun v hv => ?_
    have hkept : S.keptUnder chunk v = memoryId := of_decide_eq_true (List.mem_filter.mp hv).2
    rw [hkept]
  unfold keptVersion decidingChunk
  rw [rowsByMemory_eq, Table.find?_foldl_insertOrReplace_last, List.filter_flatMap,
    List.getLast?_flatMap]
  simp only [hpairs]
  induction (memoryIds.toChunks inChunk).reverse with
  | nil => rfl
  | cons chunk rest ih =>
    rw [List.findSome?_cons, List.find?_cons, List.getLast?_map]
    unfold lastBy at *
    -- A chunk without a row for the memory is passed over.
    cases hlast : (orderBy FactVersion.reportKey (S.keptIn memoryId chunk)).getLast? with
    | none =>
      have hnil : S.keptIn memoryId chunk = [] :=
        (orderBy_eq_nil _ _).mp (List.getLast?_eq_none_iff.mp hlast)
      rw [hnil]
      exact ih
    | some v =>
      have hne : (S.keptIn memoryId chunk).isEmpty = false := by
        refine Bool.eq_false_iff.mpr fun hempty => ?_
        rw [List.isEmpty_iff.mp hempty] at hlast
        cases hlast
      rw [hne]
      simp [hlast]

/-! ## What is reported -/

/-- Of rows with distinct keys, if there are any, there is a last one. -/
theorem exists_lastBy {rows : List FactVersion} (h : rows ≠ []) :
    ∃ v, lastBy FactVersion.reportKey rows = some v :=
  Option.ne_none_iff_exists'.mp fun hnone =>
    h ((orderBy_eq_nil _ _).mp (List.getLast?_eq_none_iff.mp hnone))

/-- No memory and key is kept twice of one chunk. -/
theorem keyed_keptIn (S : TenantStore) (memoryId : String) (chunk : List String) :
    Keyed FactVersion.reportKey (S.keptIn memoryId chunk) := by
  unfold keptIn
  split
  · exact S.keyed_reportKey.filter _
  · exact List.nodup_nil

/-- A chunk that keeps a version under a memory keeps the memory's version exactly if it decides. -/
theorem lastBy_keptIn_iff {chunk : List String} (h : S.keptIn memoryId chunk ≠ []) :
    lastBy FactVersion.reportKey (S.keptIn memoryId chunk) = S.versionFor memoryId ↔
      S.Decides memoryId chunk := by
  have hkept := S.keyed_keptIn memoryId chunk
  have hown := S.keyed_reportKey.filter fun v => decide (v.memoryId = memoryId)
  have hinherited := S.keyed_reportKey.filter fun v =>
    decide (v.memoryId ≠ memoryId) && decide (S.parentOf v.memoryId = some memoryId)
  have hmem : memoryId ∈ chunk := by
    obtain ⟨v, hv⟩ := List.exists_mem_of_ne_nil _ h
    exact (mem_keptIn.mp hv).1
  by_cases hnone : S.ownVersions memoryId = []
  · -- Nothing of its own: what is kept is what is inherited from outside the chunk.
    have hin : ∀ v, v ∈ S.keptIn memoryId chunk ↔
        v ∈ S.inheritedVersions memoryId ∧ v.memoryId ∉ chunk := by
      intro v
      rw [mem_keptIn, hnone]
      simp [hmem]
    have hne : S.inheritedVersions memoryId ≠ [] := by
      obtain ⟨v, hv⟩ := List.exists_mem_of_ne_nil _ h
      exact List.ne_nil_of_mem ((hin v).mp hv).1
    obtain ⟨d, hd⟩ := exists_lastBy hne
    obtain ⟨hdmem, hdmax⟩ := hinherited.lastBy_eq_some.mp hd
    have hversion : S.versionFor memoryId = some d := by
      unfold versionFor
      rw [hnone, hd]
      rfl
    rw [hversion, hkept.lastBy_eq_some]
    constructor
    · rintro ⟨hdkept, -⟩
      refine ⟨fun hsome => absurd hnone hsome, fun _ d' hd' hmax => ?_⟩
      have hsame : d' = d :=
        hinherited.eq_of_mem hd' hdmem (le_antisymm (hdmax d' hd') (hmax d hdmem))
      rw [hsame]
      exact ((hin d).mp hdkept).2
    · intro hdecides
      exact ⟨(hin d).mpr ⟨hdmem, hdecides.inherited hnone d hdmem hdmax⟩,
        fun v hv => hdmax v ((hin v).mp hv).1⟩
  -- The last version of its own has to be the last of all that is kept.
  · obtain ⟨o, ho⟩ := exists_lastBy hnone
    obtain ⟨homem, homax⟩ := hown.lastBy_eq_some.mp ho
    have hversion : S.versionFor memoryId = some o := by
      unfold versionFor
      rw [ho]
      rfl
    rw [hversion, hkept.lastBy_eq_some]
    constructor
    · rintro ⟨-, hmax⟩
      refine ⟨fun _ d hd hout => ⟨o, homem, ?_⟩, fun hnil => absurd hnil hnone⟩
      refine lt_of_le_of_ne (hmax d (mem_keptIn.mpr ⟨hmem, .inr ⟨hd, hout⟩⟩)) fun heq => ?_
      have hsame : d = o := S.keyed_reportKey.eq_of_mem (mem_inheritedVersions.mp hd).1
        (mem_ownVersions.mp homem).1 heq
      rw [hsame] at hd
      exact (mem_inheritedVersions.mp hd).2.1 (mem_ownVersions.mp homem).2
    · intro hdecides
      refine ⟨mem_keptIn.mpr ⟨hmem, .inl homem⟩, fun v hv => ?_⟩
      -- What is inherited from outside is earlier than a version of its own.
      rcases (mem_keptIn.mp hv).2 with hvown | ⟨hinh, hout⟩
      · exact homax v hvown
      · obtain ⟨o', ho', hlt⟩ := hdecides.own hnone v hinh hout
        exact hlt.le.trans (homax o' ho')

/-- For every store, every list of memories and every memory, the version kept for the memory is the
one that it states itself, or inherits where it states none, exactly if the chunk that decides lets
that version through; and then that version is what is reported. -/
theorem reported_iff (S : TenantStore) (memoryIds : List String) (memoryId : String) :
    (S.keptVersion memoryIds memoryId = S.versionFor memoryId ↔
      S.Reports memoryIds memoryId) ∧
    (S.Reports memoryIds memoryId →
      S.factVersionsForMemories memoryIds memoryId = (S.versionFor memoryId).map fun v =>
        { S.versionRow v with evidence := S.evidenceOf v }) := by
  -- The version that is kept is the memory's own exactly in these cases.
  have hiff : S.keptVersion memoryIds memoryId = S.versionFor memoryId ↔
      S.Reports memoryIds memoryId := by
    rw [keptVersion_eq]
    cases hchunk : S.decidingChunk memoryIds memoryId with
    | none =>
      constructor
      · intro hversion
        exact ⟨fun chunk hsome => (by rw [hchunk] at hsome; cases hsome), fun _ => hversion.symm⟩
      · exact fun hreports => (hreports.empty hchunk).symm
    | some chunk =>
      have hne : S.keptIn memoryId chunk ≠ [] := by
        have hfound := List.find?_some hchunk
        intro hnil
        rw [hnil] at hfound
        cases hfound
      rw [Option.bind_some, lastBy_keptIn_iff hne]
      constructor
      · intro hdecides
        refine ⟨fun chunk' hsome => ?_, fun hnone => (by rw [hchunk] at hnone; cases hnone)⟩
        rw [hchunk] at hsome
        obtain rfl := Option.some.inj hsome
        exact hdecides
      · exact fun hreports => hreports.decides chunk hchunk
  refine ⟨hiff, fun hreports => ?_⟩
  unfold factVersionsForMemories
  rw [hiff.mpr hreports]

/-- The stay in Paris that a turn states and the move to Lyon that a record derived from it does. -/
def movedStore : TenantStore where
  __ := TenantStore.empty
  memories :=
    { rows := [⟨1, "u:s:1::fact", "u", "moved to Lyon", .fact, "h", 1, 1, none, "s", 1, "user",
        some "u:s:1", true⟩]
      keyed := by simp [Keyed]
      ascending := by simp
      sequence := 1
      rowid_le_sequence := by simp }
  facts :=
    { versions :=
        { rows :=
            [⟨1, "city", "u:s:1", "u", "ann", "city", "Paris", .stale, 1, some "u:s:1::fact", none,
                1, some 2, 1⟩,
              ⟨2, "city", "u:s:1::fact", "u", "ann", "city", "Lyon", .current, 2, none,
                some "u:s:1", 2, none, 2⟩]
          keyed := by simp [Keyed, FactVersion.primaryKey]
          ascending := by simp }
      evidence := Table.empty _ }

/-- Asked for alone, the turn is reported with the version of the derived record; asked for together
with the derived record, with its own. -/
theorem reported_moved :
    (movedStore.ownVersions "u:s:1").map FactVersion.object = ["Paris"] ∧
      (movedStore.factVersionsForMemories ["u:s:1"] "u:s:1").map FactVersionRow.object =
        some "Lyon" ∧
      (movedStore.factVersionsForMemories ["u:s:1", "u:s:1::fact"] "u:s:1").map
        FactVersionRow.object = some "Paris" := by
  decide +kernel

end TenantStore

end Tellodb
