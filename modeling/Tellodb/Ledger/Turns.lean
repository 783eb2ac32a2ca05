import Tellodb.Collections.Chunks
import Tellodb.Collections.Grouped
import Tellodb.Storage.Reads
import Tellodb.Storage.Steps
import Mathlib.Data.List.Infix

/-!
# Turns

The turns that `get_ledger_turns_batch` and `get_turn_window` report. A turn is its row and those of
its chunks (`turnOf`), joined by row identifier. -/

namespace Tellodb

open Collections Relational

/-! ## Chunks by pattern -/

/-- The identifier of a chunk: `::c` and a digit behind its parent's. -/
def isChunkId (parent id : String) : Bool :=
  (parent.toList ++ [':', ':', 'c']).isPrefixOf id.toList &&
    (id.toList.drop (parent.toList.length + 3)).head?.any Char.isDigit

/-- An identifier without the characters that a `GLOB` gives a meaning to. -/
def IsPlainId (id : String) : Prop :=
  ∀ c ∈ id.toList, c ≠ '*' ∧ c ≠ '?' ∧ c ≠ '[' ∧ c ≠ '\x00'

instance (id : String) : Decidable (IsPlainId id) :=
  inferInstanceAs (Decidable (∀ c ∈ id.toList, c ≠ '*' ∧ c ≠ '?' ∧ c ≠ '[' ∧ c ≠ '\x00'))

/-- A plain character of a pattern stands for itself. -/
theorem globMatch_cons {x : Char} (hx : x ≠ '*' ∧ x ≠ '?' ∧ x ≠ '[') (steps : ℕ)
    (pattern text : List Char) : globMatch (steps + 1) (x :: pattern) text =
      (text.head?.any (x = ·) && globMatch steps pattern text.tail) := by
  obtain ⟨hstar, hone, hclass⟩ := hx
  cases text with
  | nil =>
    rw [globMatch.eq_4 _ _ _ hstar]
    rfl
  | cons c text =>
    rw [globMatch.eq_7 _ _ _ _ _ hstar hone hclass]
    rfl

/-- Plain characters of a pattern are found at the start. -/
theorem globMatch_append {start : List Char} (h : ∀ x ∈ start, x ≠ '*' ∧ x ≠ '?' ∧ x ≠ '[')
    (steps : ℕ) (pattern text : List Char) :
    globMatch (start.length + steps) (start ++ pattern) text =
      (start.isPrefixOf text && globMatch steps pattern (text.drop start.length)) := by
  induction start generalizing text with
  | nil => simp
  | cons x start ih =>
    have hlength : (x :: start).length + steps = start.length + steps + 1 := by
      rw [List.length_cons]
      omega
    rw [hlength, List.cons_append, globMatch_cons (h x List.mem_cons_self),
      ih fun y hy => h y (List.mem_cons_of_mem _ hy)]
    cases text with
    | nil => rfl
    | cons c text =>
      rw [List.isPrefixOf_cons_cons, List.length_cons, List.drop_succ_cons, List.head?_cons,
        List.tail_cons, Option.any_some, Bool.and_assoc, Bool.beq_eq_decide_eq]

/-- A digit and any text. -/
theorem globMatch_digit (steps : ℕ) (text : List Char) :
    globMatch (steps + 2) ['[', '0', '-', '9', ']', '*'] text = text.head?.any Char.isDigit := by
  cases text with
  | nil =>
    rw [globMatch.eq_4 _ _ _ (by decide)]
    rfl
  | cons c text =>
    rw [globMatch.eq_6]
    have hall : globMatch (steps + 1) ['*'] text = true := by
      rw [globMatch.eq_3]
      refine List.any_eq_true.mpr ⟨[], (List.mem_tails _ _).mpr List.nil_suffix, ?_⟩
      rw [globMatch.eq_1]
      rfl
    have hclass : globBracket c ['0', '-', '9', ']', '*'] =
        some ('0' ≤ c && c ≤ '9', ['*']) := by
      simp [globBracket, globClass]
    rw [hclass, Option.any_some, hall, Bool.and_true]
    rfl

/-- A start without `NUL` is that of the text before its first `NUL`. -/
theorem beforeNul_append {start : List Char} (h : '\x00' ∉ start) (text : List Char) :
    beforeNul (start ++ text) = start ++ beforeNul text := by
  unfold beforeNul
  refine List.takeWhile_append_of_pos fun c hc => ?_
  rw [decide_eq_true_iff]
  rintro rfl
  exact h hc

/-- Whether a start and a digit begin a text is seen before its first `NUL`. -/
theorem isPrefixOf_beforeNul {start : List Char} (h : '\x00' ∉ start) (text : List Char) :
    (start.isPrefixOf (beforeNul text) &&
        ((beforeNul text).drop start.length).head?.any Char.isDigit) =
      (start.isPrefixOf text && (text.drop start.length).head?.any Char.isDigit) := by
  by_cases hstart : start <+: text
  · obtain ⟨rest, rfl⟩ := hstart
    rw [beforeNul_append h, List.isPrefixOf_iff_prefix.mpr (List.prefix_append _ _),
      List.isPrefixOf_iff_prefix.mpr (List.prefix_append _ _), List.drop_left, List.drop_left]
    cases rest with
    | nil => rfl
    | cons c rest =>
      by_cases hc : c = '\x00'
      · rw [hc]
        rfl
      · unfold beforeNul
        rw [List.takeWhile_cons_of_pos (by simpa using hc)]
        rfl
  · have hshort : start.isPrefixOf (beforeNul text) = false := Bool.eq_false_iff.mpr fun hlead =>
      hstart ((List.isPrefixOf_iff_prefix.mp hlead).trans (List.takeWhile_prefix _))
    have hlong : start.isPrefixOf text = false := Bool.eq_false_iff.mpr fun hlead =>
      hstart (List.isPrefixOf_iff_prefix.mp hlead)
    rw [hshort, hlong]
    rfl

/-- The pattern of a plain identifier finds the identifiers of its chunks. -/
theorem sqlGlob_chunk {parent : String} (h : IsPlainId parent) (id : String) :
    sqlGlob id (parent ++ "::c[0-9]*") = isChunkId parent id := by
  obtain ⟨start, hstart⟩ : ∃ start, start = parent.toList ++ [':', ':', 'c'] := ⟨_, rfl⟩
  -- The start of the pattern holds no character that a pattern gives a meaning.
  have hplain : ∀ x ∈ start, x ≠ '*' ∧ x ≠ '?' ∧ x ≠ '[' := by
    intro x hx
    rw [hstart] at hx
    rcases List.mem_append.mp hx with hx | hx
    · exact ⟨(h x hx).1, (h x hx).2.1, (h x hx).2.2.1⟩
    · simp only [List.mem_cons, List.not_mem_nil, or_false] at hx
      rcases hx with rfl | rfl | rfl <;> decide
  have hnul : '\x00' ∉ start := by
    rw [hstart]
    intro hmem
    rcases List.mem_append.mp hmem with hmem | hmem
    · exact (h _ hmem).2.2.2 rfl
    · exact absurd hmem (by decide)
  -- Nothing is cut off, since there is no zero.
  have hpattern : beforeNul (parent ++ "::c[0-9]*").toList =
      start ++ ['[', '0', '-', '9', ']', '*'] := by
    have htext : (parent ++ "::c[0-9]*").toList =
        start ++ ['[', '0', '-', '9', ']', '*'] := by
      rw [hstart, String.toList_append]
      simp
    rw [htext, beforeNul_append hnul]
    rfl
  have hlength : (start ++ ['[', '0', '-', '9', ']', '*']).length = start.length + (4 + 2) := by
    rw [List.length_append]
    rfl
  have hdrop : parent.toList.length + 3 = start.length := by
    rw [hstart, List.length_append]
    rfl
  unfold sqlGlob isChunkId
  rw [hpattern, hlength, globMatch_append hplain, globMatch_digit, isPrefixOf_beforeNul hnul,
    ← hstart, hdrop]

/-! ## Turns -/

/-- A row is of a turn: its own, or one of a chunk of it. -/
def MemoryRow.isOfTurn (r : MemoryRow) (turnId : String) : Bool :=
  r.memoryId = turnId || (r.parentMemoryId = some turnId && isChunkId turnId r.memoryId)

/-- The turn of some rows, with their texts joined. -/
def joinTurn (turnId : String) (first : MemoryRow) (rest : List MemoryRow) : LedgerTurn :=
  { first.turn with
    turnId := turnId
    rawText := rest.foldl (fun text r => text ++ "\n" ++ r.content) first.content }

/-- The turn of some rows, if there are any. -/
def joinRows (turnId : String) : List MemoryRow → Option LedgerTurn
  | [] => none
  | first :: rest => some (joinTurn turnId first rest)

/-- The turn of an identifier: its rows by row identifier, each once. -/
def TenantStore.turnOf (S : TenantStore) (turnId : String) : Option LedgerTurn :=
  joinRows turnId (orderBy MemoryRow.rowid (S.memories.rows.filter fun r => r.isOfTurn turnId))

/-- The rows that are merged under keys are grouped by them. -/
theorem foldl_mergeTurn (rows : List (String × MemoryRow)) :
    rows.foldl (fun turns r => mergeTurn turns r.1 r.2.turn) [] =
      (grouped Prod.fst rows).map fun g => joinTurn g.1.1 g.1.2 (g.2.map Prod.snd) := by
  induction rows using List.reverseRecOn with
  | nil => rfl
  | append_singleton rows r ih =>
    rw [List.foldl_append, List.foldl_cons, List.foldl_nil, ih, grouped_concat]
    have hsame : (((grouped Prod.fst rows).map fun g =>
        joinTurn g.1.1 g.1.2 (g.2.map Prod.snd)).any fun t => t.turnId = r.1) =
          (grouped Prod.fst rows).any fun g => g.1.1 = r.1 := List.any_map
    unfold mergeTurn groupStep
    rw [hsame]
    by_cases hany : ((grouped Prod.fst rows).any fun g => g.1.1 = r.1) = true
    -- The turn is there, and the row joins it.
    · rw [if_pos hany, if_pos hany, List.map_map, List.map_map]
      refine List.map_congr_left fun g _ => ?_
      by_cases hkey : g.1.1 = r.1
      · have hturn : (joinTurn g.1.1 g.1.2 (g.2.map Prod.snd)).turnId = r.1 := hkey
        dsimp only [Function.comp_apply]
        rw [if_pos hturn, if_pos hkey]
        unfold joinTurn
        dsimp only
        rw [List.map_append, List.foldl_append]
        rfl
      · have hturn : (joinTurn g.1.1 g.1.2 (g.2.map Prod.snd)).turnId ≠ r.1 := hkey
        dsimp only [Function.comp_apply]
        rw [if_neg hturn, if_neg hkey]
    -- The row starts a turn.
    · rw [if_neg hany, if_neg hany, List.map_append]
      rfl

/-- A merged turn is that of the rows under its key. -/
theorem mem_foldl_mergeTurn {rows : List (String × MemoryRow)} {turn : LedgerTurn} :
    turn ∈ rows.foldl (fun turns r => mergeTurn turns r.1 r.2.turn) [] ↔
      joinRows turn.turnId ((rows.filter fun r => r.1 = turn.turnId).map Prod.snd) =
        some turn := by
  rw [foldl_mergeTurn, List.mem_map]
  constructor
  · rintro ⟨g, hg, rfl⟩
    have hrows := cons_of_mem_grouped Prod.fst hg
    unfold joinTurn
    dsimp only
    rw [← hrows]
    rfl
  · intro h
    -- The turn has a group, since its rows do not join to nothing.
    cases hrows : rows.filter fun r => r.1 = turn.turnId with
    | nil =>
      rw [hrows] at h
      exact absurd h (by simp [joinRows])
    | cons first rest =>
      have hkey : first.1 = turn.turnId := by
        have hmem : first ∈ rows.filter fun r => r.1 = turn.turnId := by
          rw [hrows]
          exact List.mem_cons_self
        exact of_decide_eq_true (List.mem_filter.mp hmem).2
      refine ⟨(first, rest), (mem_grouped_iff Prod.fst).mpr ?_, ?_⟩
      · dsimp only
        rw [hkey, hrows]
      · rw [hrows] at h
        dsimp only
        rw [hkey]
        exact Option.some.inj h

/-- The merged turns have different identifiers. -/
theorem nodup_foldl_mergeTurn (rows : List (String × MemoryRow)) :
    ((rows.foldl (fun turns r => mergeTurn turns r.1 r.2.turn) []).map
      LedgerTurn.turnId).Nodup := by
  rw [foldl_mergeTurn, List.map_map]
  exact keys_nodup Prod.fst rows

/-- Joined rows have the id that they are joined under. -/
theorem turnId_of_joinRows {turnId : String} {rows : List MemoryRow} {turn : LedgerTurn}
    (h : joinRows turnId rows = some turn) : turn.turnId = turnId := by
  cases rows with
  | nil => exact absurd h.symm (Option.some_ne_none turn)
  | cons first rest =>
    rw [← Option.some.inj h]
    rfl

/-- The merged turn of an identifier. -/
theorem find?_foldl_mergeTurn (rows : List (String × MemoryRow)) (turnId : String) :
    ((rows.foldl (fun turns r => mergeTurn turns r.1 r.2.turn) []).find? fun t =>
      t.turnId = turnId) = joinRows turnId ((rows.filter fun r => r.1 = turnId).map Prod.snd) := by
  cases hfind : (rows.foldl (fun turns r => mergeTurn turns r.1 r.2.turn) []).find? fun t =>
      t.turnId = turnId with
  | none =>
    cases hjoin : joinRows turnId ((rows.filter fun r => r.1 = turnId).map Prod.snd) with
    | none => rfl
    | some turn =>
      have hid := turnId_of_joinRows hjoin
      rw [← hid] at hjoin
      exact absurd (decide_eq_true hid)
        (List.find?_eq_none.mp hfind turn (mem_foldl_mergeTurn.mpr hjoin))
  | some turn =>
    have hid : turn.turnId = turnId := of_decide_eq_true (List.find?_some hfind :)
    have hjoin := mem_foldl_mergeTurn.mp (List.mem_of_find?_eq_some hfind)
    rw [hid] at hjoin
    exact hjoin.symm

/-! ## Turns by identifier -/

section

variable {S : TenantStore}

/-- No turn is wanted twice, and none is a chunk of another. -/
structure Requestable (S : TenantStore) (turnIds : List String) : Prop where
  nodup : turnIds.Nodup
  plain : ∀ t ∈ turnIds, IsPlainId t
  noChunk : ∀ r ∈ S.memories.rows, r.memoryId ∈ turnIds → ∀ t ∈ turnIds,
    r.parentMemoryId = some t → isChunkId t r.memoryId = false

/-- For a plain id the chunks of a turn are recognized by their parent and their own id. -/
theorem isChunkOf_eq {r : MemoryRow} {turnId : String} (h : IsPlainId turnId) :
    r.isChunkOf turnId = (r.parentMemoryId = some turnId && isChunkId turnId r.memoryId) := by
  unfold MemoryRow.isChunkOf
  rw [sqlGlob_chunk h]

/-- A row is selected under the key of a turn if it is of the turn and the turn is in the batch. -/
theorem selected_iff {turnIds ids : List String} (h : Requestable S turnIds) (hids : ids ⊆ turnIds)
    {t : String} (ht : t ∈ turnIds) {r : MemoryRow} (hr : r ∈ S.memories.rows) :
    (r.turnKey turnIds = some t ∧ (r.memoryId ∈ ids ∨ ∃ u ∈ ids, r.isChunkOf u = true)) ↔
      t ∈ ids ∧ r.isOfTurn t = true := by
  -- For a turn that is asked for, the two ways to recognize a chunk agree.
  have hchunk : ∀ u ∈ ids, r.isChunkOf u = true ↔
      r.parentMemoryId = some u ∧ isChunkId u r.memoryId = true := by
    intro u hu
    rw [isChunkOf_eq (h.plain u (hids hu)), Bool.and_eq_true_iff, decide_eq_true_iff]
  unfold MemoryRow.turnKey MemoryRow.isOfTurn
  rw [Bool.or_eq_true_iff, decide_eq_true_iff, Bool.and_eq_true_iff, decide_eq_true_iff]
  -- A row that is a turn itself is no chunk of one.
  by_cases hwanted : r.memoryId ∈ turnIds
  · have hnone : ∀ u ∈ turnIds, ¬ (r.parentMemoryId = some u ∧ isChunkId u r.memoryId = true) :=
      fun u hu hof => by
        rw [h.noChunk r hr hwanted u hu hof.1] at hof
        exact Bool.false_ne_true hof.2
    rw [if_pos hwanted, Option.some.injEq]
    constructor
    · rintro ⟨hown, hselected⟩
      refine ⟨?_, .inl hown⟩
      rcases hselected with hin | ⟨u, hu, hof⟩
      · exact hown ▸ hin
      · exact absurd ((hchunk u hu).mp hof) (hnone u (hids hu))
    · rintro ⟨hin, hown | hof⟩
      · exact ⟨hown, .inl (hown ▸ hin)⟩
      · exact absurd hof (hnone t ht)
  -- Any other row counts for its parent.
  · rw [if_neg hwanted]
    constructor
    · rintro ⟨hparent, hin | ⟨u, hu, hof⟩⟩
      · exact absurd (hids hin) hwanted
      · have hof' := (hchunk u hu).mp hof
        obtain rfl : u = t := Option.some.inj (hof'.1.symm.trans hparent)
        exact ⟨hu, .inr hof'⟩
    · rintro ⟨hin, hown | hof⟩
      · exact absurd (hown ▸ ht) hwanted
      · exact ⟨hof.1, .inr ⟨t, hin, (hchunk t hin).mpr hof⟩⟩

/-- The rows of a turn among those that a query batch selects. -/
theorem filter_turnRows {turnIds ids : List String} (h : Requestable S turnIds)
    (hids : ids ⊆ turnIds) {t : String} (ht : t ∈ turnIds) :
    (S.turnRows ids).filter (fun r => r.turnKey turnIds = some t) =
      if ids.contains t then orderBy MemoryRow.rowid (S.memories.rows.filter fun r => r.isOfTurn t)
      else [] := by
  have hfilter : (S.memories.rows.filter fun r => r.memoryId ∈ ids || ids.any r.isChunkOf).filter
        (fun r => r.turnKey turnIds = some t) =
      S.memories.rows.filter fun r => ids.contains t && r.isOfTurn t := by
    rw [List.filter_filter]
    refine List.filter_congr fun r hr => ?_
    rw [Bool.eq_iff_iff, Bool.and_eq_true_iff, Bool.or_eq_true_iff, decide_eq_true_iff,
      decide_eq_true_iff, List.any_eq_true, Bool.and_eq_true_iff, List.contains_iff_mem]
    exact selected_iff h hids ht hr
  unfold TenantStore.turnRows
  rw [← (S.memories.keyed_rowid.filter _).orderBy_filter, hfilter]
  split
  · rename_i hin
    rw [hin]
    simp only [Bool.true_and]
  · rename_i hout
    rw [Bool.eq_false_iff.mpr hout]
    simp only [Bool.false_and, List.filter_false]
    rfl

/-- The rows as they are keyed. -/
def keyedRows (wanted : List String) (rows : List MemoryRow) : List (String × MemoryRow) :=
  rows.filterMap fun r => (r.turnKey wanted).map fun key => (key, r)

/-- The rows under a key. -/
theorem filter_keyedRows (wanted : List String) (rows : List MemoryRow) (t : String) :
    ((keyedRows wanted rows).filter fun r => r.1 = t).map Prod.snd =
      rows.filter fun r => r.turnKey wanted = some t := by
  unfold keyedRows
  induction rows with
  | nil => rfl
  | cons r rows ih =>
    cases hkey : r.turnKey wanted with
    | none =>
      rw [List.filterMap_cons_none (by rw [hkey]; rfl), ih,
        List.filter_cons_of_neg (by simp [hkey])]
    | some key =>
      rw [List.filterMap_cons_some (by rw [hkey]; rfl)]
      by_cases hsame : key = t
      · rw [List.filter_cons_of_pos (by simpa using hsame), List.map_cons, ih,
          List.filter_cons_of_pos (by simpa [hkey] using hsame)]
      · rw [List.filter_cons_of_neg (by simpa using hsame), ih,
          List.filter_cons_of_neg (by simpa [hkey] using hsame)]

/-- Merging batch by batch is merging the rows of all batches. -/
theorem mergeBatches_eq (wanted : List String) (batches : List (List String)) :
    S.mergeBatches wanted batches =
      (keyedRows wanted (batches.flatMap S.turnRows)).foldl
        (fun turns r => mergeTurn turns r.1 r.2.turn) [] := by
  unfold TenantStore.mergeBatches keyedRows
  rw [List.foldl_filterMap]
  congr 1
  funext turns r
  cases r.turnKey wanted <;> rfl

/-- No row is selected under a key that is not wanted. -/
theorem turnKey_of_mem_turnRows {turnIds ids : List String} (hids : ids ⊆ turnIds) {r : MemoryRow}
    (hr : r ∈ S.turnRows ids) {t : String} (hkey : r.turnKey turnIds = some t) : t ∈ turnIds := by
  have hselected := (List.mem_filter.mp ((mem_orderBy _ _ _).mp hr)).2
  unfold MemoryRow.turnKey at hkey
  split at hkey
  · rename_i hwanted
    rw [← Option.some.inj hkey]
    exact hwanted
  · rename_i hwanted
    rcases Bool.or_eq_true_iff.mp hselected with hin | hany
    · exact absurd (hids (of_decide_eq_true hin)) hwanted
    · obtain ⟨u, hu, hof⟩ := List.any_eq_true.mp hany
      have hparent := of_decide_eq_true (Bool.and_eq_true_iff.mp hof).1
      rw [hparent] at hkey
      rw [← Option.some.inj hkey]
      exact hids hu

/-- The wanted turns have their rows joined once each, however they are cut into batches. -/
theorem find?_mergeBatches {turnIds : List String} (h : Requestable S turnIds)
    {batches : List (List String)} (hbatches : batches.flatten = turnIds) (t : String) :
    ((S.mergeBatches turnIds batches).find? fun turn => turn.turnId = t) =
      if t ∈ turnIds then S.turnOf t else none := by
  have hids : ∀ ids ∈ batches, ids ⊆ turnIds := by
    intro ids hin u hu
    rw [← hbatches]
    exact List.mem_flatten.mpr ⟨ids, hin, hu⟩
  rw [mergeBatches_eq, find?_foldl_mergeTurn, filter_keyedRows, List.filter_flatMap]
  split
  · rename_i ht
    rw [List.flatMap_congr fun ids hin => filter_turnRows h (hids ids hin) ht,
      flatMap_contains (by rw [hbatches]; exact h.nodup) (by rw [hbatches]; exact ht)]
    rfl
  · rename_i ht
    have hnone : (batches.flatMap fun ids =>
        (S.turnRows ids).filter fun r => r.turnKey turnIds = some t) = [] := by
      refine List.flatMap_eq_nil_iff.mpr fun ids hin => List.filter_eq_nil_iff.mpr ?_
      exact fun r hr hkey =>
        ht (turnKey_of_mem_turnRows (hids ids hin) hr (of_decide_eq_true hkey))
    rw [hnone]
    rfl

/-! ## Turns around a turn -/

/-- The turn that a row belongs to. Companions belong to none. -/
def MemoryRow.ofTurn (r : MemoryRow) : Option String :=
  r.parentMemoryId.elim (some r.memoryId) fun parent =>
    if isChunkId parent r.memoryId then some parent else none

/-- A turn of a session is within a radius of another. -/
structure Window where
  entityId : String
  sessionId : String
  turnIndex : UInt32
  radius : UInt32

/-- A row, or a turn, of an entity and a session is in the window. -/
def Window.contains (w : Window) (entityId sessionId : String) (turnIndex : UInt32) : Bool :=
  entityId = w.entityId && sessionId = w.sessionId &&
    (w.turnIndex.toNat - w.radius.toNat ≤ turnIndex.toNat &&
      turnIndex.toNat ≤ w.turnIndex.toNat + w.radius.toNat)

/-- The row is in the window. -/
def Window.hasRow (w : Window) (r : MemoryRow) : Bool :=
  w.contains r.entityId r.sessionId r.turnIndex

/-- The turns of a window are whole: the rows of each are of one entity, session and turn, and its
own row has no parent. -/
structure Settled (S : TenantStore) (w : Window) : Prop where
  plain : ∀ r ∈ S.memories.rows, w.hasRow r = true → ∀ parent ∈ r.parentMemoryId, IsPlainId parent
  whole : ∀ r ∈ S.memories.rows, w.hasRow r = true → ∀ t ∈ r.ofTurn, ∀ r' ∈ S.memories.rows,
    r'.isOfTurn t = true → r'.ofTurn = some t ∧
      r'.entityId = r.entityId ∧ r'.sessionId = r.sessionId ∧ r'.turnIndex = r.turnIndex

/-- The rows of the window's turns. -/
def Window.rows (w : Window) (S : TenantStore) : List MemoryRow :=
  orderBy (fun r : MemoryRow => toLex (r.turnIndex.toNat, r.rowid))
    (S.memories.rows.filter fun r => w.hasRow r && r.parentMemoryId.all r.isChunkOf)

/-- A row that belongs to a turn is of it. -/
theorem isOfTurn_of_ofTurn {r : MemoryRow} {t : String} (h : r.ofTurn = some t) :
    r.isOfTurn t = true := by
  unfold MemoryRow.ofTurn at h
  unfold MemoryRow.isOfTurn
  cases hparent : r.parentMemoryId with
  | none =>
    rw [hparent] at h
    obtain rfl := Option.some.inj h
    simp
  | some parent =>
    rw [hparent, Option.elim_some] at h
    split at h
    · rename_i hchunk
      obtain rfl := Option.some.inj h
      simp [hchunk]
    · exact absurd h.symm (Option.some_ne_none t)

/-- The rows that the window selects are those that belong to turns, under these. -/
theorem selected_window_iff {w : Window} (h : Settled S w) {r : MemoryRow}
    (hr : r ∈ S.memories.rows) (hin : w.hasRow r = true) (t : String) :
    (r.parentMemoryId.all r.isChunkOf = true ∧ r.parentMemoryId.getD r.memoryId = t) ↔
      r.ofTurn = some t := by
  unfold MemoryRow.ofTurn
  cases hparent : r.parentMemoryId with
  | none => simp
  | some parent =>
    have hchunk := isChunkOf_eq (r := r) (h.plain r hr hin parent hparent)
    rw [Option.all_some, Option.getD_some, Option.elim_some, hchunk, hparent]
    cases isChunkId parent r.memoryId <;> simp

/-- A window merges its rows under the ids of their turns. -/
theorem getTurnWindow_eq (S : TenantStore) (w : Window) :
    S.getTurnWindow w.entityId w.sessionId w.turnIndex w.radius =
      ((w.rows S).map fun r => (r.parentMemoryId.getD r.memoryId, r)).foldl
        (fun turns r => mergeTurn turns r.1 r.2.turn) [] := by
  rw [List.foldl_map]
  rfl

/-- The turns of a window come in their order, each once. -/
theorem sorted_getTurnWindow (S : TenantStore) (w : Window) :
    ((S.getTurnWindow w.entityId w.sessionId w.turnIndex w.radius).map LedgerTurn.turnId).Nodup ∧
      (S.getTurnWindow w.entityId w.sessionId w.turnIndex w.radius).Pairwise fun turn turn' =>
        turn.turnIndex ≤ turn'.turnIndex := by
  rw [getTurnWindow_eq]
  refine ⟨nodup_foldl_mergeTurn _, ?_⟩
  rw [foldl_mergeTurn, List.pairwise_map]
  have hrows : (w.rows S).Pairwise fun r r' => r.turnIndex ≤ r'.turnIndex := by
    refine (orderBy_pairwise_le _ _).imp fun {r r'} hle => ?_
    rcases Prod.Lex.toLex_le_toLex.mp hle with hlt | ⟨heq, -⟩
    · exact UInt32.le_iff_toNat_le.mpr hlt.le
    · exact UInt32.le_iff_toNat_le.mpr heq.le
  have hpairs : ((w.rows S).map fun r => (r.parentMemoryId.getD r.memoryId, r)).Pairwise
      fun a b => a.2.turnIndex ≤ b.2.turnIndex := List.pairwise_map.mpr hrows
  have hheads : ((grouped Prod.fst ((w.rows S).map fun r =>
      (r.parentMemoryId.getD r.memoryId, r))).map Prod.fst).Pairwise
        fun a b => a.2.turnIndex ≤ b.2.turnIndex := hpairs.sublist (heads_sublist Prod.fst _)
  have hturns := List.pairwise_map.mp hheads
  exact hturns

/-- The rows that the window selects for a turn that it has a row of are those of the turn. -/
theorem filter_windowRows {w : Window} (h : Settled S w) {r : MemoryRow}
    (hr : r ∈ S.memories.rows) (hin : w.hasRow r = true) {t : String} (ht : r.ofTurn = some t) :
    (w.rows S).filter (fun r => r.parentMemoryId.getD r.memoryId = t) =
      orderBy MemoryRow.rowid (S.memories.rows.filter fun r => r.isOfTurn t) := by
  -- The rows of the turn have one place, so they are in the window together.
  have hsame : ∀ r' ∈ S.memories.rows, r'.isOfTurn t = true →
      w.hasRow r' = true ∧ r'.turnIndex = r.turnIndex := by
    intro r' hr' hof
    obtain ⟨-, hentity, hsession, hturn⟩ := h.whole r hr hin t ht r' hr' hof
    unfold Window.hasRow at hin ⊢
    rw [hentity, hsession, hturn]
    exact ⟨hin, rfl⟩
  -- The rows that are kept under the turn are those of the turn.
  have hfilter : (S.memories.rows.filter fun r =>
        w.hasRow r && r.parentMemoryId.all r.isChunkOf).filter
          (fun r => r.parentMemoryId.getD r.memoryId = t) =
      S.memories.rows.filter fun r => r.isOfTurn t := by
    rw [List.filter_filter]
    refine List.filter_congr fun r' hr' => ?_
    rw [Bool.eq_iff_iff, Bool.and_eq_true_iff, Bool.and_eq_true_iff, decide_eq_true_iff]
    constructor
    · rintro ⟨hkey, hin', hselected⟩
      exact isOfTurn_of_ofTurn ((selected_window_iff h hr' hin' t).mp ⟨hselected, hkey⟩)
    · intro hof
      have hin' := (hsame r' hr' hof).1
      obtain ⟨hselected, hkey⟩ :=
        (selected_window_iff h hr' hin' t).mpr (h.whole r hr hin t ht r' hr' hof).1
      exact ⟨hkey, hin', hselected⟩
  -- The order is by turn and row number, which tells all rows apart.
  have hrowid : ∀ rows : List MemoryRow, Keyed MemoryRow.rowid rows →
      Keyed (fun r : MemoryRow => toLex (r.turnIndex.toNat, r.rowid)) rows := by
    intro rows hkeyed
    refine List.pairwise_map.mpr ((List.pairwise_map.mp hkeyed).imp fun hne heq => hne ?_)
    exact (Prod.mk.inj (toLex_inj.mp heq)).2
  have hkeyed := S.memories.keyed_rowid
  unfold Window.rows
  rw [← (hrowid _ (hkeyed.filter _)).orderBy_filter, hfilter]
  -- The rows have one turn index, so that they come in the order of their row identifiers.
  refine orderBy_eq_of_pairwise ?_ (orderBy_perm _ _)
  refine (hkeyed.filter _).orderBy_pairwise.imp_of_mem fun {a b} ha hb hlt => ?_
  have hof : ∀ c ∈ orderBy MemoryRow.rowid (S.memories.rows.filter fun r => r.isOfTurn t),
      c.turnIndex = r.turnIndex := by
    intro c hc
    obtain ⟨hc, hct⟩ := List.mem_filter.mp ((mem_orderBy _ _ _).mp hc)
    exact (hsame c hc hct).2
  exact Prod.Lex.toLex_lt_toLex.mpr (.inr ⟨by rw [hof a ha, hof b hb], hlt⟩)

/-- An identifier is not that of a chunk of itself. -/
theorem isChunkId_self (t : String) : isChunkId t t = false := by
  unfold isChunkId
  refine Bool.and_eq_false_iff.mpr (.inl (Bool.eq_false_iff.mpr fun hlead => ?_))
  have hlength := (List.isPrefixOf_iff_prefix.mp hlead).length_le
  rw [List.length_append] at hlength
  have hthree : [':', ':', 'c'].length = 3 := rfl
  omega

/-- What a turn is joined from. -/
theorem exists_of_joinRows {t : String} {rows : List MemoryRow} {turn : LedgerTurn}
    (h : joinRows t rows = some turn) : ∃ r ∈ rows, turn.entityId = r.entityId ∧
      turn.sessionId = r.sessionId ∧ turn.turnIndex = r.turnIndex := by
  cases rows with
  | nil => exact absurd h.symm (Option.some_ne_none turn)
  | cons first rest =>
    rw [← Option.some.inj h]
    exact ⟨first, List.mem_cons_self, rfl, rfl, rfl⟩

/-- A turn is in the window if it is stored there and is no chunk or companion itself. -/
theorem mem_getTurnWindow {w : Window} (h : Settled S w) (turn : LedgerTurn) :
    turn ∈ S.getTurnWindow w.entityId w.sessionId w.turnIndex w.radius ↔
      S.turnOf turn.turnId = some turn ∧
        w.contains turn.entityId turn.sessionId turn.turnIndex = true ∧
        ∀ r ∈ S.memories.rows, r.memoryId = turn.turnId → r.parentMemoryId = none := by
  obtain ⟨t, ht⟩ : ∃ t, t = turn.turnId := ⟨_, rfl⟩
  have hkeyed : (((w.rows S).map fun r => (r.parentMemoryId.getD r.memoryId, r)).filter
        fun r => r.1 = t).map Prod.snd =
      (w.rows S).filter fun r => r.parentMemoryId.getD r.memoryId = t := by
    rw [List.filter_map, List.map_map]
    exact List.map_id _
  rw [getTurnWindow_eq, mem_foldl_mergeTurn, ← ht, hkeyed]
  -- What the window reads.
  have hrow : ∀ r, r ∈ w.rows S ↔ r ∈ S.memories.rows ∧ w.hasRow r = true ∧
      r.parentMemoryId.all r.isChunkOf = true := by
    intro r
    unfold Window.rows
    rw [mem_orderBy, List.mem_filter, Bool.and_eq_true_iff]
  constructor
  · intro hjoin
    obtain ⟨r, hr, hentity, hsession, hindex⟩ := exists_of_joinRows hjoin
    obtain ⟨hmem, hkey⟩ := List.mem_filter.mp hr
    obtain ⟨hstored, hin, hselected⟩ := (hrow r).mp hmem
    have hof := (selected_window_iff h hstored hin t).mp ⟨hselected, of_decide_eq_true hkey⟩
    rw [filter_windowRows h hstored hin hof] at hjoin
    refine ⟨hjoin, ?_, fun r' hr' hown => ?_⟩
    -- A turn of its own has no parent.
    · rw [hentity, hsession, hindex]
      exact hin
    · have hof' := (h.whole r hstored hin t hof r' hr' (by
        unfold MemoryRow.isOfTurn
        rw [decide_eq_true hown, Bool.true_or])).1
      unfold MemoryRow.ofTurn at hof'
      cases hparent : r'.parentMemoryId with
      | none => rfl
      | some parent =>
        rw [hparent, Option.elim_some, hown] at hof'
        split at hof'
        · rename_i hchunk
          rw [Option.some.inj hof', isChunkId_self] at hchunk
          exact absurd hchunk Bool.false_ne_true
        · exact absurd hof'.symm (Option.some_ne_none t)
  -- The turn is read whole if one of its rows is.
  · rintro ⟨hturn, hplace, htop⟩
    obtain ⟨r, hr, hentity, hsession, hindex⟩ := exists_of_joinRows hturn
    obtain ⟨hstored, hpart⟩ := List.mem_filter.mp ((mem_orderBy _ _ _).mp hr)
    rw [hentity, hsession, hindex] at hplace
    have hof : r.ofTurn = some t := by
      unfold MemoryRow.ofTurn
      rcases Bool.or_eq_true_iff.mp hpart with hown | hchunk
      · have hid := of_decide_eq_true hown
        rw [htop r hstored hid, hid]
        rfl
      · obtain ⟨hparent, hid⟩ := Bool.and_eq_true_iff.mp hchunk
        rw [of_decide_eq_true hparent, Option.elim_some, if_pos hid]
    rw [filter_windowRows h hstored hplace hof]
    exact hturn

/-- The turns that are asked for by their identifiers, cut into batches in any way, and those of a
window, are the rows of each turn joined once each in the order of their row identifiers. -/
theorem ledger_turns (S : TenantStore) :
    (∀ turnIds, Requestable S turnIds →
      (∀ batches : List (List String), batches.flatten = turnIds → ∀ t,
        ((S.mergeBatches turnIds batches).find? fun turn => turn.turnId = t) =
          if t ∈ turnIds then S.turnOf t else none) ∧
      ∀ t, ((S.getLedgerTurnsBatch turnIds).find? fun turn => turn.turnId = t) =
        if t ∈ turnIds then S.turnOf t else none) ∧
    ∀ w : Window, Settled S w →
      ((S.getTurnWindow w.entityId w.sessionId w.turnIndex w.radius).map
        LedgerTurn.turnId).Nodup ∧
      ((S.getTurnWindow w.entityId w.sessionId w.turnIndex w.radius).Pairwise fun turn turn' =>
        turn.turnIndex ≤ turn'.turnIndex) ∧
      ∀ turn, turn ∈ S.getTurnWindow w.entityId w.sessionId w.turnIndex w.radius ↔
        S.turnOf turn.turnId = some turn ∧
          w.contains turn.entityId turn.sessionId turn.turnIndex = true ∧
          ∀ r ∈ S.memories.rows, r.memoryId = turn.turnId → r.parentMemoryId = none :=
  ⟨fun _ h => ⟨fun _ hbatches t => find?_mergeBatches h hbatches t,
      fun t => find?_mergeBatches h (flatten_toChunks inChunk _) t⟩,
    fun w h => ⟨(sorted_getTurnWindow S w).1, (sorted_getTurnWindow S w).2,
      fun turn => mem_getTurnWindow h turn⟩⟩

end

/-- A message of a turn. -/
def turnObservation (turnIndex : UInt32) (text : String) (parent : Option String) :
    AgentObservation where
  entityId := "alice"
  textualContent := text
  embedding := []
  kind := .conversational
  contentHash := text
  expiresAtMs := none
  sessionId := "s"
  turnIndex := turnIndex
  role := "user"
  parentMemoryId := parent

/-- A turn, and one that is stored in two chunks with a gist. -/
def chunkedTurns : IngestBatches :=
  { observations := [(1000, "m0", turnObservation 0 "hello" none),
      (1001, "m1::c0", turnObservation 1 "part one" (some "m1")),
      (1001, "m1::c1", turnObservation 1 "part two" (some "m1")),
      (1001, "m1::gist", turnObservation 1 "a gist" (some "m1"))] }

/-- The store that has these turns. -/
def chunkedStore : TenantStore :=
  TenantStore.empty.step (fun _ _ => 0) (.commit .insertion ⟨1, 1, 1⟩ chunkedTurns)

/-- The turns that are asked for with an unknown one, and those around the first. -/
theorem ledger_turns_chunked :
    (∀ t, ((chunkedStore.getLedgerTurnsBatch ["m1", "m0", "nope"]).find? fun turn =>
        turn.turnId = t) = if t ∈ ["m1", "m0", "nope"] then chunkedStore.turnOf t else none) ∧
      ∀ turn, turn ∈ chunkedStore.getTurnWindow "alice" "s" 0 1 ↔
        chunkedStore.turnOf turn.turnId = some turn ∧
          (Window.mk "alice" "s" 0 1).contains turn.entityId turn.sessionId turn.turnIndex =
            true ∧
          ∀ r ∈ chunkedStore.memories.rows, r.memoryId = turn.turnId → r.parentMemoryId = none :=
  ⟨((ledger_turns chunkedStore).1 _
      ⟨by decide +kernel, by decide +kernel, by decide +kernel⟩).2,
    ((ledger_turns chunkedStore).2 ⟨"alice", "s", 0, 1⟩
      ⟨by decide +kernel, by decide +kernel⟩).2.2⟩

/-- The first chunk of a turn is deleted and ingested again. Its row is then behind the second's,
and so is its text. -/
theorem ingested_again_reorders :
    let S := [StoreStep.commit .insertion ⟨1, 1, 1⟩ chunkedTurns,
      .delete .insertion 2 "m1::c0" "test",
      .commit .insertion ⟨3, 3, 3⟩
        { observations := [(1001, "m1::c0", turnObservation 1 "part one" (some "m1"))] }].foldl
          (TenantStore.step fun _ _ => 0) TenantStore.empty
    ((S.getLedgerTurnsBatch ["m1"]).find? fun turn => turn.turnId = "m1").map
      LedgerTurn.rawText ≠ some "part one\npart two" := by
  decide +kernel

end Tellodb
