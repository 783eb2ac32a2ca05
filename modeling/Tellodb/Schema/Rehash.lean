import Tellodb.Storage.Schema

/-!
# The loop that hashes all memories again

`rehash_ok`: over memories with distinct positive row identifiers the loop ends after at most one
round more than there are memories, and every memory then has the hash of its content. The
invariant of the loop is `hashedUpTo`: the memories up to the last row identifier read have their
new hash, and the others are as they were. -/

namespace Tellodb

open Relational

/-- A memory has texts where the migration reads texts. -/
def ReadableMemory (r : Row) : Prop :=
  ∀ column ∈ ["content", "entity_id", "kind"], ∃ s, r column = .text s

/-- The text of a cell. -/
def textOf : Value → String
  | .text s => s
  | _ => ""

variable (sha256 : String → String)

/-- The hash of a memory. -/
def hashOf (r : Row) : String :=
  contentHash sha256 (textOf (r "content")) (textOf (r "entity_id"))
    (MemoryKind.parse (textOf (r "kind")))

/-- A memory with its hash. -/
def hashed (r : Row) : Row :=
  Function.update r "content_hash" (.text (hashOf sha256 r))

/-- The memories, hashed up to a row identifier. -/
def hashedUpTo (lastRowid : ℤ) (rows : List Row) : List Row :=
  rows.map fun r => if memoryRowid r ≤ lastRowid then hashed sha256 r else r

variable {sha256}

/-- What the migration reads of a memory. -/
theorem readHash_eq {r : Row} (h : ReadableMemory r) :
    readHash sha256 r = .ok (memoryRowid r, hashOf sha256 r) := by
  obtain ⟨content, hcontent⟩ := h "content" (by simp)
  obtain ⟨entity, hentity⟩ := h "entity_id" (by simp)
  obtain ⟨kind, hkind⟩ := h "kind" (by simp)
  unfold readHash getText hashOf
  rw [hcontent, hentity, hkind]
  rfl

/-- Reading several memories. -/
theorem mapM_readHash {rows : List Row} (h : ∀ r ∈ rows, ReadableMemory r) :
    rows.mapM (readHash sha256) = .ok (rows.map fun r => (memoryRowid r, hashOf sha256 r)) := by
  induction rows with
  | nil => rfl
  | cons r rest ih =>
    rw [List.mapM_cons, readHash_eq (h r List.mem_cons_self),
      ih fun r hr => h r (List.mem_cons_of_mem _ hr)]
    rfl

/-- The updates of a batch, row by row. -/
theorem foldl_setHash (updates : List (ℤ × String)) (rows : List Row) :
    updates.foldl setHash rows = rows.map fun r => updates.foldl (fun r update =>
      if memoryRowid r = update.1 then Function.update r "content_hash" (.text update.2) else r)
        r := by
  induction updates generalizing rows with
  | nil => exact (List.map_id _).symm
  | cons update rest ih =>
    rw [List.foldl_cons, ih]
    unfold setHash
    rw [List.map_map]
    rfl

/-- A memory that no update is for stays as it is. -/
theorem foldl_update_of_ne {updates : List (ℤ × String)} {r : Row}
    (h : ∀ update ∈ updates, memoryRowid r ≠ update.1) :
    updates.foldl (fun r update =>
      if memoryRowid r = update.1 then Function.update r "content_hash" (.text update.2) else r) r =
        r := by
  induction updates with
  | nil => rfl
  | cons update rest ih =>
    rw [List.foldl_cons, if_neg (h update List.mem_cons_self)]
    exact ih fun other hother => h other (List.mem_cons_of_mem _ hother)

/-- A memory that some updates are for, all with one hash, gets that hash. -/
theorem foldl_update_of_mem {updates : List (ℤ × String)} {r : Row} {hash : String}
    (hmem : ∃ update ∈ updates, memoryRowid r = update.1)
    (hhash : ∀ update ∈ updates, memoryRowid r = update.1 → update.2 = hash) :
    updates.foldl (fun r update =>
      if memoryRowid r = update.1 then Function.update r "content_hash" (.text update.2) else r) r =
        Function.update r "content_hash" (.text hash) := by
  induction updates generalizing r with
  | nil =>
    obtain ⟨update, hupdate, -⟩ := hmem
    exact absurd hupdate List.not_mem_nil
  | cons update rest ih =>
    have hrest : ∀ other ∈ rest, memoryRowid r = other.1 → other.2 = hash := fun other hother =>
      hhash other (List.mem_cons_of_mem _ hother)
    rw [List.foldl_cons]
    -- The first update is of this row, and a later one sets the same hash again.
    by_cases hfirst : memoryRowid r = update.1
    · rw [if_pos hfirst, hhash update List.mem_cons_self hfirst]
      by_cases hagain : ∃ other ∈ rest, memoryRowid r = other.1
      · rw [ih (r := Function.update r "content_hash" (.text hash)) hagain hrest,
          Function.update_idem]
      · rw [not_exists] at hagain
        exact foldl_update_of_ne fun other hother hsame => hagain other ⟨hother, hsame⟩
    · rw [if_neg hfirst]
      refine ih ?_ hrest
      -- The update of this row is a later one.
      obtain ⟨other, hother, hsame⟩ := hmem
      rcases List.mem_cons.mp hother with rfl | hother
      · exact absurd hsame hfirst
      · exact ⟨other, hother, hsame⟩

/-! ## The rounds -/

/-- The memories that a round reads, in order, are as they were at the start. -/
theorem pending_hashedUpTo (rows : List Row) (lastRowid : ℤ) :
    (hashedUpTo sha256 lastRowid rows).filter (fun r => lastRowid < memoryRowid r) =
      rows.filter fun r => lastRowid < memoryRowid r := by
  unfold hashedUpTo
  induction rows with
  | nil => rfl
  | cons r rest ih =>
    rw [List.map_cons]
    by_cases hlast : memoryRowid r ≤ lastRowid
    · have hnot : ¬ lastRowid < memoryRowid r := by omega
      rw [if_pos hlast, List.filter_cons, List.filter_cons, if_neg, if_neg]
      · exact ih
      · exact fun h => hnot (of_decide_eq_true h)
      · exact fun h => hnot (of_decide_eq_true h)
    · rw [if_neg hlast, List.filter_cons_of_pos (by simpa using hlast),
        List.filter_cons_of_pos (by simpa using hlast), ih]

/-- One round, with what it reads. -/
theorem rehash_succ {rounds : ℕ} {lastRowid : ℤ} {rows : List Row} {batch : List (ℤ × String)}
    (hread : ((orderBy memoryRowid (rows.filter fun r => lastRowid < memoryRowid r)).take
      hashBatch).mapM (readHash sha256) = .ok batch) :
    rehash sha256 (rounds + 1) lastRowid rows = batch.getLast?.elim (.ok rows) fun newest =>
      rehash sha256 rounds newest.1 (batch.foldl setHash rows) := by
  rw [rehash, hread]
  simp only [bind, Except.bind]
  cases batch.getLast? <;> rfl

/-- The updates of a round hash the memories up to the last one that it reads. -/
theorem foldl_setHash_hashedUpTo {rows read : List Row} {lastRowid : ℤ} (newest : ℤ)
    (hread : ∀ r ∈ rows, r ∈ read ↔ lastRowid < memoryRowid r ∧ memoryRowid r ≤ newest)
    (hsub : read ⊆ rows) (hkeyed : Keyed memoryRowid rows) (hle : lastRowid ≤ newest) :
    (read.map fun r => (memoryRowid r, hashOf sha256 r)).foldl setHash
        (hashedUpTo sha256 lastRowid rows) = hashedUpTo sha256 newest rows := by
  rw [foldl_setHash]
  unfold hashedUpTo
  rw [List.map_map]
  refine List.map_congr_left fun r hr => ?_
  rw [Function.comp_apply]
  by_cases hold : memoryRowid r ≤ lastRowid
  · -- The memory was hashed before.
    rw [if_pos hold, if_pos (hold.trans hle)]
    refine foldl_update_of_ne fun update hupdate => ?_
    obtain ⟨other, hother, rfl⟩ := List.mem_map.mp hupdate
    have hlast := ((hread other (hsub hother)).mp hother).1
    show memoryRowid r ≠ memoryRowid other
    omega
  · rw [if_neg hold]
    -- The memory is of this batch, or of a later one.
    by_cases hnew : memoryRowid r ≤ newest
    · rw [if_pos hnew]
      have hmem : r ∈ read := (hread r hr).mpr ⟨by omega, hnew⟩
      refine foldl_update_of_mem ⟨_, List.mem_map_of_mem hmem, rfl⟩ fun update hupdate hsame => ?_
      obtain ⟨other, hother, rfl⟩ := List.mem_map.mp hupdate
      rw [hkeyed.eq_of_mem hr (hsub hother) hsame]
    · rw [if_neg hnew]
      refine foldl_update_of_ne fun update hupdate => ?_
      obtain ⟨other, hother, rfl⟩ := List.mem_map.mp hupdate
      have hlast := ((hread other (hsub hother)).mp hother).2
      show memoryRowid r ≠ memoryRowid other
      omega

/-- The rounds that follow hash the rest. The induction is on the rounds, of which there are more
than memories to be read. -/
theorem rehash_hashedUpTo {rows : List Row} (hkeyed : Keyed memoryRowid rows)
    (hreadable : ∀ r ∈ rows, ReadableMemory r) (rounds : ℕ) (lastRowid : ℤ)
    (hrounds : (rows.filter fun r => lastRowid < memoryRowid r).length < rounds) :
    rehash sha256 rounds lastRowid (hashedUpTo sha256 lastRowid rows) =
      .ok (rows.map (hashed sha256)) := by
  induction rounds generalizing lastRowid with
  | zero => exact absurd hrounds (Nat.not_lt_zero _)
  | succ rounds ih =>
    generalize hpending : (rows.filter fun r => lastRowid < memoryRowid r) = pending at hrounds
    have hmem : ∀ r, r ∈ orderBy memoryRowid pending ↔ r ∈ rows ∧ lastRowid < memoryRowid r := by
      intro r
      rw [mem_orderBy, ← hpending, List.mem_filter, decide_eq_true_eq]
    have hsorted : (orderBy memoryRowid pending).Pairwise fun a b =>
        memoryRowid a < memoryRowid b := by
      apply Keyed.orderBy_pairwise
      rw [← hpending]
      exact hkeyed.filter _
    have hread : ((orderBy memoryRowid pending).take hashBatch).mapM (readHash sha256) =
        .ok (((orderBy memoryRowid pending).take hashBatch).map fun r =>
          (memoryRowid r, hashOf sha256 r)) :=
      mapM_readHash fun r hr => hreadable r ((hmem r).mp (List.mem_of_mem_take hr)).1
    rw [rehash_succ (by rw [pending_hashedUpTo, hpending]; exact hread), List.getLast?_map]
    generalize orderBy memoryRowid pending = sorted at hmem hsorted hread
    cases hlast : (sorted.take hashBatch).getLast? with
    | none =>
      -- Nothing is left to be read.
      have hnil : sorted = [] := by
        rw [List.getLast?_eq_none_iff, List.take_eq_nil_iff] at hlast
        exact hlast.resolve_left (by decide)
      refine congrArg Except.ok (List.map_congr_left fun r hr => if_pos ?_)
      by_contra hgt
      have hleft : r ∈ sorted := (hmem r).mpr ⟨hr, by omega⟩
      rw [hnil] at hleft
      exact absurd hleft List.not_mem_nil
    | some newest =>
      have hnewest := (hmem newest).mp (List.mem_of_mem_take (List.mem_of_getLast? hlast))
      show rehash sha256 rounds (memoryRowid newest) _ = _
      rw [foldl_setHash_hashedUpTo (memoryRowid newest) ?_ ?_ hkeyed (by omega)]
      · apply ih
        -- The newest memory is no longer to be read.
        have hfewer : (pending.filter fun r => memoryRowid newest < memoryRowid r).length <
            pending.length := by
          rw [List.length_filter_lt_length_iff_exists]
          refine ⟨newest, ?_, by simp⟩
          rw [← hpending]
          exact List.mem_filter.mpr ⟨hnewest.1, decide_eq_true hnewest.2⟩
        have hrest : (rows.filter fun r => memoryRowid newest < memoryRowid r) =
            pending.filter fun r => memoryRowid newest < memoryRowid r := by
          rw [← hpending, List.filter_filter]
          refine List.filter_congr fun r _ => ?_
          rw [← Bool.decide_and, decide_eq_decide]
          omega
        rw [hrest]
        omega
      · intro r hr
        constructor
        · intro htake
          have hr := List.mem_of_mem_take htake
          exact ⟨((hmem r).mp hr).2, (mem_take_iff hsorted hlast hr).mp htake⟩
        · rintro ⟨hgt, hle⟩
          exact (mem_take_iff hsorted hlast ((hmem r).mpr ⟨hr, hgt⟩)).mpr hle
      · exact fun r hr => ((hmem r).mp (List.mem_of_mem_take hr)).1

/-- The loop hashes every memory. -/
theorem rehash_ok {rows : List Row} (hkeyed : Keyed memoryRowid rows)
    (hreadable : ∀ r ∈ rows, ReadableMemory r) (hpositive : ∀ r ∈ rows, 0 < memoryRowid r) :
    rehash sha256 (rows.length + 1) 0 rows = .ok (rows.map (hashed sha256)) := by
  have hstart : hashedUpTo sha256 0 rows = rows := by
    refine (List.map_congr_left fun r hr => if_neg ?_).trans (List.map_id _)
    have := hpositive r hr
    omega
  have hloop := @rehash_hashedUpTo sha256 rows hkeyed hreadable (rows.length + 1) 0
    (Nat.lt_succ_of_le (List.length_filter_le _ _))
  rw [hstart] at hloop
  exact hloop

end Tellodb
