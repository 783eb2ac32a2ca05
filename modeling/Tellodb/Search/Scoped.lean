import Tellodb.Search.Literals

/-!
# The rows of an entity

A search for an entity finds rows of that entity only, whatever the query is. In `fts_memories` the
expression asks for the entity's token, which no other entity has, not even after the stemmer has
taken a last letter from both (`entity_of_tokenize`), and every document there is under the token of
its own entity (`tokened_run`). The searches of the routers compare the entity itself. So whether a
search does what it is meant to depends on its terms alone (`isSafe_iff`). -/

namespace Tellodb

open Relational Fts5

/-! ## The token of an entity -/

/-- Two hexadecimal digits of a byte. -/
def hexByte (byte : UInt8) : List Char :=
  [Nat.digitChar (byte.toNat / 16), Nat.digitChar (byte.toNat % 16)]

/-- The token of an entity is a letter and the hexadecimal digits of its bytes. -/
theorem toList_ftsEntityTok (entityId : String) :
    (ftsEntityTok entityId).toList = 'e' :: (utf8Bytes entityId).flatMap hexByte := by
  unfold ftsEntityTok
  rw [String.toList_ofList]
  rfl

/-- A byte has two digits. -/
theorem length_flatMap_hexByte (bytes : List UInt8) :
    (bytes.flatMap hexByte).length = 2 * bytes.length := by
  induction bytes with
  | nil => rfl
  | cons byte bytes ih =>
    have hbyte : (hexByte byte).length = 2 := rfl
    rw [List.flatMap_cons, List.length_append, ih, hbyte, List.length_cons]
    omega

/-- A byte is known by its digits, -/
theorem hexByte_inj {a b : UInt8} (h : hexByte a = hexByte b) : a = b := by
  have hdigit : ∀ m n : Fin 16, Nat.digitChar m = Nat.digitChar n → m = n := by decide
  have ha : a.toNat < 256 := a.toNat_lt
  have hb : b.toNat < 256 := b.toNat_lt
  obtain ⟨hhigh, hrest⟩ := List.cons.inj h
  obtain ⟨hlow, -⟩ := List.cons.inj hrest
  have hhigh := hdigit ⟨a.toNat / 16, by omega⟩ ⟨b.toNat / 16, by omega⟩ hhigh
  have hlow := hdigit ⟨a.toNat % 16, by omega⟩ ⟨b.toNat % 16, by omega⟩ hlow
  rw [Fin.mk.injEq] at hhigh hlow
  exact UInt8.toNat_inj.mp (by omega)

/-- and a list of bytes too. -/
theorem flatMap_hexByte_inj {x y : List UInt8} (h : x.flatMap hexByte = y.flatMap hexByte) :
    x = y := by
  have hlen := congrArg List.length h
  rw [length_flatMap_hexByte, length_flatMap_hexByte] at hlen
  induction x generalizing y with
  | nil => exact (List.eq_nil_of_length_eq_zero (by simpa using hlen.symm)).symm
  | cons a x ih =>
    cases y with
    | nil => exact absurd hlen (by simp)
    | cons b y =>
      rw [List.flatMap_cons, List.flatMap_cons] at h
      obtain ⟨hbyte, hrest⟩ := List.append_inj h rfl
      rw [hexByte_inj hbyte, ih hrest (by simpa using hlen)]

/-- The last byte of a text is not the first of a character of several bytes. -/
theorem getLast?_utf8Bytes {text : String} {byte : UInt8}
    (h : (utf8Bytes text).getLast? = some byte) : byte.toNat < 0xc0 := by
  -- The cases are the lengths of an encoded character.
  have hchar : ∀ c : Char, ∃ b, (String.utf8EncodeChar c).getLast? = some b ∧ b.toNat < 0xc0 := by
    intro c
    have hbyte : ∀ n, n < 0xc0 → (UInt8.ofNat n).toNat < 0xc0 := by
      intro n hn
      rw [UInt8.toNat_ofNat']
      omega
    unfold String.utf8EncodeChar
    dsimp only
    split
    · exact ⟨_, rfl, hbyte _ (by omega)⟩
    · split
      · exact ⟨_, rfl, hbyte _ (by omega)⟩
      · split
        · exact ⟨_, rfl, hbyte _ (by omega)⟩
        · exact ⟨_, rfl, hbyte _ (by omega)⟩
  unfold utf8Bytes at h
  -- The last byte is the one of the last character.
  rcases List.eq_nil_or_concat text.toList with hnil | ⟨start, c, hsplit⟩
  · rw [hnil] at h
    exact absurd h.symm (Option.some_ne_none _)
  · obtain ⟨b, hb, hlt⟩ := hchar c
    rw [hsplit, List.concat_eq_append, List.flatMap_append, List.flatMap_singleton,
      List.getLast?_append, hb] at h
    rw [← Option.some.inj h]
    exact hlt

/-- The stemmer finds no `ed` at the end of an entity's token: `0xed` is never the last byte. -/
theorem not_suffix_ftsEntityTok (entityId : String) :
    ¬ ['e', 'd'] <:+ (ftsEntityTok entityId).toList := by
  rw [toList_ftsEntityTok]
  rintro ⟨start, hstart⟩
  rcases List.eq_nil_or_concat (utf8Bytes entityId) with hnil | ⟨bytes, byte, hsplit⟩
  · rw [hnil] at hstart
    have hlen := congrArg List.length hstart
    simp at hlen
  · have hbyte : (utf8Bytes entityId).getLast? = some byte := by
      rw [hsplit, List.concat_eq_append, List.getLast?_concat]
    have hlast := getLast?_utf8Bytes hbyte
    rw [hsplit, List.concat_eq_append, List.flatMap_append, List.flatMap_singleton,
      ← List.cons_append] at hstart
    have hed : hexByte 0xed = hexByte byte := (List.append_inj' hstart rfl).2
    rw [← hexByte_inj hed] at hlast
    exact absurd hlast (by decide)

variable (F : Engine)

/-- An entity's token is in that of another, stemmed, just if it is the other's. -/
theorem entity_of_tokenize {a b : String}
    (h : F.tokenize (ftsEntityTok a).toList <:+: F.tokenize (ftsEntityTok b).toList) : a = b := by
  -- A token is indexed whole or without a last letter.
  have htok : ∀ x, F.tokenize (ftsEntityTok x).toList = [(ftsEntityTok x).toList] ∨
      ∃ stem, (ftsEntityTok x).toList = stem ++ ['e'] ∧
        F.tokenize (ftsEntityTok x).toList = [stem] := fun x =>
    F.tokenize_hex _ (ftsEntityTok_ne_nil x) (fun c hc => mem_ftsEntityTok hc)
      (not_suffix_ftsEntityTok x)
  have hodd : ∀ x, (ftsEntityTok x).toList.length % 2 = 1 := by
    intro x
    rw [toList_ftsEntityTok, List.length_cons, length_flatMap_hexByte]
    omega
  have hsame : ∀ x y : List Char, [x] <:+: [y] → x = y := by
    intro x y hpart
    exact List.mem_singleton.mp (hpart.subset List.mem_cons_self)
  have hlist : (ftsEntityTok a).toList = (ftsEntityTok b).toList := by
    -- Both are whole, or both are cut, or one of each.
    rcases htok a with ha | ⟨x, hax, ha⟩ <;> rcases htok b with hb | ⟨y, hby, hb⟩ <;>
      rw [ha, hb] at h
    · exact hsame _ _ h
    · -- Tokens have an odd length, so one is not the other without its last letter.
      have hlen := congrArg List.length hby
      rw [← hsame _ _ h, List.length_append, List.length_singleton] at hlen
      have := hodd a
      have := hodd b
      omega
    · have hlen := congrArg List.length hax
      rw [hsame _ _ h, List.length_append, List.length_singleton] at hlen
      have := hodd a
      have := hodd b
      omega
    · rw [hax, hby, hsame _ _ h]
  rw [toList_ftsEntityTok, toList_ftsEntityTok] at hlist
  exact utf8Bytes_injective (flatMap_hexByte_inj (List.cons.inj hlist).2)

/-! ## Documents under their entity's token -/

/-- Every document is under the token of its entity. -/
def TenantStore.Tokened (S : TenantStore) : Prop :=
  ∀ d ∈ S.ftsMemories.rows, d.entityTok = ftsEntityTok d.entityId

/-- A transaction that writes documents. -/
inductive IndexStep where
  | transaction (step : StoreStep)
  /-- `fts_index_batch` -/
  | index (batch : List (String × String × String))

/-- The store after a transaction. A batch that is refused leaves it as it was. -/
def TenantStore.indexStep (cosineSimilarity : List ℚ → List ℚ → ℚ) (S : TenantStore) :
    IndexStep → TenantStore
  | .transaction step => S.step cosineSimilarity step
  | .index batch => (S.ftsIndexBatch batch).toOption.getD S

section

variable {S : TenantStore}

/-- A document of the table before is under its token, and so is one that `ftsDoc` makes. -/
theorem tokened_insertOrReplace {t : Table FtsDoc.rowid}
    (h : ∀ d ∈ t.rows, d.entityTok = ftsEntityTok d.entityId) (memoryId entityId content : String) :
    ∀ d ∈ (t.insertOrReplace (ftsDoc memoryId entityId content)).rows,
      d.entityTok = ftsEntityTok d.entityId := by
  intro d hd
  rcases Table.mem_insertOrReplace.mp hd with ⟨hold, -⟩ | rfl
  · exact h d hold
  · rfl

/-- Deleting documents keeps their tokens. -/
theorem tokened_deleteWhere {t : Table FtsDoc.rowid}
    (h : ∀ d ∈ t.rows, d.entityTok = ftsEntityTok d.entityId) (p : FtsDoc → Bool) :
    ∀ d ∈ (t.deleteWhere p).rows, d.entityTok = ftsEntityTok d.entityId :=
  fun d hd => h d (Table.mem_deleteWhere.mp hd).1

/-- The documents that are indexed get the tokens of their entities. -/
theorem tokened_ftsIndexBatch {S' : TenantStore} (hS : S.Tokened)
    {batch : List (String × String × String)} (h : S.ftsIndexBatch batch = .ok S') :
    S'.Tokened := by
  -- Every document of the batch gets the token of its own entity.
  have hfold : ∀ t t' : Table FtsDoc.rowid, batch.foldlM ftsIndexDoc t = .ok t' →
      (∀ d ∈ t.rows, d.entityTok = ftsEntityTok d.entityId) →
        ∀ d ∈ t'.rows, d.entityTok = ftsEntityTok d.entityId := by
    clear h
    induction batch with
    | nil =>
      intro t t' ht htok
      rw [← Except.ok.inj ht]
      exact htok
    | cons document batch ih =>
      intro t t' ht htok
      rw [List.foldlM_cons] at ht
      obtain ⟨t₁, hfirst, hrest⟩ := exists_of_bind ht
      refine ih t₁ t' hrest ?_
      unfold ftsIndexDoc at hfirst
      split at hfirst
      · exact absurd hfirst (by simp)
      · rw [← Except.ok.inj hfirst]
        exact tokened_insertOrReplace htok _ _ _
  unfold TenantStore.ftsIndexBatch at h
  obtain ⟨t', ht, h⟩ := exists_of_bind h
  rw [← Except.ok.inj h]
  exact hfold _ _ ht hS

/-- A commit keeps the tokens. -/
theorem tokened_commitIngest {cosineSimilarity : List ℚ → List ℚ → ℚ} {order : HashOrder}
    {clock : IngestClock} {b : IngestBatches} {S' : TenantStore} {outcome : CommitOutcome}
    (hS : S.Tokened) (h : S.commitIngest cosineSimilarity order clock b = .ok (S', outcome)) :
    S'.Tokened := by
  intro d hd
  rw [commitIngest_ftsMemories h] at hd
  rcases Table.mem_of_mem_foldl_insertOrReplace (f := id) hd with hold | ⟨router, hrouter, rfl⟩
  · exact hS d hold
  · unfold TenantStore.routerDocs at hrouter
    obtain ⟨record, -, rfl⟩ := List.mem_map.mp hrouter
    rfl

/-- So does the rebuilding of a router, -/
theorem tokened_rebuildRouter (hS : S.Tokened) (session : String × String) :
    (rebuildRouterAfterDelete S session).Tokened := by
  unfold rebuildRouterAfterDelete
  dsimp only
  split
  · exact tokened_deleteWhere hS _
  · exact tokened_insertOrReplace hS _ _ _

/-- and a deletion. -/
theorem tokened_deleteObservation {order : HashOrder} {now : UInt64} {memoryId reason : String}
    (hS : S.Tokened) : (S.deleteObservation order now memoryId reason).1.Tokened := by
  have hrouters : ∀ (sessions : List (String × String)) (S : TenantStore), S.Tokened →
      (sessions.foldl rebuildRouterAfterDelete S).Tokened := by
    intro sessions
    induction sessions with
    | nil => exact fun _ h => h
    | cons session sessions ih => exact fun S h => ih _ (tokened_rebuildRouter h session)
  have hchunks : ∀ (chunkIds : List String) (S : TenantStore), S.Tokened →
      (chunkIds.foldl deleteChunk S).Tokened := by
    intro chunkIds
    induction chunkIds with
    | nil => exact fun _ h => h
    | cons chunkId chunkIds ih => exact fun S h => ih _ (tokened_deleteWhere h _)
  exact hchunks _ _ (hrouters _ _ (tokened_deleteWhere hS _))

/-- Documents stay under their tokens. -/
theorem tokened_indexStep {cosineSimilarity : List ℚ → List ℚ → ℚ} (hS : S.Tokened)
    (step : IndexStep) : (S.indexStep cosineSimilarity step).Tokened := by
  cases step with
  | index batch =>
    rw [TenantStore.indexStep]
    cases h : S.ftsIndexBatch batch with
    | error error => exact hS
    | ok S' => exact tokened_ftsIndexBatch hS h
  | transaction step =>
    rw [TenantStore.indexStep]
    cases step with
    | delete order now memoryId reason => exact tokened_deleteObservation hS
    | commit order clock b =>
      cases h : S.commitIngest cosineSimilarity order clock b with
      | error error =>
        rw [TenantStore.step_commit_of_error h]
        exact hS
      | ok result =>
        rw [TenantStore.step_commit_of_ok h]
        exact tokened_commitIngest hS h

/-- In a run from a new store every document is under its token. -/
theorem tokened_run (cosineSimilarity : List ℚ → List ℚ → ℚ) (steps : List IndexStep) :
    (steps.foldl (TenantStore.indexStep cosineSimilarity) .empty).Tokened := by
  induction steps using List.reverseRecOn with
  | nil => exact fun d hd => absurd hd List.not_mem_nil
  | append_singleton steps step ih =>
    rw [List.foldl_append, List.foldl_cons, List.foldl_nil]
    exact tokened_indexStep ih step

end

/-! ## Rows found -/

section

variable (U : UnicodeTables)

/-- The entities of the rows that a search finds. -/
def FtsSearch.foundEntities (S : TenantStore) : FtsSearch → List String
  | memories query limit entityId pointInTimeMs knownAsOfMs =>
    ((S.ftsSearchAt F U query limit entityId pointInTimeMs knownAsOfMs).getD []).map FtsDoc.entityId
  | router entityId query limit =>
    (S.searchSessionRouter F entityId query limit).map SessionRouterRow.entityId
  | pivot entityId entity => (S.pivotMatches F entityId entity).map SessionRouterRow.entityId

/-- Every term is a string of the expression and nothing else of the input is read, and a search for
an entity finds rows of that entity only. -/
structure FtsSearch.IsSafe (s : FtsSearch) : Prop where
  literal : s.Literal U
  ofEntity : ∀ cosineSimilarity (steps : List IndexStep), ∀ entityId ∈ s.entity,
    ∀ found ∈ s.foundEntities F U (steps.foldl (TenantStore.indexStep cosineSimilarity) .empty),
      found = entityId

variable {U} {S : TenantStore}

/-- A search of the memories for an entity finds documents of that entity, or its expression is an
error. -/
theorem entityId_ftsSearchAt (hS : S.Tokened) {query entityId : String} {limit : ℕ}
    {pointInTimeMs knownAsOfMs : Option UInt64} {docs : List FtsDoc}
    (h : S.ftsSearchAt F U query limit (some entityId) pointInTimeMs knownAsOfMs = some docs) :
    ∀ d ∈ docs, d.entityId = entityId := by
  intro d hd
  unfold TenantStore.ftsSearchAt at h
  by_cases hne : ftsTerms U query.toList = []
  · rw [if_pos hne] at h
    rw [← Option.some.inj h] at hd
    exact absurd hd List.not_mem_nil
  · rw [if_neg hne] at h
    obtain ⟨found, hfound, rfl⟩ := Option.map_eq_some_iff.mp h
    have hmatch := List.mem_of_mem_filter (List.mem_of_mem_take hd)
    unfold TenantStore.ftsMatches at hmatch
    rw [mem_orderBy, List.mem_filter] at hmatch
    obtain ⟨hrow, hholds⟩ := hmatch
    have hclear : ∀ term ∈ ftsTerms U query.toList, '\x00' ∉ term := by
      -- A `NUL` would have made the expression an error.
      intro term hterm hnul
      rw [ftsExpression_eq, tokens_of_nul (fun hq => notMem_ftsLead (by decide) (by decide)
        (List.mem_append_left _ hq)) (fun hq => notMem_ftsLead (by decide) (by decide)
          (List.mem_append_left _ hq)) hterm hnul] at hfound
      exact absurd hfound.symm (Option.some_ne_none _)
    have hreads := (literal_iff U (.memories query limit (some entityId) pointInTimeMs
      knownAsOfMs)).mpr ((notMem_ftsTerms_iff U).mp hclear) hne
    have hfound := Option.some.inj (hfound.symm.trans hreads)
    have hword := F.tokenize_infix "entity_tok" (ftsEntityTok entityId).toList "content".toList
      (ftsTerms U query.toList) d.columns hne (by rw [← hholds, hfound]; rfl)
    have htok : d.columns "entity_tok" = ftsEntityTok d.entityId := hS d hrow
    rw [htok] at hword
    exact (entity_of_tokenize F hword).symm

/-- A search for routers finds those of its entity. -/
theorem entityId_routerMatches {expression : List Char} {entityId : String} {limit : ℕ}
    {r : SessionRouterRow} (h : r ∈ S.routerMatches F expression entityId limit) :
    r.entityId = entityId := by
  unfold TenantStore.routerMatches at h
  have hmem := List.mem_of_mem_take h
  cases hfound : tokens expression with
  | none =>
    rw [hfound] at hmem
    exact absurd hmem List.not_mem_nil
  | some found =>
    rw [hfound] at hmem
    obtain ⟨d, hd, hr⟩ := List.mem_flatMap.mp hmem
    rw [mem_orderBy, List.mem_filter, Bool.and_eq_true, decide_eq_true_eq] at hd
    rw [List.mem_filter, Bool.and_eq_true, decide_eq_true_eq, decide_eq_true_eq] at hr
    rw [hr.2.2, hd.2.2]

/-- A search for an entity finds rows of that entity only. -/
theorem mem_foundEntities (hS : S.Tokened) {s : FtsSearch} {entityId : String}
    (hentity : s.entity = some entityId) {found : String} (h : found ∈ s.foundEntities F U S) :
    found = entityId := by
  -- The three searches compare the entity of what they find.
  cases s with
  | memories query limit entity pointInTimeMs knownAsOfMs =>
    have heq : entity = some entityId := hentity
    rw [heq, FtsSearch.foundEntities] at h
    obtain ⟨d, hd, rfl⟩ := List.mem_map.mp h
    cases hdocs : S.ftsSearchAt F U query limit (some entityId) pointInTimeMs knownAsOfMs with
    | none =>
      rw [hdocs] at hd
      exact absurd hd List.not_mem_nil
    | some docs =>
      rw [hdocs] at hd
      exact entityId_ftsSearchAt F hS hdocs d hd
  | router entity query limit =>
    have heq : entity = entityId := Option.some.inj hentity
    rw [heq, FtsSearch.foundEntities] at h
    obtain ⟨r, hr, rfl⟩ := List.mem_map.mp h
    unfold TenantStore.searchSessionRouter at hr
    split at hr
    · exact absurd hr List.not_mem_nil
    · split at hr
      · exact of_decide_eq_true (List.mem_filter.mp hr).2
      · exact entityId_routerMatches F hr
  | pivot entity name =>
    have heq : entity = entityId := Option.some.inj hentity
    rw [heq, FtsSearch.foundEntities] at h
    obtain ⟨r, hr, rfl⟩ := List.mem_map.mp h
    unfold TenantStore.pivotMatches at hr
    split at hr
    · exact absurd hr List.not_mem_nil
    · exact entityId_routerMatches F hr

/-- A search does what it is meant to just if no character of the input ends the expression or a
string of it. -/
theorem isSafe_iff (s : FtsSearch) : s.IsSafe F U ↔ s.Clear U := by
  rw [← literal_iff]
  refine ⟨fun h => h.literal, fun h => ⟨h, fun cosineSimilarity steps entityId hentity found => ?_⟩⟩
  exact mem_foundEntities F (tokened_run cosineSimilarity steps) hentity

end

/-! ## A quote in a name -/

/-- An engine over texts of one token. -/
def oneToken : Engine where
  holds
    | .word column :: .mark ':' :: .word word :: _, columns =>
      (columns (String.ofList column)).toList = word
    | _, _ => true
  rank _ _ _ := 0
  tokenize text := [text]
  tokenize_infix column word other texts columns _ h := by
    have hword : (columns (String.ofList column.toList)).toList = word := of_decide_eq_true h
    rw [String.ofList_toList] at hword
    rw [hword]
  tokenize_hex word _ _ _ := .inl rfl

/-- The tables of the ASCII characters. -/
def asciiTables : UnicodeTables where
  isAlphanumeric := Char.isAlphanum
  toLowercase := List.map Char.toLower
  isAlphanumeric_nul := rfl
  notMem_toLowercase word h := by
    rw [mem_map_toLower (by decide)]
    exact h

/-- A quote in the query ends the string of its term, and what follows it is a column filter. -/
theorem filter_from_query :
    tokens ((FtsSearch.router "alice" "a\"session_id:\"b" 10).expression asciiTables) =
        some [.string ['a'], .word "session_id".toList, .mark ':', .string ['b']] ∧
      ¬ ∀ F U (s : FtsSearch), s.IsSafe F U := by
  refine ⟨by decide +kernel, fun h => ?_⟩
  have hliteral := (h oneToken asciiTables (.router "alice" "a\"session_id:\"b" 10)).literal
  exact absurd (hliteral (by decide +kernel)) (by decide +kernel)

end Tellodb
