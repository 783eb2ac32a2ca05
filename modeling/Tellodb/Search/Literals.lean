import Tellodb.Search.Expression
import Tellodb.Expansion.Chunks
import Tellodb.Index.Docs
import Tellodb.Lifecycle.Retention
import Tellodb.Storage.Steps

/-!
# The terms of a search

The expressions that a search of `fts_memories` or `fts_session_router` is asked with, as
`storage/repo/fts.rs` and `storage/repo/sessions.rs` put them together, and the rows found. A term
is read back as one string where `fts_quote` puts the quotes, unless a `NUL` ends the text. The two
searches of the routers put them around the term as it is, which takes a term without quotes
(`literal_iff`). A search for an entity finds rows of that entity in any case. -/

namespace Tellodb

open Relational Fts5

/-! ## Expressions -/

/-- `fts_quote` -/
def ftsQuote (term : List Char) : List Char :=
  quoted term

/-- `is_low_signal_keyword` -/
def isLowSignalKeyword (token : List Char) : Bool :=
  String.ofList token ∈ ["what", "when", "where", "who", "why", "how", "would", "could", "should",
    "did", "does", "do", "is", "are", "was", "were", "be", "been", "being", "likely", "might",
    "will", "can", "have", "has", "had", "the", "this", "that", "these", "those", "their", "there",
    "them", "they", "his", "her", "him", "she", "you", "your", "our", "for", "from", "with", "than",
    "then", "kind", "kinds", "type", "types", "really", "still", "just", "some", "many", "more",
    "very", "also", "about", "around", "into", "over", "under", "after", "before", "today",
    "tomorrow", "yesterday", "thing", "things", "people", "person", "went", "going", "got", "make",
    "made", "take", "took", "doing", "done", "want", "wanted", "joined", "started", "looking",
    "working"]

/-- What the standard library says of characters beyond ASCII. -/
structure UnicodeTables where
  /-- `char::is_alphanumeric` -/
  isAlphanumeric : Char → Bool
  /-- `str::to_lowercase` -/
  toLowercase : List Char → List Char
  isAlphanumeric_nul : isAlphanumeric '\x00' = false
  notMem_toLowercase : ∀ word, '\x00' ∉ word → '\x00' ∉ toLowercase word

section

variable (U : UnicodeTables)

/-- The words of a query that are looked for: of its letters and digits, of two bytes at least, but
for those that say little. -/
def cleanedTerms (query : List Char) : List (List Char) :=
  (((splitWhitespace (query.map fun c => if U.isAlphanumeric c || c = ' ' then c else ' ')).filter
    fun t => 1 < utf8Len t).map U.toLowercase).filter fun t => !isLowSignalKeyword t

/-- The terms of `fts_search_at`: without a cleaned word, the words as they are. -/
def ftsTerms (query : List Char) : List (List Char) :=
  if cleanedTerms U query = [] then (splitWhitespace query).filter fun t => 1 < utf8Len t
  else cleanedTerms U query

/-- The expression of `fts_search_at`. -/
def ftsExpression (query : List Char) (entityId : Option String) : List Char :=
  let terms := "{content}:(".toList ++ joined ((ftsTerms U query).map ftsQuote) ++ [')']
  entityId.elim terms fun eid =>
    "entity_tok:".toList ++ (ftsEntityTok eid).toList ++ " AND ".toList ++ terms

end

/-- The terms of `search_session_router`. -/
def routerTerms (query : List Char) : List (List Char) :=
  (splitWhitespace (query.map Char.toLower)).filter fun t => 2 < utf8Len t

/-- The expression of `search_session_router`. -/
def routerExpression (query : List Char) : List Char :=
  joined ((routerTerms query).map fun t => '"' :: t ++ ['"'])

/-- The expression of `entity_pivot_sessions` for one entity. -/
def pivotExpression (entity : List Char) : List Char :=
  '"' :: entity.map Char.toLower ++ ['"']

/-! ## Rows found -/

/-- The indexed columns of a document. -/
def FtsDoc.columns (d : FtsDoc) (column : String) : String :=
  if column = "entity_tok" then d.entityTok else if column = "content" then d.content else ""

/-- The indexed columns of a router's document. -/
def RouterDoc.columns (d : RouterDoc) (column : String) : String :=
  if column = "router_text" then d.routerText else ""

section

variable (F : Engine) (U : UnicodeTables) (S : TenantStore)

/-- The documents that an expression matches, the best first. -/
def TenantStore.ftsMatches (found : List Token) : List FtsDoc :=
  orderBy (fun d => F.rank (S.ftsMemories.rows.map FtsDoc.columns) found d.columns)
    (S.ftsMemories.rows.filter fun d => F.holds found d.columns)

/-- `fts_search_at`: the documents whose identifiers it gives, if the expression has no error. -/
def TenantStore.ftsSearchAt (query : String) (limit : ℕ) (entityId : Option String)
    (pointInTimeMs knownAsOfMs : Option UInt64) : Option (List FtsDoc) :=
  let inTime (bound : Option UInt64) (time : MemoryRow → Int64) (d : FtsDoc) : Bool :=
    bound.all fun b => S.memories.rows.any fun m => m.memoryId = d.memoryId && time m ≤ b.toInt64
  if ftsTerms U query.toList = [] then some []
  else (tokens (ftsExpression U query.toList entityId)).map fun found =>
    ((S.ftsMatches F found).filter fun d => inTime pointInTimeMs MemoryRow.createdAtMs d &&
      inTime knownAsOfMs MemoryRow.recordedAtMs d).take limit

/-- The routers of an entity that an expression matches, the best first. An expression with an error
has none. -/
def TenantStore.routerMatches (expression : List Char) (entityId : String) (limit : ℕ) :
    List SessionRouterRow :=
  ((tokens expression).elim [] fun found =>
    (orderBy (fun d => F.rank (S.ftsSessionRouter.rows.map RouterDoc.columns) found d.columns)
      (S.ftsSessionRouter.rows.filter fun d =>
        F.holds found d.columns && d.entityId = entityId)).flatMap fun d =>
          S.sessionRouter.rows.filter fun r =>
            r.sessionId = d.sessionId && r.entityId = d.entityId).take limit

/-- The routers that `search_session_router` scores. -/
def TenantStore.searchSessionRouter (entityId query : String) (limit : ℕ) :
    List SessionRouterRow :=
  if limit = 0 then []
  else if routerTerms query.toList = [] then
    S.sessionRouter.rows.filter fun r => r.entityId = entityId
  else S.routerMatches F (routerExpression query.toList) entityId (3 * limit)

/-- The routers that `entity_pivot_sessions` finds by expression for one entity. -/
def TenantStore.pivotMatches (entityId entity : String) : List SessionRouterRow :=
  if utf8Len entity.toList ≤ 2 then []
  else S.routerMatches F (pivotExpression entity.toList) entityId 8

end

/-! ## Searches -/

/-- A search that is asked with an expression. -/
inductive FtsSearch where
  /-- `fts_search_at` -/
  | memories (query : String) (limit : ℕ) (entityId : Option String)
      (pointInTimeMs knownAsOfMs : Option UInt64)
  /-- `search_session_router` -/
  | router (entityId query : String) (limit : ℕ)
  /-- `entity_pivot_sessions`, for one entity of a subject -/
  | pivot (entityId entity : String)

namespace FtsSearch

section

variable (U : UnicodeTables)

/-- The terms that the expression is to have as strings. Without one there is no expression. -/
def terms : FtsSearch → List (List Char)
  | memories query _ _ _ _ => ftsTerms U query.toList
  | router _ query limit => if limit = 0 then [] else routerTerms query.toList
  | pivot _ entity => if utf8Len entity.toList ≤ 2 then [] else [entity.toList.map Char.toLower]

/-- The expression that a search matches against. -/
def expression : FtsSearch → List Char
  | memories query _ entityId _ _ => ftsExpression U query.toList entityId
  | router _ query _ => routerExpression query.toList
  | pivot _ entity => pivotExpression entity.toList

/-- The entity whose rows are searched. -/
def entity : FtsSearch → Option String
  | memories _ _ entityId _ _ => entityId
  | router entityId _ _ => some entityId
  | pivot entityId _ => some entityId

/-- The tokens of the expression if every term is one string and nothing else of the input is
read. -/
def reading (s : FtsSearch) : List Token :=
  match s with
  | memories _ _ entityId _ _ =>
    (entityId.elim [] fun eid => scopeTokens "entity_tok".toList (ftsEntityTok eid).toList) ++
      withinTokens "content".toList (s.terms U)
  | router _ _ _ => joinTokens (s.terms U)
  | pivot _ _ => joinTokens (s.terms U)

/-- The terms come back from the expression as they went in. -/
def Literal (s : FtsSearch) : Prop :=
  s.terms U ≠ [] → tokens (s.expression U) = some (s.reading U)

/-- No character of the input ends the expression, or a string of it: a search of the memories has a
cleaned term, or words without `NUL`, and the words of a search of the routers have no quote
either. -/
def Clear : FtsSearch → Prop
  | memories query _ _ _ _ => cleanedTerms U query.toList = [] →
      ∀ word ∈ splitWhitespace query.toList, 1 < utf8Len word → '\x00' ∉ word
  | router _ query limit => limit ≠ 0 →
      ∀ word ∈ splitWhitespace query.toList, 2 < utf8Len word → '\x00' ∉ word ∧ '"' ∉ word
  | pivot _ entity => 2 < utf8Len entity.toList → '\x00' ∉ entity.toList ∧ '"' ∉ entity.toList

end

end FtsSearch

/-! ## Letters in lower case -/

/-- Lowering ASCII letters keeps the length. -/
theorem utf8Len_map_toLower (text : List Char) :
    utf8Len (text.map Char.toLower) = utf8Len text := by
  unfold utf8Len
  rw [List.map_map]
  exact congrArg List.sum (List.map_congr_left fun c _ => toLower_congr Char.utf8Size (by decide) c)

/-- A character that is no letter is in a text with its letters in lower case if it was before. -/
theorem mem_map_toLower {text : List Char} {d : Char}
    (hd : ∀ n : Fin 128, decide ((Char.ofNat n).toLower = d) = decide (Char.ofNat n = d)) :
    d ∈ text.map Char.toLower ↔ d ∈ text := by
  have hsame : ∀ c : Char, c.toLower = d ↔ c = d := fun c =>
    decide_eq_decide.mp (toLower_congr (fun c => decide (c = d)) hd c)
  rw [List.mem_map]
  constructor
  · rintro ⟨c, hc, heq⟩
    rw [← (hsame c).mp heq]
    exact hc
  · exact fun h => ⟨d, h, (hsame d).mpr rfl⟩

/-! ## Literal terms -/

section

variable (U : UnicodeTables)

/-- The terms of a router search are the lowered words of more than two bytes. -/
theorem mem_routerTerms {query term : List Char} :
    term ∈ routerTerms query ↔
      ∃ word ∈ splitWhitespace query, 2 < utf8Len word ∧ word.map Char.toLower = term := by
  unfold routerTerms
  rw [splitWhitespace_map_toLower, List.mem_filter, List.mem_map]
  constructor
  · rintro ⟨⟨word, hword, rfl⟩, hlen⟩
    rw [utf8Len_map_toLower] at hlen
    exact ⟨word, hword, of_decide_eq_true hlen, rfl⟩
  · rintro ⟨word, hword, hlen, rfl⟩
    refine ⟨⟨word, hword, rfl⟩, decide_eq_true ?_⟩
    rw [utf8Len_map_toLower]
    exact hlen

/-- Neither `NUL` nor a quote is a letter. -/
theorem clear_map_toLower (text : List Char) :
    ('\x00' ∉ text.map Char.toLower ∧ '"' ∉ text.map Char.toLower) ↔
      ('\x00' ∉ text ∧ '"' ∉ text) := by
  rw [mem_map_toLower (by decide), mem_map_toLower (by decide)]

/-- A cleaned word has letters and digits only, so no `NUL`. -/
theorem notMem_cleanedTerms {query term : List Char} (h : term ∈ cleanedTerms U query) :
    '\x00' ∉ term := by
  unfold cleanedTerms at h
  obtain ⟨word, hword, rfl⟩ := List.mem_map.mp (List.mem_of_mem_filter h)
  refine U.notMem_toLowercase word fun hnul => ?_
  obtain ⟨-, -, hchars⟩ := Collections.mem_words (List.mem_of_mem_filter hword)
  obtain ⟨c, -, hc⟩ := List.mem_map.mp (hchars hnul)
  by_cases halpha : (U.isAlphanumeric c || c = ' ') = true
  · rw [if_pos halpha] at hc
    rw [hc, U.isAlphanumeric_nul] at halpha
    exact absurd halpha (by decide)
  · rw [if_neg halpha] at hc
    exact absurd hc (by decide)

/-- Which searches of the memories have terms without `NUL`. -/
theorem notMem_ftsTerms_iff {query : List Char} :
    (∀ term ∈ ftsTerms U query, '\x00' ∉ term) ↔ (cleanedTerms U query = [] →
      ∀ word ∈ splitWhitespace query, 1 < utf8Len word → '\x00' ∉ word) := by
  unfold ftsTerms
  by_cases hcleaned : cleanedTerms U query = []
  · rw [if_pos hcleaned]
    simp only [List.mem_filter, decide_eq_true_eq, and_imp, hcleaned, true_imp_iff]
  · rw [if_neg hcleaned]
    exact iff_of_true (fun term hterm => notMem_cleanedTerms U hterm) fun h => absurd h hcleaned

/-- The characters of an entity's token are hexadecimal digits. -/
theorem mem_ftsEntityTok {entityId : String} {c : Char} (h : c ∈ (ftsEntityTok entityId).toList) :
    c ∈ hexDigits := by
  have hdigit : ∀ n : Fin 16, Nat.digitChar n ∈ hexDigits := by decide
  unfold ftsEntityTok at h
  rw [String.toList_ofList, List.mem_cons, List.mem_flatMap] at h
  rcases h with rfl | ⟨byte, -, h⟩
  · decide
  · have hbyte : byte.toNat < 256 := byte.toNat_lt
    rcases List.mem_pair.mp h with rfl | rfl
    · exact hdigit ⟨byte.toNat / 16, by omega⟩
    · exact hdigit ⟨byte.toNat % 16, by omega⟩

/-- The token of an entity is not empty. -/
theorem ftsEntityTok_ne_nil (entityId : String) : (ftsEntityTok entityId).toList ≠ [] := by
  unfold ftsEntityTok
  rw [String.toList_ofList]
  exact List.cons_ne_nil _ _

/-- What a search of the memories writes before its terms. -/
def ftsLead (entityId : Option String) : List Char :=
  (entityId.elim [] fun eid =>
    "entity_tok:".toList ++ (ftsEntityTok eid).toList ++ " AND ".toList) ++ "{content}:(".toList

/-- The expression is the lead and the quoted terms. -/
theorem ftsExpression_eq (query : List Char) (entityId : Option String) :
    ftsExpression U query entityId =
      ftsLead entityId ++ joined ((ftsTerms U query).map quoted) ++ [')'] := by
  have hquote : ftsQuote = quoted := rfl
  unfold ftsExpression ftsLead
  rw [hquote]
  cases entityId with
  | none => rfl
  | some eid => simp only [Option.elim_some, List.append_assoc]

/-- What is written around the terms has no quote and no `NUL`. -/
theorem notMem_ftsLead {entityId : Option String} {c : Char} (hc : c ∉ hexDigits)
    (hlead : c ∉ "entity_tok:".toList ++ " AND ".toList ++ "{content}:(".toList ++ [')']) :
    c ∉ ftsLead entityId ++ [')'] := by
  simp only [List.mem_append, not_or] at hlead
  obtain ⟨⟨⟨hcolumn, hand⟩, hcontent⟩, hclose⟩ := hlead
  unfold ftsLead
  simp only [List.mem_append, not_or]
  refine ⟨⟨?_, hcontent⟩, hclose⟩
  cases entityId with
  | none => exact List.not_mem_nil
  | some eid =>
    simp only [Option.elim_some, List.mem_append, not_or]
    exact ⟨⟨hcolumn, fun h => hc (mem_ftsEntityTok h)⟩, hand⟩

/-- The expression of a search of the memories is read as it is meant, up to its end. -/
theorem read_ftsExpression (query : List Char) (entityId : Option String)
    (hne : ftsTerms U query ≠ []) :
    read .between (ftsLead entityId ++ joined ((ftsTerms U query).map quoted) ++ [')']) =
      some ((entityId.elim [] fun eid =>
        scopeTokens "entity_tok".toList (ftsEntityTok eid).toList) ++
          withinTokens "content".toList (ftsTerms U query)) := by
  -- The part for the terms is the same with an entity and without.
  have hwithin : read .between ("{content}:(".toList ++
      (joined ((ftsTerms U query).map quoted) ++ [')'])) =
        some (withinTokens "content".toList (ftsTerms U query)) :=
    @read_within "content".toList (ftsTerms U query) (by decide) (by decide) hne
  unfold ftsLead
  cases entityId with
  | none =>
    rw [Option.elim_none, Option.elim_none, List.nil_append, List.nil_append, List.append_assoc]
    exact hwithin
  | some eid =>
    -- The entity comes first, as the filter of another column.
    have hscope : read .between ("entity_tok".toList ++ ':' :: ((ftsEntityTok eid).toList ++
        ' ' :: 'A' :: 'N' :: 'D' :: ' ' :: ("{content}:(".toList ++
          (joined ((ftsTerms U query).map quoted) ++ [')'])))) =
        (read .between ("{content}:(".toList ++
          (joined ((ftsTerms U query).map quoted) ++ [')']))).map
            (scopeTokens "entity_tok".toList (ftsEntityTok eid).toList ++ ·) :=
      read_scope (by decide) (by decide)
        (fun c hc => isBareword_of_mem_hexDigits (mem_ftsEntityTok hc)) (ftsEntityTok_ne_nil eid)
    rw [hwithin] at hscope
    rw [Option.elim_some, Option.elim_some]
    refine Eq.trans ?_ hscope
    simp only [List.append_assoc]
    rfl

/-- Terms between quotes as they are come back if they have neither a `NUL` nor a quote. -/
theorem literal_enclosed_iff (terms : List (List Char)) :
    (terms ≠ [] → tokens (joined (terms.map enclosed)) = some (joinTokens terms)) ↔
      ∀ term ∈ terms, '\x00' ∉ term ∧ '"' ∉ term := by
  by_cases hne : terms = []
  · rw [hne]
    exact iff_of_true (fun h => absurd rfl h) fun term h => absurd h List.not_mem_nil
  · rw [← tokens_enclosed_iff hne]
    exact ⟨fun h => h hne, fun h _ => h⟩

/-- The terms of a search of the routers have neither if the words of the query do not. -/
theorem clear_routerTerms_iff (query : List Char) :
    (∀ term ∈ routerTerms query, '\x00' ∉ term ∧ '"' ∉ term) ↔
      ∀ word ∈ splitWhitespace query, 2 < utf8Len word → '\x00' ∉ word ∧ '"' ∉ word := by
  constructor
  · intro h word hword hlen
    exact (clear_map_toLower word).mp (h _ (mem_routerTerms.mpr ⟨word, hword, hlen, rfl⟩))
  · intro h term hterm
    obtain ⟨word, hword, hlen, rfl⟩ := mem_routerTerms.mp hterm
    exact (clear_map_toLower word).mpr (h word hword hlen)

/-- The terms of a search come back as they went in just if no character of the input ends a string
or the expression. -/
theorem literal_iff (s : FtsSearch) : s.Literal U ↔ s.Clear U := by
  unfold FtsSearch.Literal
  cases s with
  | memories query limit entityId pointInTimeMs knownAsOfMs =>
    refine Iff.trans ?_ (notMem_ftsTerms_iff U)
    -- Without terms nothing is asked.
    by_cases hne : ftsTerms U query.toList = []
    · refine iff_of_true (fun h => absurd hne h) fun term hterm => ?_
      rw [hne] at hterm
      exact absurd hterm List.not_mem_nil
    · -- The tokens around the terms are those of a column filter in braces.
      have hread := read_ftsExpression U query.toList entityId hne
      have hsplit : ∀ scope : List Token, scope ++ withinTokens "content".toList
          (ftsTerms U query.toList) = scope ++ [.mark '\x7b', .word "content".toList, .mark '\x7d',
            .mark ':', .mark '('] ++ joinTokens (ftsTerms U query.toList) ++ [.mark ')'] := by
        intro scope
        unfold withinTokens
        simp only [List.append_assoc]
      rw [hsplit] at hread
      have hiff := tokens_quoted_iff (notMem_ftsLead (by decide) (by decide))
        (notMem_ftsLead (by decide) (by decide)) hread
      rw [← hsplit, ← ftsExpression_eq] at hiff
      exact ⟨fun h => hiff.mp (h hne), fun h _ => hiff.mpr h⟩
  | router entityId query limit =>
    -- Without a limit nothing is asked.
    by_cases hlimit : limit = 0
    · have hterms : (FtsSearch.router entityId query limit).terms U = [] := if_pos hlimit
      exact iff_of_true (fun h => absurd hterms h) fun h => absurd hlimit h
    · have hterms : (FtsSearch.router entityId query limit).terms U = routerTerms query.toList :=
        if_neg hlimit
      have hliteral := (literal_enclosed_iff (routerTerms query.toList)).trans
        (clear_routerTerms_iff query.toList)
      unfold FtsSearch.reading
      rw [hterms]
      exact hliteral.trans ⟨fun h _ => h, fun h => h hlimit⟩
  | pivot entityId entity =>
    -- A short name is not asked for.
    by_cases hlen : utf8Len entity.toList ≤ 2
    · have hterms : (FtsSearch.pivot entityId entity).terms U = [] := if_pos hlen
      exact iff_of_true (fun h => absurd hterms h) fun h => absurd h (not_lt.mpr hlen)
    · have hterms : (FtsSearch.pivot entityId entity).terms U = [entity.toList.map Char.toLower] :=
        if_neg hlen
      have hliteral := literal_enclosed_iff [entity.toList.map Char.toLower]
      rw [List.forall_mem_singleton, clear_map_toLower, List.map_singleton] at hliteral
      unfold FtsSearch.reading
      rw [hterms]
      have hjoined : joined [enclosed (entity.toList.map Char.toLower)] =
          pivotExpression entity.toList := List.intercalate_singleton
      rw [hjoined] at hliteral
      exact hliteral.trans ⟨fun h _ => h, fun h => h (not_le.mp hlen)⟩

end

end Tellodb
