import Tellodb.Core.MemoryId
import Mathlib.Data.List.Induction

/-!
# What an identifier's text stands for

`parse_rendered` shows that the text of a structured identifier stands for that identifier, with any
text in its parts. `derivesFaithfully_iff` says for every text, structured or not, when the
text of a derived identifier stands for the parent and the tag: a text of two parts becomes one of
three, and a colon at the end of the parent's last part joins the separator that follows it.

The splitting is a fold over the characters (`splitParts`), so that what a text is split into after
more has been appended follows from the parts it had (`splitParts_separator`). -/

namespace Tellodb

/-! ## Components -/

/-- A character that starts no escape decodes to itself. -/
theorem decodeCharacters_cons {character : Char} (h : character ≠ '%') (rest : List Char) :
    decodeCharacters (character :: rest) = (decodeCharacters rest).map (character :: ·) := by
  rw [decodeCharacters]
  · rw [if_neg h]
    cases decodeCharacters rest <;> rfl
  · exact fun _ _ _ hpercent => absurd hpercent h

/-- An escape decodes to its character. -/
theorem decodeCharacters_escape (high low : Char) (rest : List Char) :
    decodeCharacters ('%' :: high :: low :: rest) =
      (escapedCharacter high low).bind fun character =>
        (decodeCharacters rest).map (character :: ·) := by
  rw [decodeCharacters]
  cases escapedCharacter high low with
  | error e => rfl
  | ok character => cases decodeCharacters rest <;> rfl

/-- A text that starts with one that decodes goes on decoding after it. -/
theorem decodeCharacters_append {l m decoded : List Char} (h : decodeCharacters l = .ok decoded) :
    decodeCharacters (l ++ m) = (decodeCharacters m).map (decoded ++ ·) := by
  -- The cases are those of the decoder: the end, an escape, a percent sign without its digits, and
  -- any other character.
  induction l using decodeCharacters.induct generalizing decoded with
  | case1 =>
    obtain rfl : [] = decoded := Except.ok.inj h
    rw [List.nil_append]
    generalize decodeCharacters m = rest
    cases rest <;> rfl
  | case2 high low rest ih =>
    rw [decodeCharacters_escape] at h
    rw [List.cons_append, List.cons_append, List.cons_append, decodeCharacters_escape]
    -- An escape is decoded on its own, and then the rest.
    cases hescaped : escapedCharacter high low with
    | error e => simp [hescaped, Except.bind] at h
    | ok character =>
      cases hrest : decodeCharacters rest with
      | error e => simp [hescaped, hrest, Except.bind, Except.map] at h
      | ok tail =>
        simp only [hescaped, hrest, Except.bind, Except.map, Except.ok.injEq] at h
        rw [ih hrest, ← h]
        cases decodeCharacters m <;> rfl
  | case3 rest hrest =>
    rw [decodeCharacters] at h
    · simp at h
    · exact hrest
  | case4 character rest _ hpercent ih =>
    rw [decodeCharacters_cons hpercent] at h
    rw [List.cons_append, decodeCharacters_cons hpercent]
    cases hrest : decodeCharacters rest with
    | error e => simp [hrest, Except.map] at h
    | ok tail =>
      simp only [hrest, Except.map, Except.ok.injEq] at h
      rw [ih hrest, ← h]
      cases decodeCharacters m <;> rfl

/-- A colon is part of no escape, so what is before it decodes by itself. -/
theorem exists_decodeCharacters_of_colon {l m decoded : List Char}
    (h : decodeCharacters (l ++ ':' :: m) = .ok decoded) : ∃ x, decodeCharacters l = .ok x := by
  -- The cases are those of the decoder.
  induction l using decodeCharacters.induct generalizing decoded with
  | case1 => exact ⟨[], rfl⟩
  | case2 high low rest ih =>
    rw [List.cons_append, List.cons_append, List.cons_append, decodeCharacters_escape] at h
    rw [decodeCharacters_escape]
    cases hescaped : escapedCharacter high low with
    | error e => simp [hescaped, Except.bind] at h
    | ok character =>
      cases hrest : decodeCharacters (rest ++ ':' :: m) with
      | error e => simp [hescaped, hrest, Except.bind, Except.map] at h
      | ok tail =>
        obtain ⟨x, hx⟩ := ih hrest
        exact ⟨character :: x, by simp [hx, Except.bind, Except.map]⟩
  | case3 rest hrest =>
    -- An escape that the colon cuts off.
    have hnone : ∀ high low, hexDigit high = none ∨ hexDigit low = none →
        escapedCharacter high low = .error .invalidEscape := by
      intro high low hnone
      unfold escapedCharacter
      rcases hnone with hnone | hnone
      · rw [hnone]
      · rw [hnone]
        cases hexDigit high <;> rfl
    have hcolon : hexDigit ':' = none := by decide
    rcases rest with _ | ⟨high, _ | ⟨low, rest⟩⟩
    · cases m with
      | nil => simp [decodeCharacters] at h
      | cons low m =>
        rw [List.cons_append, List.nil_append, decodeCharacters_escape,
          hnone _ _ (.inl hcolon)] at h
        simp [Except.bind] at h
    · rw [List.cons_append, List.cons_append, List.nil_append, decodeCharacters_escape,
        hnone _ _ (.inr hcolon)] at h
      simp [Except.bind] at h
    · exact (hrest high low rest rfl rfl).elim
  | case4 character rest _ hpercent ih =>
    rw [List.cons_append, decodeCharacters_cons hpercent] at h
    rw [decodeCharacters_cons hpercent]
    cases hrest : decodeCharacters (rest ++ ':' :: m) with
    | error e => simp [hrest, Except.map] at h
    | ok tail =>
      obtain ⟨x, hx⟩ := ih hrest
      exact ⟨character :: x, by simp [hx, Except.map]⟩

/-- Decoding undoes escaping. -/
theorem decodeComponent_escapeComponent (component : String) :
    decodeComponent (escapeComponent component).toList = .ok component := by
  have hlist : ∀ text : List Char, decodeCharacters (text.flatMap fun character =>
      if character = '%' then ['%', '2', '5']
      else if character = ':' then ['%', '3', 'A']
      else [character]) = .ok text := by
    intro text
    induction text with
    | nil => rfl
    | cons character text ih =>
      rw [List.flatMap_cons]
      by_cases hpercent : character = '%'
      · rw [if_pos hpercent, hpercent, List.cons_append, List.cons_append, List.cons_append,
          List.nil_append, decodeCharacters_escape, ih]
        rfl
      by_cases hcolon : character = ':'
      · rw [if_neg hpercent, if_pos hcolon, hcolon, List.cons_append, List.cons_append,
          List.cons_append, List.nil_append, decodeCharacters_escape, ih]
        rfl
      · rw [if_neg hpercent, if_neg hcolon, List.singleton_append,
          decodeCharacters_cons hpercent, ih]
        rfl
  unfold decodeComponent escapeComponent
  rw [String.toList_ofList, hlist]
  simp [Except.map]

/-- An escaped component has no colon. -/
theorem colon_not_mem_escapeComponent (component : String) :
    ':' ∉ (escapeComponent component).toList := by
  unfold escapeComponent
  rw [String.toList_ofList, List.mem_flatMap]
  rintro ⟨character, -, h⟩
  split at h
  · exact absurd h (by decide)
  · split at h
    · exact absurd h (by decide)
    · rename_i hcolon
      exact hcolon (List.mem_singleton.mp h).symm

/-! ## Numbers and tags -/

/-- The digits of a number are read as it, if it is in range. -/
theorem parseU32_digits (n : ℕ) :
    parseU32 (toString n).toList = if n < 2 ^ 32 then some (UInt32.ofNat n) else none := by
  have hlist : (toString n).toList = Nat.toDigits 10 n := Nat.toList_repr
  rw [hlist]
  have hdigits : ∀ c ∈ Nat.toDigits 10 n, c.isDigit = true := fun c hc =>
    Nat.isDigit_of_mem_toDigits (by omega) (by omega) hc
  have hhead : (Nat.toDigits 10 n).head? ≠ some '+' := fun h =>
    absurd (hdigits '+' (List.mem_of_head? h)) (by decide)
  have hvalue : Nat.ofDigitChars 10 (Nat.toDigits 10 n) 0 = n :=
    Nat.ofDigitChars_toDigits (by omega) (by omega)
  have hempty : (Nat.toDigits 10 n).isEmpty = false := by
    simp [Nat.toDigits_ne_nil]
  have hall : (Nat.toDigits 10 n).all Char.isDigit = true := List.all_eq_true.mpr hdigits
  unfold parseU32
  simp only [if_neg hhead, hempty, hall, hvalue, Bool.not_true, Bool.or_self]
  rw [if_neg Bool.false_ne_true]

/-- A number is read back from its digits. -/
theorem parseU32_toString (value : UInt32) :
    parseU32 (toString value.toNat).toList = some value := by
  rw [parseU32_digits, if_pos value.toNat_lt, UInt32.ofNat_toNat]

/-- A text with a character that is no digit is no number, unless this is the sign. -/
theorem parseU32_of_mem {text : List Char} {c : Char} (h : c ∈ text) (hdigit : c.isDigit = false)
    (hplus : c ≠ '+') : parseU32 text = none := by
  unfold parseU32
  have hdigits : c ∈ if text.head? = some '+' then text.tail else text := by
    split
    · cases text with
      | nil => exact absurd h List.not_mem_nil
      | cons d rest =>
        rename_i hhead
        rw [List.head?_cons, Option.some.injEq] at hhead
        exact (List.mem_cons.mp h).resolve_left (by rw [hhead]; exact hplus)
    · exact h
  have hall : (if text.head? = some '+' then text.tail else text).all Char.isDigit = false :=
    List.all_eq_false.mpr ⟨c, hdigits, by rw [hdigit]; exact Bool.false_ne_true⟩
  simp [hall]

/-- A tag that is read back from its text. -/
def Tag.Canonical (tag : Tag) : Prop :=
  Tag.fromComponent tag.component = tag

instance (tag : Tag) : Decidable tag.Canonical :=
  inferInstanceAs (Decidable (_ = _))

/-- A text stands for a chunk, or for a tag with that text. -/
theorem Tag.component_fromComponent (component : String) :
    (∃ value, Tag.fromComponent component = .chunk value) ∨
      (Tag.fromComponent component).component = component := by
  unfold Tag.fromComponent
  by_cases hquery : component = "sq"
  · exact .inr (by rw [if_pos hquery, hquery]; rfl)
  simp only [if_neg hquery]
  cases (if component.toList.head? = some 'c' then parseU32 component.toList.tail else none) with
  | some value => exact .inl ⟨value, rfl⟩
  | none =>
    refine .inr ?_
    dsimp only
    split
    · rfl
    · split <;> rfl

/-- What a text stands for is canonical. -/
theorem Tag.canonical_fromComponent (component : String) :
    (Tag.fromComponent component).Canonical := by
  unfold Tag.Canonical
  rcases Tag.component_fromComponent component with ⟨value, hvalue⟩ | hsame
  · rw [hvalue]
    have htext : (Tag.component (.chunk value)).toList = 'c' :: (toString value.toNat).toList := by
      simp [Tag.component]
    have hne : Tag.component (.chunk value) ≠ "sq" := by
      intro h
      rw [h] at htext
      exact absurd htext (by simp)
    unfold Tag.fromComponent
    simp only [htext, List.head?_cons, if_true, List.tail_cons, parseU32_toString, if_neg hne]
  · rw [hsame]

/-- A text that starts with a colon names itself. -/
theorem Tag.fromComponent_colon {component : String} {rest : List Char}
    (h : component.toList = ':' :: rest) : Tag.fromComponent component = .named component := by
  have hne : ∀ text : String, text.toList.head? ≠ some ':' → component ≠ text := by
    rintro text hhead rfl
    rw [h] at hhead
    exact hhead rfl
  have hstart : ∀ (start : String) (c : Char), start.toList.head? = some c → c ≠ ':' →
      start.toList.isPrefixOf component.toList = false := by
    intro start c hstart hc
    rw [h]
    cases hlist : start.toList with
    | nil => simp [hlist] at hstart
    | cons d rest =>
      rw [hlist, List.head?_cons, Option.some.injEq] at hstart
      simp [List.isPrefixOf, hstart, hc]
  unfold Tag.fromComponent
  rw [if_neg (hne "sq" (by decide))]
  simp only [h, List.head?_cons, Option.some.injEq]
  rw [if_neg (by decide)]
  rw [← h, hstart "card" 'c' rfl (by decide), hstart "rel" 'r' rfl (by decide),
    hstart "fact" 'f' rfl (by decide)]
  simp [hne "gist" (by decide), hne "kw" (by decide), hne "event" (by decide)]

/-! ## Parts -/

/-- After a separator the last part is closed, without the colon at its end if there is one: that
colon joins the separator. -/
theorem splitParts_separator (text : List Char) :
    splitParts (text ++ [':', ':']) =
      if (splitParts text).2.getLast? = some ':' then
        ((splitParts text).1 ++ [(splitParts text).2.dropLast], [':'])
      else ((splitParts text).1 ++ [(splitParts text).2], []) := by
  unfold splitParts
  rw [List.foldl_append]
  generalize text.foldl splitStep ([], []) = s
  simp only [List.foldl_cons, List.foldl_nil]
  by_cases hlast : s.2.getLast? = some ':'
  · simp [splitStep, hlast]
  · simp [splitStep, hlast]

/-- A text without colons extends the last part. -/
theorem splitParts_append {rest : List Char} (h : ':' ∉ rest) (text : List Char) :
    splitParts (text ++ rest) = ((splitParts text).1, (splitParts text).2 ++ rest) := by
  unfold splitParts
  rw [List.foldl_append]
  generalize text.foldl splitStep ([], []) = s
  induction rest generalizing s with
  | nil => simp
  | cons character rest ih =>
    rw [List.mem_cons, not_or] at h
    rw [List.foldl_cons, ih h.2]
    simp [splitStep, Ne.symm h.1]

/-- The parts and separators make up the text. -/
theorem joined_splitParts (text : List Char) :
    ((splitParts text).1.flatMap fun part => part ++ [':', ':']) ++ (splitParts text).2 = text := by
  induction text using List.reverseRecOn with
  | nil => rfl
  | append_singleton text character ih =>
    have hstep : splitParts (text ++ [character]) = splitStep (splitParts text) character := by
      unfold splitParts
      rw [List.foldl_append, List.foldl_cons, List.foldl_nil]
    rw [hstep]
    generalize splitParts text = s at ih
    subst ih
    unfold splitStep
    split
    · rename_i hcolon
      have hpart := List.dropLast_append_getLast? ':' hcolon.2
      rw [hcolon.1, List.flatMap_append, ← hpart]
      simp
    · rw [List.append_assoc]

/-! ## Parsing -/

/-- A list is mapped without error part by part. -/
theorem mapM_append_eq_ok {α β ε : Type} {f : α → Except ε β} {l m : List α} {r : List β} :
    (l ++ m).mapM f = .ok r ↔ ∃ x y, l.mapM f = .ok x ∧ m.mapM f = .ok y ∧ r = x ++ y := by
  rw [List.mapM_append]
  constructor
  · intro h
    cases hl : l.mapM f with
    | error e => simp [hl, bind, Except.bind] at h
    | ok x =>
      cases hm : m.mapM f with
      | error e => simp [hl, hm, bind, Except.bind] at h
      | ok y => exact ⟨x, y, rfl, rfl, by simpa [hl, hm, bind, Except.bind, pure, Except.pure,
          eq_comm] using h⟩
  · rintro ⟨x, y, hl, hm, rfl⟩
    rw [hl, hm]
    rfl

/-- The tag of one part. -/
def tagOf (part : List Char) : Except MemoryIdError Tag :=
  (decodeComponent part).map Tag.fromComponent

/-- A single part is a tag if it decodes. -/
theorem mapM_tagOf_singleton {part : List Char} {tags : List Tag} :
    [part].mapM tagOf = .ok tags ↔
      ∃ text, decodeComponent part = .ok text ∧ tags = [Tag.fromComponent text] := by
  unfold tagOf
  cases hpart : decodeComponent part <;>
    simp [hpart, Except.map, bind, Except.bind, pure, Except.pure, eq_comm]

/-- A text with three parts or more is parsed part by part. -/
theorem parse_eq_ok_iff {value : String} {entity session turn : List Char} {tags : List (List Char)}
    (hparts : splitSeparator value.toList = entity :: session :: turn :: tags) (id : MemoryId) :
    MemoryId.parse value = .ok id ↔ ∃ e s t ts, decodeComponent entity = .ok e ∧
      decodeComponent session = .ok s ∧ parseU32 turn = some t ∧ tags.mapM tagOf = .ok ts ∧
        id = ⟨e, s, t, ts, value, true⟩ := by
  have hvalue : value.isEmpty = false := by
    rw [Bool.eq_false_iff]
    intro hempty
    rw [String.isEmpty_iff.mp hempty] at hparts
    exact absurd hparts (by simp [splitSeparator, splitParts])
  unfold MemoryId.parse
  rw [hvalue, if_neg Bool.false_ne_true, hparts]
  dsimp only
  cases decodeComponent entity with
  | error e => simp [bind, Except.bind]
  | ok e =>
    cases decodeComponent session with
    | error e => simp [bind, Except.bind]
    | ok s =>
      cases parseU32 turn with
      | none => simp [bind, Except.bind]
      | some t =>
        change (tags.mapM tagOf >>= fun ts => .ok (MemoryId.mk e s t ts value true)) = .ok id ↔ _
        cases tags.mapM tagOf with
        | error e => simp [bind, Except.bind]
        | ok ts => simp [bind, Except.bind, eq_comm]

/-- A text with fewer parts is taken as it stands. -/
theorem parse_of_few {value : String} (hvalue : value ≠ "")
    (hparts : (splitSeparator value.toList).length < 3) :
    MemoryId.parse value = (decodeComponent value.toList).map fun entity =>
      { MemoryId.ofText value with entity := entity } := by
  have hempty : value.isEmpty = false := by simpa using hvalue
  unfold MemoryId.parse
  rw [hempty, if_neg Bool.false_ne_true]
  split
  · rename_i entity session turn tags heq
    rw [heq] at hparts
    simp at hparts
    omega
  · cases decodeComponent value.toList <;> rfl

/-! ## The round trip -/

/-- A part without colons, after a separator, is a part. -/
theorem splitParts_extend {text part : List Char}
    (htext : (splitParts text).2.getLast? ≠ some ':') (hpart : ':' ∉ part) :
    splitParts (text ++ [':', ':'] ++ part) =
      ((splitParts text).1 ++ [(splitParts text).2], part) := by
  rw [splitParts_append hpart, splitParts_separator, if_neg htext]
  rfl

/-- The last part of a text is the end of it, so without colons it does not end in one. -/
theorem getLast?_ne_colon {part : List Char} (h : ':' ∉ part) : part.getLast? ≠ some ':' :=
  fun hlast => h (List.mem_of_getLast? hlast)

/-- The digits of a number have no colon. -/
theorem colon_not_mem_toString (n : ℕ) : ':' ∉ (toString n).toList := by
  have hlist : (toString n).toList = Nat.toDigits 10 n := Nat.toList_repr
  rw [hlist]
  intro h
  exact absurd (Nat.isDigit_of_mem_toDigits (by omega) (by omega) h) (by decide)

/-- The parts of a text between separators. -/
theorem splitParts_three {first second last : List Char} (hfirst : ':' ∉ first)
    (hsecond : ':' ∉ second) (hlast : ':' ∉ last) :
    splitParts (first ++ [':', ':'] ++ second ++ [':', ':'] ++ last) = ([first, second], last) := by
  have hone : splitParts first = ([], first) := splitParts_append hfirst []
  have htwo : splitParts (first ++ [':', ':'] ++ second) = ([first], second) := by
    rw [splitParts_extend (by rw [hone]; exact getLast?_ne_colon hfirst) hsecond, hone]
    rfl
  rw [splitParts_extend (by rw [htwo]; exact getLast?_ne_colon hsecond) hlast, htwo]
  rfl

/-- The parts of a structured identifier's text. -/
theorem splitParts_new (entity session : String) (turn : UInt32) :
    splitParts (MemoryId.new entity session turn).rendered.toList =
      ([(escapeComponent entity).toList, (escapeComponent session).toList],
        (toString turn.toNat).toList) := by
  have htext : (MemoryId.new entity session turn).rendered.toList =
      (escapeComponent entity).toList ++ [':', ':'] ++ (escapeComponent session).toList ++
        [':', ':'] ++ (toString turn.toNat).toList := by
    simp [MemoryId.new, renderStructured, separator]
  rw [htext]
  exact splitParts_three (colon_not_mem_escapeComponent entity)
    (colon_not_mem_escapeComponent session) (colon_not_mem_toString _)

/-- A part that follows a separator is the last one. -/
theorem splitSeparator_extend {text part : List Char} (htext : ':' ∉ (splitParts text).2)
    (hpart : ':' ∉ part) :
    splitSeparator (text ++ [':', ':'] ++ part) = splitSeparator text ++ [part] := by
  unfold splitSeparator
  rw [splitParts_extend (getLast?_ne_colon htext) hpart]

/-- A structured identifier with its tags. -/
def MemoryId.ofTags (entity session : String) (turn : UInt32) (tags : List Tag) : MemoryId :=
  tags.foldl MemoryId.derived (MemoryId.new entity session turn)

/-- The parts of a derived identifier's text are those of its parent and one for each tag. -/
theorem ofTags_parts (entity session : String) (turn : UInt32) (tags : List Tag) :
    let id := MemoryId.ofTags entity session turn tags
    id.entity = entity ∧ id.session = session ∧ id.turn = turn ∧ id.tags = tags ∧
      id.structured = true ∧ ':' ∉ (splitParts id.rendered.toList).2 ∧
      splitSeparator id.rendered.toList =
        (escapeComponent entity).toList :: (escapeComponent session).toList ::
          (toString turn.toNat).toList :: tags.map fun tag =>
            (escapeComponent tag.component).toList := by
  induction tags using List.reverseRecOn with
  | nil =>
    refine ⟨rfl, rfl, rfl, rfl, rfl, ?_, ?_⟩
    · unfold MemoryId.ofTags
      rw [List.foldl_nil, splitParts_new]
      exact colon_not_mem_toString _
    · unfold splitSeparator MemoryId.ofTags
      rw [List.foldl_nil, splitParts_new]
      rfl
  | append_singleton tags tag ih =>
    obtain ⟨hentity, hsession, hturn, htags, hstructured, hcolon, hparts⟩ := ih
    have hlast := colon_not_mem_escapeComponent tag.component
    have htext : (MemoryId.ofTags entity session turn (tags ++ [tag])).rendered.toList =
        (MemoryId.ofTags entity session turn tags).rendered.toList ++ [':', ':'] ++
          (escapeComponent tag.component).toList := by
      simp [MemoryId.ofTags, MemoryId.derived, separator]
    have hsplit := splitParts_extend (getLast?_ne_colon hcolon) hlast
    have hderived : MemoryId.ofTags entity session turn (tags ++ [tag]) =
        (MemoryId.ofTags entity session turn tags).derived tag := by
      simp [MemoryId.ofTags]
    refine ⟨?_, ?_, ?_, ?_, ?_, ?_, ?_⟩
    · exact (congrArg MemoryId.entity hderived).trans hentity
    · exact (congrArg MemoryId.session hderived).trans hsession
    · exact (congrArg MemoryId.turn hderived).trans hturn
    · rw [hderived]
      simp [MemoryId.derived, hstructured, htags]
    · exact (congrArg MemoryId.structured hderived).trans hstructured
    · rw [htext, hsplit]
      dsimp only
      exact hlast
    · rw [htext, splitSeparator_extend hcolon hlast, hparts, List.map_append]
      rfl

/-- The texts of canonical tags are read back. -/
theorem mapM_tagOf_of_canonical {tags : List Tag} (h : ∀ tag ∈ tags, tag.Canonical) :
    (tags.map fun tag => (escapeComponent tag.component).toList).mapM tagOf = .ok tags := by
  induction tags with
  | nil => rfl
  | cons tag tags ih =>
    have htag : tagOf (escapeComponent tag.component).toList = .ok tag := by
      unfold tagOf
      rw [decodeComponent_escapeComponent]
      exact congrArg Except.ok (h tag List.mem_cons_self)
    rw [List.map_cons, List.mapM_cons, htag, ih fun t ht => h t (List.mem_cons_of_mem _ ht)]
    rfl

/-- The text of a structured identifier is read as that identifier. -/
theorem parse_ofTags (entity session : String) (turn : UInt32) {tags : List Tag}
    (h : ∀ tag ∈ tags, tag.Canonical) :
    MemoryId.parse (MemoryId.ofTags entity session turn tags).rendered =
      .ok (MemoryId.ofTags entity session turn tags) := by
  obtain ⟨hentity, hsession, hturn, htags, hstructured, -, hparts⟩ :=
    ofTags_parts entity session turn tags
  refine (parse_eq_ok_iff hparts _).mpr ⟨entity, session, turn, tags,
    decodeComponent_escapeComponent _, decodeComponent_escapeComponent _, parseU32_toString _,
    mapM_tagOf_of_canonical h, ?_⟩
  generalize MemoryId.ofTags entity session turn tags = id at *
  obtain ⟨_, _, _, _, _, _⟩ := id
  simp only at hentity hsession hturn htags hstructured
  rw [hentity, hsession, hturn, htags, hstructured]

/-- The text of a structured identifier stands for that identifier, so no two have one text. -/
theorem parse_rendered (entity session : String) (turn : UInt32) (tags : List Tag)
    (h : ∀ tag ∈ tags, tag.Canonical) :
    let id := MemoryId.ofTags entity session turn tags
    MemoryId.parse id.rendered = .ok id ∧
      ∀ (entity' session' : String) (turn' : UInt32) (tags' : List Tag),
        (∀ tag ∈ tags', tag.Canonical) →
        (MemoryId.ofTags entity' session' turn' tags').rendered = id.rendered →
          entity' = entity ∧ session' = session ∧ turn' = turn ∧ tags' = tags := by
  refine ⟨parse_ofTags entity session turn h, fun entity' session' turn' tags' h' hsame => ?_⟩
  -- Two identifiers with one text are what the text stands for.
  have hid : MemoryId.ofTags entity' session' turn' tags' =
      MemoryId.ofTags entity session turn tags := by
    have heq := parse_ofTags entity' session' turn' h'
    rw [hsame, parse_ofTags entity session turn h] at heq
    exact (Except.ok.inj heq).symm
  obtain ⟨hentity, hsession, hturn, htags, -⟩ := ofTags_parts entity session turn tags
  obtain ⟨hentity', hsession', hturn', htags', -⟩ := ofTags_parts entity' session' turn' tags'
  rw [hid] at hentity' hsession' hturn' htags'
  exact ⟨hentity'.symm.trans hentity, hsession'.symm.trans hsession, hturn'.symm.trans hturn,
    htags'.symm.trans htags⟩

/-- The theorem at parts with separators and escapes in them, and a chunk. -/
theorem parse_rendered_residence :
    MemoryId.parse (MemoryId.ofTags "team::alpha%beta" "c1::7" 3 [.chunk 2]).rendered =
      .ok (MemoryId.ofTags "team::alpha%beta" "c1::7" 3 [.chunk 2]) :=
  (parse_rendered "team::alpha%beta" "c1::7" 3 [.chunk 2] (by decide +kernel)).1

/-! ## Derived identifiers -/

/-- A text with two parts closed has three parts or more. -/
theorem exists_parts {value : String} (h : 2 ≤ (splitParts value.toList).1.length) :
    ∃ entity session turn tags,
      splitSeparator value.toList = entity :: session :: turn :: tags := by
  have hlength : 3 ≤ (splitSeparator value.toList).length := by
    rw [splitSeparator, List.length_append, List.length_singleton]
    omega
  generalize splitSeparator value.toList = parts at hlength ⊢
  rcases parts with _ | ⟨entity, _ | ⟨session, _ | ⟨turn, tags⟩⟩⟩
  · exact absurd hlength (by simp)
  · exact absurd hlength (by simp)
  · exact absurd hlength (by simp)
  · exact ⟨entity, session, turn, tags, rfl⟩

/-- An identifier keeps the text that it stands for, and is structured if that has three parts or
more. -/
theorem parse_text {value : String} {id : MemoryId} (h : MemoryId.parse value = .ok id) :
    id.rendered = value ∧ (id.structured = true ↔ 2 ≤ (splitParts value.toList).1.length) := by
  by_cases hvalue : value = ""
  · rw [hvalue] at h
    exact absurd h (by simp [MemoryId.parse])
  have hlength : (splitSeparator value.toList).length = (splitParts value.toList).1.length + 1 := by
    simp [splitSeparator]
  by_cases hfew : (splitSeparator value.toList).length < 3
  · rw [parse_of_few hvalue hfew] at h
    cases hentity : decodeComponent value.toList with
    | error e => simp [hentity, Except.map] at h
    | ok entity =>
      simp only [hentity, Except.map, Except.ok.injEq] at h
      subst h
      exact ⟨rfl, fun hstructured => absurd hstructured (by simp [MemoryId.ofText]), by omega⟩
  · have hlong : 2 ≤ (splitParts value.toList).1.length := by omega
    obtain ⟨entity, session, turn, tags, hparts⟩ := exists_parts hlong
    obtain ⟨e, s, t, ts, -, -, -, -, rfl⟩ := (parse_eq_ok_iff hparts id).mp h
    exact ⟨rfl, fun _ => by omega, fun _ => rfl⟩

/-- What a derived record appends to the text of its parent. -/
theorem derivedFrom_eq (parent tag : String) : MemoryId.derivedFrom parent tag =
    parent ++ separator ++ escapeComponent (Tag.fromComponent tag).component := by
  unfold MemoryId.derivedFrom
  cases h : MemoryId.parse parent with
  | error e => rfl
  | ok id =>
    show id.rendered ++ separator ++ _ = _
    rw [(parse_text h).1]

/-- A text whose last part ends in a colon is the text before that colon, with the same parts but
for the colon. -/
theorem exists_start {text : List Char} (h : (splitParts text).2.getLast? = some ':') :
    ∃ start, text = start ++ [':'] ∧
      splitParts start = ((splitParts text).1, (splitParts text).2.dropLast) := by
  induction text using List.reverseRecOn with
  | nil => exact absurd h (by simp [splitParts])
  | append_singleton start character _ =>
    have hstep : splitParts (start ++ [character]) = splitStep (splitParts start) character := by
      unfold splitParts
      rw [List.foldl_append, List.foldl_cons, List.foldl_nil]
    rw [hstep] at h ⊢
    unfold splitStep at h ⊢
    by_cases hclosed : character = ':' ∧ (splitParts start).2.getLast? = some ':'
    · rw [if_pos hclosed] at h
      exact absurd h (by simp)
    · rw [if_neg hclosed] at h ⊢
      have hcolon : character = ':' := by simpa using h
      exact ⟨start, by rw [hcolon], by simp⟩

/-- One more part of a structured text is one more tag. -/
theorem parse_extend {value extended text : String} {part : List Char}
    (hlong : 2 ≤ (splitParts value.toList).1.length)
    (hparts : splitSeparator extended.toList = splitSeparator value.toList ++ [part])
    (hpart : decodeComponent part = .ok text) (id : MemoryId) :
    MemoryId.parse extended = .ok id ↔ ∃ base, MemoryId.parse value = .ok base ∧
      id = { base with tags := base.tags ++ [Tag.fromComponent text], rendered := extended } := by
  obtain ⟨entity, session, turn, tags, hvalue⟩ := exists_parts hlong
  rw [hvalue, List.cons_append, List.cons_append, List.cons_append] at hparts
  rw [parse_eq_ok_iff hparts]
  constructor
  · rintro ⟨e, s, t, ts, he, hs, ht, hts, rfl⟩
    obtain ⟨xs, ys, hxs, hys, rfl⟩ := mapM_append_eq_ok.mp hts
    obtain ⟨last, hlast, rfl⟩ := mapM_tagOf_singleton.mp hys
    obtain rfl : text = last := Except.ok.inj (hpart.symm.trans hlast)
    exact ⟨_, (parse_eq_ok_iff hvalue _).mpr ⟨e, s, t, xs, he, hs, ht, hxs, rfl⟩, rfl⟩
  · rintro ⟨base, hbase, rfl⟩
    obtain ⟨e, s, t, ts, he, hs, ht, hts, rfl⟩ := (parse_eq_ok_iff hvalue base).mp hbase
    exact ⟨e, s, t, _, he, hs, ht, mapM_append_eq_ok.mpr
      ⟨ts, _, hts, mapM_tagOf_singleton.mpr ⟨text, hpart, rfl⟩, rfl⟩, rfl⟩

section

variable (parent tag : String)

/-- The part that a derived record appends. -/
def MemoryId.derivedPart : List Char :=
  (escapeComponent (Tag.fromComponent tag).component).toList

/-- It has no colon. -/
theorem colon_not_mem_derivedPart : ':' ∉ MemoryId.derivedPart tag :=
  colon_not_mem_escapeComponent _

/-- The characters of a derived identifier. -/
theorem toList_derivedFrom : (MemoryId.derivedFrom parent tag).toList =
    parent.toList ++ [':', ':'] ++ MemoryId.derivedPart tag := by
  rw [derivedFrom_eq]
  simp [separator, MemoryId.derivedPart]

variable {parent}

/-- The parts of a derived identifier, if the parent does not end in a colon that joins the
separator. -/
theorem splitParts_derivedFrom (h : (splitParts parent.toList).2.getLast? ≠ some ':') :
    splitParts (MemoryId.derivedFrom parent tag).toList =
      (splitSeparator parent.toList, MemoryId.derivedPart tag) := by
  rw [toList_derivedFrom, splitParts_extend h (colon_not_mem_derivedPart tag)]
  rfl

/-- The parts of a derived identifier, if it does. -/
theorem splitParts_derivedFrom_colon (h : (splitParts parent.toList).2.getLast? = some ':') :
    splitParts (MemoryId.derivedFrom parent tag).toList =
      ((splitParts parent.toList).1 ++ [(splitParts parent.toList).2.dropLast],
        ':' :: MemoryId.derivedPart tag) := by
  rw [toList_derivedFrom, splitParts_append (colon_not_mem_derivedPart tag),
    splitParts_separator, if_pos h]
  rfl

/-- What the identifier of a derived record is to stand for. A structured parent keeps its entity,
session, turn and tags and gets one more tag. Any other parent stays the root of an unstructured
text, and one that stands for an identifier has derived records that do. -/
structure DerivesFaithfully (parent tag : String) : Prop where
  rooted : ∃ component, MemoryId.derivedFrom parent tag = parent ++ separator ++ component
  structured : ∀ id, MemoryId.parse parent = .ok id → id.structured = true →
    MemoryId.parse (MemoryId.derivedFrom parent tag) =
      .ok { id with
        tags := id.tags ++ [Tag.fromComponent tag]
        rendered := MemoryId.derivedFrom parent tag }
  unstructured : ∀ id, MemoryId.parse parent = .ok id → id.structured = false →
    ∃ derived, MemoryId.parse (MemoryId.derivedFrom parent tag) = .ok derived ∧
      derived.structured = false
  unparsed : ∀ e, MemoryId.parse parent = .error e → ∀ derived,
    MemoryId.parse (MemoryId.derivedFrom parent tag) = .ok derived → derived.structured = false

/-- A text from which identifiers are derived faithfully: the last part of a structured one does
not end in a colon, an unstructured one has no separator, and one that stands for nothing is no
structured text with a colon after it. -/
structure Derivable (parent : String) : Prop where
  structured : ∀ id, MemoryId.parse parent = .ok id → id.structured = true →
    (splitParts parent.toList).2.getLast? ≠ some ':'
  unstructured : ∀ id, MemoryId.parse parent = .ok id → id.structured = false →
    (splitParts parent.toList).1 = []
  unparsed : ∀ e, MemoryId.parse parent = .error e → ∀ start id, parent = start ++ ":" →
    MemoryId.parse start = .ok id → id.structured = false

end

/-- A derived identifier has one part more than its parent. -/
theorem length_splitParts_derivedFrom (parent tag : String) :
    (splitParts (MemoryId.derivedFrom parent tag).toList).1.length =
      (splitParts parent.toList).1.length + 1 := by
  by_cases hlast : (splitParts parent.toList).2.getLast? = some ':'
  · rw [splitParts_derivedFrom_colon tag hlast, List.length_append]
    rfl
  · rw [splitParts_derivedFrom tag hlast, splitSeparator, List.length_append]
    rfl

/-- If the last part of the parent does not end in a colon, the derived text is the parent's with
one more part. -/
theorem parse_derivedFrom {parent : String} (tag : String)
    (hlong : 2 ≤ (splitParts parent.toList).1.length)
    (h : (splitParts parent.toList).2.getLast? ≠ some ':') (id : MemoryId) :
    MemoryId.parse (MemoryId.derivedFrom parent tag) = .ok id ↔
      ∃ base, MemoryId.parse parent = .ok base ∧ id = { base with
        tags := base.tags ++ [Tag.fromComponent tag]
        rendered := MemoryId.derivedFrom parent tag } := by
  have hparts : splitSeparator (MemoryId.derivedFrom parent tag).toList =
      splitSeparator parent.toList ++ [MemoryId.derivedPart tag] := by
    rw [splitSeparator, splitParts_derivedFrom tag h]
  have hiff := parse_extend hlong hparts (decodeComponent_escapeComponent _) id
  rw [Tag.canonical_fromComponent tag] at hiff
  exact hiff

/-- If it does, the derived text is that of the text before the colon with one more part, which
starts with a colon. -/
theorem parse_derivedFrom_colon {start : String} (tag : String)
    (hlong : 2 ≤ (splitParts start.toList).1.length)
    (h : splitParts (start ++ ":").toList =
      ((splitParts start.toList).1, (splitParts start.toList).2 ++ [':'])) (id : MemoryId) :
    MemoryId.parse (MemoryId.derivedFrom (start ++ ":") tag) = .ok id ↔
      ∃ base, MemoryId.parse start = .ok base ∧ id = { base with
        tags := base.tags ++ [.named (":" ++ (Tag.fromComponent tag).component)]
        rendered := MemoryId.derivedFrom (start ++ ":") tag } := by
  have hlast : (splitParts (start ++ ":").toList).2.getLast? = some ':' := by
    rw [h]
    simp
  have hparts : splitSeparator (MemoryId.derivedFrom (start ++ ":") tag).toList =
      splitSeparator start.toList ++ [':' :: MemoryId.derivedPart tag] := by
    rw [splitSeparator, splitParts_derivedFrom_colon tag hlast, h, List.dropLast_concat]
    rfl
  have hpart : decodeComponent (':' :: MemoryId.derivedPart tag) =
      .ok (":" ++ (Tag.fromComponent tag).component) := by
    have hdecode := decodeComponent_escapeComponent (Tag.fromComponent tag).component
    unfold decodeComponent at hdecode ⊢
    rw [decodeCharacters_cons (by decide)]
    show (Except.map _ (decodeCharacters (escapeComponent _).toList)).map _ = _
    cases htext : decodeCharacters
        (escapeComponent (Tag.fromComponent tag).component).toList with
    | error e => simp [htext, Except.map] at hdecode
    | ok text =>
      simp only [htext, Except.map, Except.ok.injEq] at hdecode ⊢
      rw [← hdecode]
      exact String.toList_inj.mp (by simp)
  have hiff := parse_extend hlong hparts hpart id
  have hcolon : (":" ++ (Tag.fromComponent tag).component).toList =
      ':' :: (Tag.fromComponent tag).component.toList := by
    simp
  rw [Tag.fromComponent_colon hcolon] at hiff
  exact hiff

/-- A text with one part closed or none is not structured after one more part, unless that part is
the third. -/
theorem parse_derivedFrom_few {parent : String} (tag : String)
    (hfew : (splitParts parent.toList).1 = []) :
    (∀ id, MemoryId.parse (MemoryId.derivedFrom parent tag) = .ok id → id.structured = false) ∧
      ∀ id, MemoryId.parse parent = .ok id →
        ∃ derived, MemoryId.parse (MemoryId.derivedFrom parent tag) = .ok derived := by
  -- The parent has one part, so the derived text has two.
  have hlength : (splitParts (MemoryId.derivedFrom parent tag).toList).1.length = 1 := by
    rw [length_splitParts_derivedFrom, hfew]
    rfl
  constructor
  · intro id hid
    rw [Bool.eq_false_iff]
    intro hstructured
    have htwo := (parse_text hid).2.mp hstructured
    omega
  · intro id hid
    have hparent : parent ≠ "" := by
      rintro rfl
      exact absurd hid (by simp [MemoryId.parse])
    have hderived : MemoryId.derivedFrom parent tag ≠ "" := by
      rw [derivedFrom_eq]
      simp [separator]
    rw [parse_of_few hparent (by simp [splitSeparator, hfew])] at hid
    rw [parse_of_few hderived (by rw [splitSeparator, List.length_append, hlength]; simp),
      toList_derivedFrom, List.append_assoc]
    unfold decodeComponent at hid ⊢
    -- The text of the parent is decoded as a whole, and the separator decodes to itself.
    cases htext : decodeCharacters parent.toList with
    | error e => simp [htext, Except.map] at hid
    | ok text =>
      have hpart := decodeComponent_escapeComponent (Tag.fromComponent tag).component
      unfold decodeComponent at hpart
      cases hrest : decodeCharacters (MemoryId.derivedPart tag) with
      | error e =>
        unfold MemoryId.derivedPart at hrest
        simp [hrest, Except.map] at hpart
      | ok rest =>
        have hcolons : decodeCharacters ([':', ':'] ++ MemoryId.derivedPart tag) =
            .ok (':' :: ':' :: rest) := by
          rw [List.cons_append, List.cons_append, List.nil_append,
            decodeCharacters_cons (by decide), decodeCharacters_cons (by decide), hrest]
          rfl
        rw [decodeCharacters_append htext, hcolons]
        exact ⟨_, rfl⟩

/-- A text with one part closed has two parts, and decodes if they do. -/
theorem decode_of_parts {parent : String} {entity session : List Char} {e s : String}
    (hparts : splitParts parent.toList = ([entity], session))
    (he : decodeComponent entity = .ok e) (hs : decodeComponent session = .ok s) :
    ∃ text, decodeComponent parent.toList = .ok text := by
  have htext : parent.toList = entity ++ (':' :: ':' :: session) := by
    have hjoined := joined_splitParts parent.toList
    rw [hparts] at hjoined
    simpa using hjoined.symm
  unfold decodeComponent at he hs ⊢
  rw [htext]
  cases hentity : decodeCharacters entity with
  | error e => simp [hentity, Except.map] at he
  | ok decoded =>
    rw [decodeCharacters_append hentity, decodeCharacters_cons (by decide),
      decodeCharacters_cons (by decide)]
    cases hsession : decodeCharacters session with
    | error e => simp [hsession, Except.map] at hs
    | ok rest => exact ⟨_, rfl⟩

/-- A text of two parts that stands for nothing has no structured texts derived from it. -/
theorem parse_derivedFrom_two {parent : String} {e : MemoryIdError} (tag : String)
    (htwo : (splitParts parent.toList).1.length = 1) (he : MemoryId.parse parent = .error e)
    (id : MemoryId) (hid : MemoryId.parse (MemoryId.derivedFrom parent tag) = .ok id) :
    id.structured ≠ true := by
  intro _
  obtain ⟨entity, hentity⟩ := List.length_eq_one_iff.mp htwo
  have hparent : parent ≠ "" := by
    rintro rfl
    exact absurd htwo (by simp [splitParts])
  by_cases hlast : (splitParts parent.toList).2.getLast? = some ':'
  · -- The third part starts with a colon, so it is no turn.
    have hparts : splitSeparator (MemoryId.derivedFrom parent tag).toList =
        [entity, (splitParts parent.toList).2.dropLast, ':' :: MemoryId.derivedPart tag] := by
      rw [splitSeparator, splitParts_derivedFrom_colon tag hlast, hentity]
      rfl
    obtain ⟨_, _, _, _, -, -, hturn, -⟩ := (parse_eq_ok_iff hparts id).mp hid
    rw [parseU32_of_mem List.mem_cons_self (by decide) (by decide)] at hturn
    exact absurd hturn (by simp)
  -- The third part is the derived one, which is no turn.
  · have hparts : splitSeparator (MemoryId.derivedFrom parent tag).toList =
        [entity, (splitParts parent.toList).2, MemoryId.derivedPart tag] := by
      rw [splitSeparator, splitParts_derivedFrom tag hlast, splitSeparator, hentity]
      rfl
    obtain ⟨_, _, _, _, hfirst, hsecond, -⟩ := (parse_eq_ok_iff hparts id).mp hid
    have hboth : splitParts parent.toList = ([entity], (splitParts parent.toList).2) := by
      rw [← hentity]
    obtain ⟨text, htext⟩ := decode_of_parts hboth hfirst hsecond
    rw [parse_of_few hparent (by rw [splitSeparator, hentity]; simp), htext] at he
    exact absurd he (by simp [Except.map])

/-- A text that stands for nothing, but does without the colon at its end, ends in one colon. -/
theorem splitParts_of_error {start : String} {id : MemoryId} {e : MemoryIdError}
    (herror : MemoryId.parse (start ++ ":") = .error e) (hstart : MemoryId.parse start = .ok id)
    (hstructured : id.structured = true) :
    splitParts (start ++ ":").toList =
      ((splitParts start.toList).1, (splitParts start.toList).2 ++ [':']) := by
  have hstep : splitParts (start ++ ":").toList = splitStep (splitParts start.toList) ':' := by
    unfold splitParts
    rw [String.toList_append, List.foldl_append]
    rfl
  by_cases hlast : (splitParts start.toList).2.getLast? = some ':'
  swap
  · rw [hstep, splitStep, if_neg fun h => hlast h.2]
  -- With two colons at its end the whole text would stand for something.
  have hlong := (parse_text hstart).2.mp hstructured
  obtain ⟨entity, session, turn, tags, hparts⟩ := exists_parts hlong
  obtain ⟨e, s, t, ts, he, hs, ht, hts, -⟩ := (parse_eq_ok_iff hparts id).mp hstart
  have hcolon : ':' ∈ (splitParts start.toList).2 := List.mem_of_getLast? hlast
  rcases List.eq_nil_or_concat tags with rfl | ⟨init, last, rfl⟩
  · -- The turn would end in a colon.
    have hturn : (splitParts start.toList).2 = turn := by
      have := congrArg List.getLast? hparts
      simpa [splitSeparator] using this
    rw [← hturn, parseU32_of_mem hcolon (by decide) (by decide)] at ht
    exact absurd ht (by simp)
  -- The colon is at the end of the last tag.
  · have hinit : (splitParts start.toList).1 = entity :: session :: turn :: init ∧
        (splitParts start.toList).2 = last := by
      have := hparts
      rw [splitSeparator, List.concat_eq_append, ← List.cons_append, ← List.cons_append,
        ← List.cons_append] at this
      exact ⟨List.append_inj_left' this rfl, List.singleton_inj.mp (List.append_inj_right' this rfl)⟩
    rw [hinit.2] at hlast hcolon
    rw [List.concat_eq_append] at hts
    obtain ⟨xs, ys, hxs, hys, -⟩ := mapM_append_eq_ok.mp hts
    obtain ⟨text, htext, -⟩ := mapM_tagOf_singleton.mp hys
    -- What stands before the colon decodes if the whole tag does.
    obtain ⟨before, hbefore⟩ : ∃ text, decodeComponent last.dropLast = .ok text := by
      unfold decodeComponent at htext ⊢
      cases hdecode : decodeCharacters last with
      | error e => simp [hdecode, Except.map] at htext
      | ok decoded =>
        rw [← List.dropLast_append_getLast? ':' hlast] at hdecode
        obtain ⟨x, hx⟩ := exists_decodeCharacters_of_colon hdecode
        exact ⟨String.ofList x, by rw [hx]; rfl⟩
    have hextended : splitSeparator (start ++ ":").toList =
        entity :: session :: turn :: (init ++ ([last.dropLast] ++ [[]])) := by
      rw [splitSeparator, hstep, splitStep, hinit.1, hinit.2, if_pos ⟨rfl, hlast⟩]
      simp
    -- The tags with an empty one behind them are the parts of the extended text.
    have hok := (parse_eq_ok_iff hextended _).mpr ⟨e, s, t, _, he, hs, ht,
      mapM_append_eq_ok.mpr ⟨xs, _, hxs, mapM_append_eq_ok.mpr
        ⟨_, _, mapM_tagOf_singleton.mpr ⟨before, hbefore, rfl⟩,
          mapM_tagOf_singleton.mpr ⟨"", rfl, rfl⟩, rfl⟩, rfl⟩, rfl⟩
    rw [hok] at herror
    exact absurd herror (by simp)

/-- A text that ends in one colon is the text before it, with the same parts but for the colon. -/
theorem exists_start_string {parent : String}
    (h : (splitParts parent.toList).2.getLast? = some ':') :
    ∃ start, parent = start ++ ":" ∧ splitParts parent.toList =
      ((splitParts start.toList).1, (splitParts start.toList).2 ++ [':']) := by
  obtain ⟨start, htext, hparts⟩ := exists_start h
  refine ⟨String.ofList start, String.toList_inj.mp (by simp [htext]), ?_⟩
  rw [String.toList_ofList, hparts, List.dropLast_append_getLast? ':' h]

/-- The text of a derived identifier stands for the parent and the tag, for any tag, if and only if
the parent is derivable. -/
theorem derivesFaithfully_iff (parent tag : String) :
    DerivesFaithfully parent tag ↔ Derivable parent := by
  constructor
  · intro h
    refine ⟨?_, ?_, ?_⟩
    · -- The new tag would start with a colon, and be longer than it is.
      intro id hid hstructured hlast
      obtain ⟨start, rfl, hparts⟩ := exists_start_string hlast
      have hlong : 2 ≤ (splitParts start.toList).1.length := by
        have := (parse_text hid).2.mp hstructured
        rwa [hparts] at this
      obtain ⟨base, -, hderived⟩ :=
        (parse_derivedFrom_colon tag hlong hparts _).mp (h.structured id hid hstructured)
      have htags : id.tags ++ [Tag.fromComponent tag] =
          base.tags ++ [.named (":" ++ (Tag.fromComponent tag).component)] :=
        congrArg MemoryId.tags hderived
      have htag := List.singleton_inj.mp (List.append_inj_right' htags rfl)
      have hlength := congrArg (fun tag => tag.component.length) htag
      simp only [Tag.component, String.length_append] at hlength
      have hcolon : (":" : String).length = 1 := rfl
      omega
    · intro id hid hunstructured
      obtain ⟨derived, hderived, hfalse⟩ := h.unstructured id hid hunstructured
      -- A third part makes the derived text a structured one.
      have hlong : ¬ 2 ≤ (splitParts (MemoryId.derivedFrom parent tag).toList).1.length := by
        rw [← (parse_text hderived).2, hfalse]
        exact Bool.false_ne_true
      rw [length_splitParts_derivedFrom] at hlong
      exact List.eq_nil_of_length_eq_zero (by omega)
    -- A text that is not parsed starts no structured one.
    · rintro e he start id rfl hstart
      rw [Bool.eq_false_iff]
      intro hstructured
      have hparts := splitParts_of_error he hstart hstructured
      have hlong := (parse_text hstart).2.mp hstructured
      have hderived := (parse_derivedFrom_colon tag hlong hparts _).mpr ⟨id, hstart, rfl⟩
      exact absurd (h.unparsed e he _ hderived) (by simp [hstructured])
  · intro h
    refine ⟨⟨_, derivedFrom_eq parent tag⟩, ?_, ?_, ?_⟩
    -- The converse, by the number of parts that the parent has.
    · intro id hid hstructured
      exact (parse_derivedFrom tag ((parse_text hid).2.mp hstructured)
        (h.structured id hid hstructured) _).mpr ⟨id, hid, rfl⟩
    · intro id hid hunstructured
      obtain ⟨hfalse, hok⟩ := parse_derivedFrom_few tag (h.unstructured id hid hunstructured)
      obtain ⟨derived, hderived⟩ := hok id hid
      exact ⟨derived, hderived, hfalse derived hderived⟩
    · intro e he derived hderived
      rw [Bool.eq_false_iff]
      intro hstructured
      have hlong := (parse_text hderived).2.mp hstructured
      rw [length_splitParts_derivedFrom] at hlong
      by_cases hone : (splitParts parent.toList).1.length = 1
      · exact (parse_derivedFrom_two tag hone he derived hderived) hstructured
      by_cases hlast : (splitParts parent.toList).2.getLast? = some ':'
      · obtain ⟨start, rfl, hparts⟩ := exists_start_string hlast
        rw [hparts] at hlong hone
        dsimp only at hlong hone
        obtain ⟨base, hbase, rfl⟩ :=
          (parse_derivedFrom_colon tag (by omega) hparts derived).mp hderived
        rw [h.unparsed e he start base rfl hbase] at hstructured
        exact Bool.false_ne_true hstructured
      · obtain ⟨base, hbase, -⟩ := (parse_derivedFrom tag (by omega) hlast derived).mp hderived
        rw [hbase] at he
        exact absurd he (by simp)

/-- Deriving is not faithful for an identifier of two parts: with a tag it is taken for one of
three, whose turn is no number. -/
theorem misderived_opaque : ¬ ∀ parent tag : String, DerivesFaithfully parent tag := by
  intro h
  have hparent : MemoryId.parse "a::b" = .ok { MemoryId.ofText "a::b" with entity := "a::b" } := by
    decide +kernel
  obtain ⟨derived, hderived, -⟩ := (h "a::b" "c1").unstructured _ hparent rfl
  have herror : MemoryId.parse (MemoryId.derivedFrom "a::b" "c1") = .error .invalidTurn := by
    decide +kernel
  rw [herror] at hderived
  exact absurd hderived (by simp)

end Tellodb
