import Mathlib.Data.String.Basic

/-!
# Memory identifiers

The identifiers of `core/memory_id.rs`, written and read. A structured identifier is the escaped
entity, the escaped session and the turn, joined by `::`, and each record derived from a memory
extends the text of its identifier by `::` and a tag. A text with fewer than three parts is an
identifier as it stands. `routerId` is the identifier under which the store indexes the router of a
session. -/

namespace Tellodb

/-- `SEPARATOR`. -/
def separator : String := "::"

/-- The kind of a derived record. -/
inductive Tag where
  /-- A piece of a long text. -/
  | chunk (value : UInt32)
  /-- A gist, keyword, event, relation or fact record. -/
  | companion (value : String)
  /-- A memory card. -/
  | card (value : String)
  /-- A synthetic query. -/
  | syntheticQuery
  /-- Any other record. -/
  | named (value : String)
  deriving DecidableEq, Repr

/-- The text of a tag. -/
def Tag.component : Tag → String
  | .chunk value => "c" ++ toString value.toNat
  | .companion value => value
  | .card value => value
  | .named value => value
  | .syntheticQuery => "sq"

/-- `str::parse::<u32>`: decimal digits, after a `+` or not, for a number below `2^32`. -/
def parseU32 (text : List Char) : Option UInt32 :=
  let digits := if text.head? = some '+' then text.tail else text
  if digits.isEmpty || !digits.all Char.isDigit then none
  else if Nat.ofDigitChars 10 digits 0 < 2 ^ 32 then
    some (UInt32.ofNat (Nat.ofDigitChars 10 digits 0))
  else none

/-- The tag that a text stands for. -/
def Tag.fromComponent (component : String) : Tag :=
  let startsWith (start : String) : Bool := start.toList.isPrefixOf component.toList
  -- A chunk has a number, and a `c` before anything else is no chunk.
  let chunk := if component.toList.head? = some 'c' then parseU32 component.toList.tail else none
  if component = "sq" then .syntheticQuery
  else match chunk with
    | some value => .chunk value
    | none =>
      if startsWith "card" then .card component
      else if component = "gist" || component = "kw" || component = "event" ||
          startsWith "rel" || startsWith "fact" then .companion component
      else .named component

/-- A component with `%` and `:` escaped. -/
def escapeComponent (component : String) : String :=
  String.ofList (component.toList.flatMap fun character =>
    if character = '%' then ['%', '2', '5']
    else if character = ':' then ['%', '3', 'A']
    else [character])

/-- Why a text is no identifier. -/
inductive MemoryIdError where
  /-- It is empty. -/
  | empty
  /-- A `%` in it does not start an escape. -/
  | invalidEscape
  /-- Its third part is no turn. -/
  | invalidTurn
  deriving DecidableEq, Repr

/-- `char::to_digit(16)`. -/
def hexDigit (character : Char) : Option ℕ :=
  if '0' ≤ character ∧ character ≤ '9' then some (character.toNat - '0'.toNat)
  else if 'a' ≤ character ∧ character ≤ 'f' then some (character.toNat - 'a'.toNat + 10)
  else if 'A' ≤ character ∧ character ≤ 'F' then some (character.toNat - 'A'.toNat + 10)
  else none

/-- The character that two hexadecimal digits escape. -/
def escapedCharacter (high low : Char) : Except MemoryIdError Char :=
  match hexDigit high, hexDigit low with
  | some high, some low =>
    -- Nothing else is ever escaped.
    if 16 * high + low = '%'.toNat then .ok '%'
    else if 16 * high + low = ':'.toNat then .ok ':'
    else .error .invalidEscape
  | _, _ => .error .invalidEscape

/-- The loop of `decode_component`. -/
def decodeCharacters : List Char → Except MemoryIdError (List Char)
  | [] => .ok []
  -- A percent sign with less than two characters after it falls through to the next case.
  | '%' :: high :: low :: rest => do
    let character ← escapedCharacter high low
    return character :: (← decodeCharacters rest)
  | character :: rest =>
    if character = '%' then .error .invalidEscape
    else do return character :: (← decodeCharacters rest)

/-- A component with its escapes undone. -/
def decodeComponent (component : List Char) : Except MemoryIdError String :=
  (decodeCharacters component).map String.ofList

/-- One character of a text that is split at `::`. A second colon in a row closes the part before
it. -/
def splitStep (s : List (List Char) × List Char) (character : Char) :
    List (List Char) × List Char :=
  -- A third colon in a row starts the next part.
  if character = ':' ∧ s.2.getLast? = some ':' then (s.1 ++ [s.2.dropLast], [])
  else (s.1, s.2 ++ [character])

/-- The parts of a text that are closed, and the last one. -/
def splitParts (text : List Char) : List (List Char) × List Char :=
  text.foldl splitStep ([], [])

/-- `str::split("::")`: the separators are found from the left and do not overlap. -/
def splitSeparator (text : List Char) : List (List Char) :=
  (splitParts text).1 ++ [(splitParts text).2]

/-- The text of a structured identifier. -/
def renderStructured (entity session : String) (turn : UInt32) (tags : List Tag) : String :=
  tags.foldl (fun rendered tag => rendered ++ separator ++ escapeComponent tag.component)
    (escapeComponent entity ++ separator ++ escapeComponent session ++ separator ++
      toString turn.toNat)

/-- A memory identifier with its parts and its text. -/
structure MemoryId where
  entity : String
  session : String
  turn : UInt32
  tags : List Tag
  rendered : String
  structured : Bool
  deriving DecidableEq

namespace MemoryId

/-- The identifier of a turn. -/
def new (entity session : String) (turn : UInt32) : MemoryId where
  entity := entity
  session := session
  turn := turn
  tags := []
  rendered := renderStructured entity session turn []
  structured := true

/-- The identifier of a record derived from a memory. An opaque identifier keeps the last tag
only. -/
def derived (id : MemoryId) (tag : Tag) : MemoryId :=
  { id with
    tags := if id.structured then id.tags ++ [tag] else [tag]
    rendered := id.rendered ++ separator ++ escapeComponent tag.component }

/-- The identifier of a text that is taken as it stands. -/
def ofText (value : String) : MemoryId where
  entity := value
  session := ""
  turn := 0
  tags := []
  rendered := value
  structured := false

/-- The identifier that a text stands for. -/
def parse (value : String) : Except MemoryIdError MemoryId :=
  if value.isEmpty then .error .empty
  else match splitSeparator value.toList with
    | entity :: session :: turn :: tags => do
      let entity ← decodeComponent entity
      let session ← decodeComponent session
      let turn ← (parseU32 turn).elim (.error .invalidTurn) .ok
      let tags ← tags.mapM fun part => (decodeComponent part).map Tag.fromComponent
      return ⟨entity, session, turn, tags, value, true⟩
    | _ => do
      let entity ← decodeComponent value.toList
      return { ofText value with entity := entity }

/-- The text of the identifier of a record derived from a memory. -/
def derivedFrom (parent tag : String) : String :=
  let parsed := match parse parent with
    | .ok id => id
    | .error _ => ofText parent
  (parsed.derived (Tag.fromComponent tag)).rendered

end MemoryId

/-- The identifier under which the router of a session is indexed. -/
def routerId (entityId sessionId : String) : String :=
  ((MemoryId.new entityId sessionId 0).derived (.named "router")).rendered

example : routerId "alice" "s:1" = "alice::s%3A1::0::router" := by decide +kernel

example : MemoryId.parse "a::b::007" = .ok ⟨"a", "b", 7, [], "a::b::007", true⟩ := by
  decide +kernel

end Tellodb
