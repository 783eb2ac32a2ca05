import Tellodb.Collections.Words
import Tellodb.Core.Text
import Mathlib.Algebra.GroupWithZero.Nat

/-!
# Chunks of a text

The chunkers of `api/ingest/chunking.rs`. A text is read line by line, in sections that begin at
headings, definitions or headers, or sentence by sentence, and its pieces are joined again as long
as they fit (`pack`). A text is the list of its characters here. -/

namespace Tellodb

/-! ## Lines -/

/-- `str::len`: the bytes of a text. -/
def utf8Len (text : List Char) : ℕ :=
  (text.map Char.utf8Size).sum

/-- A line that ended in a line feed, without a carriage return before it. -/
def stripCr (line : List Char) : List Char :=
  if line.getLast? = some '\r' then line.dropLast else line

/-- `str::lines`: what follows the last line feed is a line if it is not empty. -/
def lines (text : List Char) : List (List Char) :=
  let pieces := text.splitOn '\n'
  pieces.dropLast.map stripCr ++ (pieces.getLast?.filter fun last => !last.isEmpty).toList

/-- `lines.join("\n")` -/
def joinLines (lines : List (List Char)) : List Char :=
  ['\n'].intercalate lines

/-- A text is nothing but whitespace. -/
def isBlank (text : List Char) : Bool :=
  text.all isWhitespace

/-! ## Packing -/

/-- A piece is added to the chunk that is open, which is closed before if the piece does not fit. -/
def packStep (separator : List Char) (limit : ℕ) (s : List (List Char) × List Char)
    (piece : List Char) : List (List Char) × List Char :=
  let s := if !s.2.isEmpty && limit < utf8Len s.2 + utf8Len separator + utf8Len piece then
    (s.1 ++ [trim s.2], []) else s
  (s.1, if s.2.isEmpty then piece else s.2 ++ separator ++ piece)

/-- The chunks, with the one that is open at the end unless it is blank. -/
def closeChunks (s : List (List Char) × List Char) : List (List Char) :=
  if (trim s.2).isEmpty then s.1 else s.1 ++ [trim s.2]

/-- Pieces joined as long as they fit. -/
def pack (separator : List Char) (limit : ℕ) (pieces : List (List Char)) : List (List Char) :=
  closeChunks (pieces.foldl (packStep separator limit) ([], []))

/-- `split_by_char_limit` -/
def splitByCharLimit (lines : List (List Char)) (maxChars : ℕ) : List (List Char) :=
  pack ['\n'] maxChars lines

/-! ## Sections -/

/-- A line is added to the section that is open, or begins a new one. -/
def sectionStep (isBoundary : List Char → Bool) (s : List (List (List Char)) × List (List Char))
    (line : List Char) : List (List (List Char)) × List (List Char) :=
  if isBoundary line && !s.2.isEmpty then (s.1 ++ [s.2], [line]) else (s.1, s.2 ++ [line])

/-- The lines of a text in sections, each of which begins at a boundary. -/
def sectionLines (isBoundary : List Char → Bool) (text : List Char) : List (List (List Char)) :=
  let s := (lines text).foldl (sectionStep isBoundary) ([], [])
  if s.2.isEmpty then s.1 else s.1 ++ [s.2]

/-- The sections of a text. -/
def sections (isBoundary : List Char → Bool) (text : List Char) : List (List Char) :=
  (sectionLines isBoundary text).map joinLines

/-- A text in sections, which are split where they are too long. -/
def chunkSections (isBoundary : List Char → Bool) (limit : ℕ) (text : List Char) :
    List (List Char) :=
  if (sections isBoundary text).isEmpty then [text]
  else (sections isBoundary text).flatMap fun s => splitByCharLimit (lines s) limit

/-- `str::starts_with` -/
def startsWith (start : String) (text : List Char) : Bool :=
  start.toList.isPrefixOf text

/-! ## The chunkers -/

/-- A heading. -/
def isHeading (line : List Char) : Bool :=
  startsWith "#" (trimStart line)

/-- A line that begins a definition. -/
def isDefinition (line : List Char) : Bool :=
  ["fn ", "pub fn ", "def ", "class ", "function ", "impl "].any fun start =>
    startsWith start (trimStart line)

/-- A header of a message. -/
def isHeader (line : List Char) : Bool :=
  ["from:", "subject:", "to:", "date:"].any fun start => startsWith start (line.map Char.toLower)

/-- `chunk_markdown` -/
def chunkMarkdown (text : List Char) : List (List Char) :=
  chunkSections isHeading 1100 text

/-- `chunk_code` -/
def chunkCode (text : List Char) : List (List Char) :=
  chunkSections isDefinition 1200 text

/-- `chunk_email` -/
def chunkEmail (text : List Char) : List (List Char) :=
  if (sections isHeader text).isEmpty then [text] else sections isHeader text

/-- `chunk_table_like` -/
def chunkTableLike (text : List Char) : List (List Char) :=
  if (lines text).length ≤ 24 then [text] else splitByCharLimit (lines text) 1400

/-- A sentence ends here. -/
def isStop (c : Char) : Bool :=
  c = '.' || c = '!' || c = '?' || c = '\n'

/-- The sentences of a text. -/
def sentences (text : List Char) : List (List Char) :=
  ((text.splitOnP isStop).map trim).filter fun s => !s.isEmpty

/-- `chunk_plain_or_chat` -/
def chunkPlainOrChat (text : List Char) : List (List Char) :=
  if (sentences text).isEmpty then [text] else pack ['.', ' '] 900 (sentences text)

/-- What a text is chunked as. -/
inductive Chunker where
  | markdown
  | code
  | email
  | table
  | plainOrChat
  deriving DecidableEq

/-- The chunker of `expand_payload_for_content_type`. -/
def Chunker.ofContentType (contentType : String) : Chunker :=
  if contentType = "markdown" then .markdown
  else if contentType = "code" then .code
  else if contentType = "email" then .email
  else if contentType = "table" then .table
  else .plainOrChat

/-- The chunks of a text. -/
def Chunker.chunk : Chunker → List Char → List (List Char)
  | markdown, text => chunkMarkdown text
  | code, text => chunkCode text
  | email, text => chunkEmail text
  | table, text => chunkTableLike text
  | plainOrChat, text => chunkPlainOrChat text

end Tellodb
