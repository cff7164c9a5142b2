import SoftLinear.Text.Reader

/-!
# Characters and tokens

The meaning of a YAML text depends on columns and lines, so every character is read together with its place.  The breaks
of other systems become line feeds; line and paragraph separators break lines too and are kept.

The text is cut into tokens.  Blocks, which it shows by indentation, have tokens for their beginning and their end.
-/

namespace SoftLinear.Yaml

/-- A character with its place: how many characters and lines stand before it, and how many of its own line. -/
structure Located where
  char : Char
  index : Nat
  line : Nat
  column : Nat
  deriving DecidableEq, Repr

abbrev Scan (β : Type) := Reader Located β

/-- Whether a character may stand in a text. -/
def isAllowed (c : Char) : Bool :=
  c = '\t' || c = '\n' || c = '\r' || c = '\u0085' || (' ' ≤ c && c ≤ '~')
    || ('\u00a0' ≤ c && c ≠ '\ufffe' && c ≠ '\uffff')

/-- Whether a character is blank within a line. -/
def isBlank (c : Char) : Bool := c = ' ' || c = '\t'

/-- Whether a character ends a line. -/
def isBreak (c : Char) : Bool := c = '\n' || c = '\u2028' || c = '\u2029'

/-- Whether a character may stand in names. -/
def isNameChar (c : Char) : Bool := c.isAlphanum || c = '-' || c = '_'

/-- The characters of a text from a place on. -/
def locateFrom (index line column : Nat) : List Char → List Located
  | '\r' :: '\n' :: rest => ⟨'\n', index, line, column⟩ :: locateFrom (index + 2) (line + 1) 0 rest
  | c :: rest =>
    let c := if c = '\r' || c = '\u0085' then '\n' else c
    let (line', column') := if isBreak c then (line + 1, 0) else (line, column + 1)
    ⟨c, index, line, column⟩ :: locateFrom (index + 1) line' column' rest
  | [] => []

/-- The characters of a text in their places; some characters are refused. -/
def locate? (text : String) : Option (List Located) :=
  if text.toList.all isAllowed then some (locateFrom 0 0 0 text.toList) else none

/-! ## What comes next -/

/-- The character a number of places ahead. -/
def ahead (n : Nat) (s : List Located) : Option Char := s[n]?.map (·.char)

/-- Whether nothing, a blank or a line break comes. -/
def isGap : Option Char → Bool
  | some c => isBlank c || isBreak c
  | none => true

/-- Whether a line of three equal marks comes that begins or ends a document. -/
def isDocumentMark (mark : Char) (s : List Located) : Bool :=
  s.head?.any (·.column = 0) && (s.take 3).map (·.char) = [mark, mark, mark] && isGap (ahead 3 s)

/-- Whether a document begins or ends here. -/
def isDocumentEdge (s : List Located) : Bool := isDocumentMark '-' s || isDocumentMark '.' s

/-- The next character, if it passes a test. -/
def one (test : Char → Bool) : Scan Char := do return (← Reader.satisfying fun x => test x.char).char

def mark (c : Char) : Scan Unit := discard (one (· = c))

/-- The longest run of characters that pass a test. -/
def span (test : Char → Bool) : Scan (List Char) := do
  return (← Reader.takeWhile fun x => test x.char).map (·.char)

/-- The next character stays where it is and has to pass a test, as has the end. -/
def before (test : Option Char → Bool) : Scan Unit := do guard (test (ahead 0 (← get)))

/-- Skips blanks and a comment up to the end of the line. -/
def lineEnd : Scan Unit := do
  discard (span isBlank)
  if ahead 0 (← get) = some '#' then
    discard (span (!isBreak ·))
  discard (one isBreak) <|> Reader.atEnd

/-! ## Tokens -/

/-- How a scalar is written. -/
inductive Style where
  | plain
  | quoted
  | literal
  | folded
  deriving DecidableEq, Repr

/-- A token. -/
inductive Token where
  | version (major minor : Nat)
  /-- A short form for tags: a handle, and what it stands for. -/
  | tagHandle (handle stem : String)
  | documentStart
  | documentEnd
  | sequenceStart
  | mappingStart
  | blockEnd
  | openBracket
  | closeBracket
  | openBrace
  | closeBrace
  | comma
  | entry
  | key
  | value
  /-- A name that stands for another node. -/
  | reference (name : String)
  /-- A name for the node that comes. -/
  | anchor (name : String)
  | tag (handle suffix : String)
  | scalar (style : Style) (text : String)
  deriving DecidableEq, Repr

end SoftLinear.Yaml
