import SoftLinear.Text.Reader

/-!
# TOML text

Blanks, comments, strings in their four spellings, and keys.
-/

namespace SoftLinear.Toml

open Reader

/-! ## Blanks and comments -/

/-- Whether a character is blank within a line. -/
def isBlank (c : Char) : Bool := c = ' ' || c = '\t'

/-- Whether a character may stand in a line: tabs may, and all that are no control characters of ASCII. -/
def isPrintable (c : Char) : Bool := c = '\t' || (' ' ≤ c && c ≠ '\x7f')

def blanks : Reader Char Unit := discard (takeWhile isBlank)

/-- The end of a line. -/
def lineBreak : Reader Char Unit := char '\n' <|> word "\r\n"

/-- A comment, up to the end of its line. -/
def comment : Reader Char Unit := char '#' *> discard (takeWhile isPrintable)

/-- Nothing more in a line but blanks and a comment. -/
def lineEnd : Reader Char Unit := blanks *> discard (optional comment) *> (lineBreak <|> atEnd)

/-- Skips blanks, comments and line breaks. -/
def spacing : Reader Char Unit := discard (many (blanks *> discard (optional comment) *> lineBreak)) *> blanks

/-! ## Strings -/

/-- The character with a code point of so many hexadecimal digits. -/
def codePoint (digits : Nat) : Reader Char Char := do
  let n ← natural? 16 (← times digits any)
  character? n

def escaped : Reader Char Char := do
  char '\\'
  match ← any with
  | 'b' => return '\x08'
  | 't' => return '\t'
  | 'n' => return '\n'
  | 'f' => return '\x0c'
  | 'r' => return '\r'
  | '"' => return '"'
  | '\\' => return '\\'
  | 'u' => codePoint 4
  | 'U' => codePoint 8
  | _ => failure

/-- A character that stands for itself where escapes are read. -/
def unescaped : Reader Char Char := satisfying fun c => isPrintable c && c ≠ '"' && c ≠ '\\'

/-- A character that stands for itself where escapes are not read. -/
def verbatim : Reader Char Char := satisfying fun c => isPrintable c && c ≠ '\''

/-- A string within double quotes. -/
def basic : Reader Char String := do
  char '"'
  let cs ← many (unescaped <|> escaped)
  char '"'
  return String.ofList cs

/-- A string within single quotes. -/
def literal : Reader Char String := do
  char '\''
  let cs ← many verbatim
  char '\''
  return String.ofList cs

/-- A backslash at the end of a line, with all blanks and line breaks after it. -/
def continuation : Reader Char (List Char) := do
  char '\\'
  blanks
  lineBreak
  discard (many (discard (satisfying isBlank) <|> lineBreak))
  return []

/-- One or two quotes that do not end a string of several lines. -/
def innerQuotes (quote : Char) : Reader Char (List Char) := do
  let quotes ← takeWhile (· = quote)
  guard (!quotes.isEmpty && quotes.length < 3)
  return quotes

/-- The three quotes that end a string of several lines, after up to two that belong to it. -/
def outerQuotes (quote : Char) : Reader Char (List Char) := do
  let quotes ← takeWhile (· = quote)
  guard (3 ≤ quotes.length && quotes.length < 6)
  return quotes.drop 3

/-- A string of several lines.  A line break right after the opening quotes does not belong to it. -/
def severalLines (quote : Char) (piece : Reader Char (List Char)) : Reader Char String := do
  discard (times 3 (char quote))
  discard (optional lineBreak)
  let pieces ← many (piece <|> (lineBreak *> pure ['\n']) <|> innerQuotes quote)
  let last ← outerQuotes quote
  return String.ofList (pieces.flatten ++ last)

/-- A string in any spelling. -/
def string : Reader Char String :=
  severalLines '"' ((do return [← unescaped]) <|> continuation <|> (do return [← escaped]))
    <|> basic
    <|> severalLines '\'' (do return [← verbatim])
    <|> literal

/-! ## Keys -/

/-- Whether a character may stand in a key without quotes. -/
def isBare (c : Char) : Bool := c.isAlphanum || c = '-' || c = '_'

/-- A key without dots. -/
def simpleKey : Reader Char String := basic <|> literal <|> do
  let cs ← takeWhile isBare
  guard (!cs.isEmpty)
  return String.ofList cs

/-- A key has fewer parts than this. -/
def maxParts : Nat := 80

/-- A key: the parts before the last, and the last. -/
def key : Reader Char (List String × String) := do
  let parts ← separatedBy (char '.') (blanks *> simpleKey <* blanks)
  guard (parts.length < maxParts)
  return (parts.dropLast, ← parts.getLast?)

end SoftLinear.Toml
