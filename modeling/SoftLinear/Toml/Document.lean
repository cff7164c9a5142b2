import SoftLinear.Toml.Number
import SoftLinear.Toml.Text

/-!
# TOML documents

A document is a list of statements: entries, headers, and headers of lists of tables.  An entry belongs to the table of
the header above it.
-/

namespace SoftLinear.Toml

open Reader

/-! ## Values -/

/-- A value without parts. -/
def simple : Reader Char Value :=
  (do return .text (← string))
    <|> moment
    <|> float
    <|> integer
    <|> (word "true" *> pure (.boolean true))
    <|> (word "false" *> pure (.boolean false))

/-- A list of values; one more comma may follow the last. -/
def array (item : Reader Char Value) : Reader Char Value := do
  char '['
  let items ← separatedBy (char ',') (spacing *> item <* spacing)
  unless items.isEmpty do
    discard (optional (char ','))
  spacing
  char ']'
  return .array items

/-- A key with the value it is given. -/
def assignment (item : Reader Char Value) : Reader Char ((List String × String) × Value) := do
  let name ← key
  char '='
  blanks
  return (name, ← item)

def inlineTable (item : Reader Char Value) : Reader Char Value := do
  char '\x7b'
  let assignments ← separatedBy (char ',') (assignment item <* blanks)
  blanks
  char '\x7d'
  let entries ← assignments.foldlM (fun (es : Entries) ((path, key), v) => es.insert path key v .inline) []
  return .table .inline entries

/-- A value with so many levels of lists and tables at most. -/
def value : Nat → Reader Char Value
  | 0 => simple
  | levels + 1 => simple <|> array (value levels) <|> inlineTable (value levels)

/-- Lists and tables in values are nested this deep at most. -/
def maxLevels : Nat := 79

/-! ## Statements -/

/-- A line of a document. -/
inductive Statement where
  | blank
  | entry (path : List String) (key : String) (value : Value)
  | header (path : List String) (key : String)
  /-- The header of one more table in a list. -/
  | element (path : List String) (key : String)
  deriving Repr

def statement : Reader Char Statement := do
  let s ← (do
      word "[["
      let (path, key) ← key
      word "]]"
      return .element path key)
    <|> (do
      char '['
      let (path, key) ← key
      char ']'
      return .header path key)
    <|> (do
      let ((path, key), value) ← assignment (value maxLevels)
      return .entry path key value)
    <|> pure .blank
  lineEnd
  return s

/-- The lines of a document; a byte order mark may stand before them. -/
def statements : Reader Char (List Statement) := discard (optional (char '\ufeff')) *> many (blanks *> statement) <* blanks

/-- Entries so far, with the path to the table of the last header. -/
structure Draft where
  entries : Entries := []
  path : List String := []

/-- Takes a statement in. -/
def Draft.add (d : Draft) : Statement → Option Draft
  | .blank => some d
  | .entry path key value => do
    return { d with entries := ← d.entries.update .implied (Entries.insert path key value) d.path .header }
  | .header path key => do return ⟨← d.entries.open? path key, path ++ [key]⟩
  | .element path key => do return ⟨← d.entries.extend? path key, path ++ [key]⟩

/-- The entries of a document. -/
def read? (text : String) : Option Entries := do
  let lines ← statements.whole text.toList
  return (← lines.foldlM Draft.add {}).entries

end SoftLinear.Toml
