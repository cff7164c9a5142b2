import SoftLinear.Text.Reader
import SoftLinear.Yaml.Token

/-!
# YAML scalars

Scalars without quotes, within quotes, and as blocks.  A line break within the first two is folded: alone it counts as a
space, and of several the first does not count.
-/

namespace SoftLinear.Yaml

/-! ## Gaps -/

/-- Blanks and line breaks between two words. -/
structure Gap where
  blanks : List Char := []
  breaks : List Char := []
  deriving DecidableEq, Repr

/-- What a gap counts as. -/
def Gap.text (g : Gap) : List Char :=
  match g.breaks with
  | [] => g.blanks
  | ['\n'] => [' ']
  | '\n' :: others => others
  | breaks => breaks

/-- The rest of a gap.  After a break, tabs left of a column are refused. -/
def gapFrom (limit : Nat) (g : Gap) : Scan Gap := fun
  | x :: rest =>
    if isBreak x.char then gapFrom limit { g with breaks := g.breaks ++ [x.char] } rest
    else if isBlank x.char then
      if g.breaks.isEmpty then gapFrom limit { g with blanks := g.blanks ++ [x.char] } rest
      else if x.char = '\t' && x.column < limit then none
      else gapFrom limit g rest
    else some (g, x :: rest)
  | [] => some (g, [])

/-! ## Plain scalars -/

/-- A word of a plain scalar.  Within brackets a colon may not stand right before a bracket, a comma or a question
mark. -/
def plainWord (inFlow : Bool) : Scan (List Char) := fun
  | [] => some ([], [])
  | x :: rest =>
    let next := ahead 0 rest
    if isGap (some x.char) then some ([], x :: rest)
    else if inFlow && x.char = ':' && next.any ",?[]\x7b\x7d".toList.contains then none
    else if x.char = ':' && isGap next then some ([], x :: rest)
    else if inFlow && ",[]\x7b\x7d".toList.contains x.char then some ([], x :: rest)
    else (plainWord inFlow rest).map fun (w, rest) => (x.char :: w, rest)

/-- Whether a plain scalar cannot go on here: a document ends, a comment begins, or the line is not indented enough. -/
def endsPlain (inFlow : Bool) (indent : Nat) (s : List Located) : Bool :=
  match s with
  | [] => true
  | x :: _ => isDocumentEdge s || x.char = '#' || (!inFlow && x.column < indent)

/-- The rest of a plain scalar after some text; the flag tells whether a line break was read behind it. -/
def plainFrom (inFlow : Bool) (indent : Nat) (text : List Char) (s : List Located) :
    Option ((List Char × Bool) × List Located) :=
  match gapFrom indent {} s with
  | none => none
  | some (g, rest) =>
    if endsPlain inFlow indent rest then some ((text, !g.breaks.isEmpty), rest)
    else match plainWord inFlow rest with
      | none => none
      | some (w, rest') =>
        if w.isEmpty then some ((text, !g.breaks.isEmpty), rest)
        -- always so, since the word is not empty
        else if rest'.length < s.length then plainFrom inFlow indent (text ++ g.text ++ w) rest'
        else none
termination_by s.length

/-- A plain scalar; the flag tells whether a line break was read behind it. -/
def plain (inFlow : Bool) (indent : Nat) : Scan (String × Bool) := do
  let first ← plainWord inFlow
  let (text, broken) ← plainFrom inFlow indent first
  return (String.ofList text, broken)

/-! ## Quoted scalars -/

/-- The character with a code point of so many hexadecimal digits. -/
def codePoint (digits : Nat) : Scan Char := do
  let n ← natural? 16 (← Reader.times digits (one fun _ => true))
  character? n

def escaped : Scan Char := do
  mark '\\'
  match ← one fun _ => true with
  | '0' => return '\x00'
  | 'a' => return '\x07'
  | 'b' => return '\x08'
  | 't' => return '\t'
  | '\t' => return '\t'
  | 'n' => return '\n'
  | 'v' => return '\x0b'
  | 'f' => return '\x0c'
  | 'r' => return '\r'
  | 'e' => return '\x1b'
  | ' ' => return ' '
  | '"' => return '"'
  | '/' => return '/'
  | '\\' => return '\\'
  | 'N' => return '\u0085'
  | '_' => return '\u00a0'
  | 'L' => return '\u2028'
  | 'P' => return '\u2029'
  | 'x' => codePoint 2
  | 'u' => codePoint 4
  | 'U' => codePoint 8
  | _ => failure

/-- A gap within quotes; no document may begin or end after it. -/
def quotedGap (g : Gap) : Scan Gap := do
  let g ← gapFrom 0 g
  guard (!isDocumentEdge (← get))
  return g

/-- An escaped line break with the blanks and breaks after it, of which only the breaks count. -/
def escapedBreak : Scan (List Char) := do
  mark '\\'
  let c ← one isBreak
  return (← quotedGap { breaks := [c] }).breaks.drop 1

/-- A scalar within quotes. -/
def quotedBy (quote : Char) (piece : Scan (List Char)) : Scan String := do
  mark quote
  let pieces ← Reader.many (piece <|> (do return (← quotedGap {}).text))
  mark quote
  return String.ofList pieces.flatten

/-- A scalar within single quotes; a quote in it is written twice. -/
def singleQuoted : Scan String :=
  quotedBy '\'' ((mark '\'' *> mark '\'' *> pure ['\''])
    <|> (do return [← one fun c => c ≠ '\'' && !isGap (some c)]))

/-- A scalar within double quotes, with escapes. -/
def doubleQuoted : Scan String :=
  quotedBy '"' ((do return [← one fun c => c ≠ '"' && c ≠ '\\' && !isGap (some c)])
    <|> escapedBreak
    <|> (do return [← escaped]))

/-! ## Block scalars -/

/-- What happens to the line breaks at the end of a block: they go, the first stays, or they all stay. -/
inductive Chomping where
  | strip
  | clip
  | keep
  deriving DecidableEq, Repr

/-- The sign that tells what happens to the line breaks at the end. -/
def chomping : Scan Chomping := (mark '+' *> pure .keep) <|> (mark '-' *> pure .strip)

/-- The digit that tells by how much a block is indented. -/
def increment : Scan Nat := do
  let n ← digit? 10 (← one Char.isDigit)
  guard (n ≠ 0)
  return n

/-- The first line of a block scalar: chomping and indentation in either order.  A digit that is a zero is refused. -/
def blockHeader : Scan (Chomping × Option Nat) := do
  let header ← (do
      let c ← chomping
      return (c, ← optional increment))
    <|> (do
      let n ← increment
      return ((← optional chomping).getD .clip, some n))
    <|> pure (.clip, none)
  lineEnd
  return header

/-- Line breaks and indentation before a line with content, with the deepest column reached.  The indentation is at most
a given one; zero stands for an indentation that is still to be found.  A tab in it is refused. -/
def blockBreaks (indent deepest : Nat) (breaks : List Char) : Scan (List Char × Nat) := fun
  | x :: rest =>
    let within := indent = 0 || x.column < indent
    let deepest := max deepest x.column
    if within && x.char = ' ' then blockBreaks indent deepest breaks rest
    else if within && x.char = '\t' then none
    else if isBreak x.char then blockBreaks indent deepest (breaks ++ [x.char]) rest
    else some ((breaks, deepest), x :: rest)
  | [] => some ((breaks, deepest), [])

/-- The text of a block so far, before the next line with content. -/
structure BlockText where
  text : List Char := []
  /-- The break after the last line. -/
  lineBreak : List Char := []
  /-- The breaks of empty lines after it. -/
  others : List Char
  startsBlank : Bool := false

/-- Adds a line.  In a folded block the break before it counts as a space or not at all, unless a line beside it starts
with a blank. -/
def BlockText.add (fold : Bool) (b : BlockText) (line : List Char) : List Char :=
  let startsBlank := line.head?.any isBlank
  let joint :=
    if fold && b.lineBreak = ['\n'] && !b.startsBlank && !startsBlank then if b.others.isEmpty then [' '] else []
    else b.lineBreak
  b.text ++ joint ++ b.others ++ line

/-- The lines of a block. -/
def blockLines (fold : Bool) (indent : Nat) (b : BlockText) (s : List Located) : Option (BlockText × List Located) :=
  if s.head?.any (·.column = indent) then
    let line := (s.takeWhile (!isBreak ·.char)).map (·.char)
    let rest := s.dropWhile (!isBreak ·.char)
    let lineBreak := (rest.take 1).map (·.char)
    match blockBreaks indent 0 [] (rest.drop 1) with
    | none => none
    | some ((others, _), rest) =>
      if rest.length < s.length then
        blockLines fold indent
          { text := b.add fold line, lineBreak, others, startsBlank := line.head?.any isBlank } rest
      else none
  else some (b, s)
termination_by s.length

/-- A block scalar within a block that is indented by a number of columns less one. -/
def block (fold : Bool) (least : Nat) : Scan String := do
  discard (one fun _ => true)
  let (chomping, increment) ← blockHeader
  let given := match increment with
    | some n => least - 1 + n
    | none => 0
  let (others, deepest) ← blockBreaks given 0 []
  let indent := if given = 0 then max deepest (max least 1) else given
  let b ← blockLines fold indent { others }
  return String.ofList <| match chomping with
    | .strip => b.text
    | .clip => b.text ++ b.lineBreak
    | .keep => b.text ++ b.lineBreak ++ b.others

end SoftLinear.Yaml
