import SoftLinear.Yaml.Scalar
import SoftLinear.Yaml.Tag

/-!
# The tokens of a text

Two things are not written in a YAML text and have to be found: where blocks begin and end, which columns tell, and that
something was a key, which only the colon after it tells.  So the place where a key may have begun is remembered, for
every open bracket one, until the colon comes or the line ends.
-/

namespace SoftLinear.Yaml

/-- A place where a key may have begun. -/
structure Candidate where
  /-- How many tokens stand before it. -/
  position : Nat
  start : Located
  /-- Whether it cannot be anything but a key. -/
  required : Bool
  deriving DecidableEq, Repr

/-- A key without a mark before it has at most so many characters. -/
def maxKeyLength : Nat := 1024

/-- Whether the colon of a key came too late, if it comes here. -/
def Candidate.isLate (k : Candidate) (here : Located) : Bool :=
  k.start.line < here.line || k.start.index + maxKeyLength < here.index

/-- Tokens so far, and what is known where they end. -/
structure Lexer where
  rest : List Located
  tokens : Array Token := #[]
  /-- The columns of the blocks that are open, the innermost first. -/
  indents : List Nat := []
  /-- Where a key may have begun within the innermost bracket. -/
  candidate : Option Candidate := none
  /-- Where keys may have begun outside of each open bracket, the innermost first. -/
  outer : List (Option Candidate) := []
  keyAllowed : Bool := true

abbrev Lex (β : Type) := StateT Lexer Option β

namespace Lexer

/-- Whether a bracket is open, so that columns do not matter. -/
def inFlow (l : Lexer) : Bool := !l.outer.isEmpty

/-- The least column of what belongs to the innermost block. -/
def leastColumn (l : Lexer) : Nat :=
  match l.indents with
  | column :: _ => column + 1
  | [] => 0

/-! ## Parts of steps -/

/-- Reads from the text. -/
def scan {β : Type} (s : Scan β) : Lex β := fun l => (s l.rest).map fun (b, rest) => (b, { l with rest })

def emit (t : Token) : Lex Unit := modify fun l => { l with tokens := l.tokens.push t }

/-- Tells whether a key may begin after this. -/
def allowKey (allowed : Bool) : Lex Unit := modify fun l => { l with keyAllowed := allowed }

def skip (n : Nat) : Lex Unit := modify fun l => { l with rest := l.rest.drop n }

/-- Forgets where a key may have begun, unless it had to be a key. -/
def forgetKey : Lex Unit := do
  guard (!(← get).candidate.any (·.required))
  modify fun l => { l with candidate := none }

/-- Remembers that a key may begin here. -/
def rememberKey (here : Located) : Lex Unit := do
  let l ← get
  if l.keyAllowed then
    forgetKey
    -- outside of brackets only a key begins in the column of its mapping
    let required := !l.inFlow && l.indents.head? = some here.column
    modify fun l => { l with candidate := some ⟨l.tokens.size, here, required⟩ }

/-- Forgets the candidates whose colon came too late, unless one had to be a key. -/
def forgetLate (here : Located) : Lex Unit := do
  let check (k : Option Candidate) : Lex (Option Candidate) :=
    match k with
    | some k => if k.isLate here then if k.required then failure else pure none else pure (some k)
    | none => pure none
  let l ← get
  set { l with candidate := ← check l.candidate, outer := ← l.outer.mapM check }

/-- Begins a block if a column lies right of the innermost one.  Its token may have to stand before others. -/
def indentTo (column position : Nat) (t : Token) : Lex Unit :=
  modify fun l =>
    if !l.inFlow && l.leastColumn ≤ column then
      { l with indents := column :: l.indents, tokens := l.tokens.insertIdxIfInBounds position t }
    else l

/-- Ends the blocks right of a column. -/
def dedent (isRight : Nat → Bool) : Lex Unit :=
  modify fun l =>
    if l.inFlow then l
    else
      { l with
        tokens := (l.indents.takeWhile isRight).foldl (fun ts _ => ts.push .blockEnd) l.tokens
        indents := l.indents.dropWhile isRight }

def dedentAll : Lex Unit := do
  dedent fun _ => true
  forgetKey
  allowKey false

/-! ## Steps -/

def opener (here : Located) (t : Token) : Lex Unit := do
  rememberKey here
  modify fun l => { l with outer := l.candidate :: l.outer, candidate := none }
  allowKey true
  skip 1
  emit t

def closer (t : Token) : Lex Unit := do
  forgetKey
  modify fun l =>
    match l.outer with
    | candidate :: outer => { l with candidate, outer }
    | [] => l
  allowKey false
  skip 1
  emit t

def comma : Lex Unit := do
  forgetKey
  allowKey true
  skip 1
  emit .comma

/-- A dash before an entry. -/
def entry (here : Located) : Lex Unit := do
  let l ← get
  guard (l.inFlow || l.keyAllowed)
  indentTo here.column l.tokens.size .sequenceStart
  forgetKey
  allowKey true
  skip 1
  emit .entry

/-- A question mark before a key. -/
def key (here : Located) : Lex Unit := do
  let l ← get
  guard (l.inFlow || l.keyAllowed)
  indentTo here.column l.tokens.size .mappingStart
  forgetKey
  allowKey (!l.inFlow)
  skip 1
  emit .key

/-- A colon before a value.  What may have been a key before it was one. -/
def value (here : Located) : Lex Unit := do
  let l ← get
  match l.candidate with
  | some k =>
    -- the marks of the key and of its mapping belong before what was read since
    modify fun l => { l with tokens := l.tokens.insertIdxIfInBounds k.position .key, candidate := none }
    indentTo k.start.column k.position .mappingStart
    allowKey false
  | none =>
    guard (l.inFlow || l.keyAllowed)
    indentTo here.column l.tokens.size .mappingStart
    allowKey (!l.inFlow)
  skip 1
  emit .value

/-- Something that can be a key. -/
def content (here : Located) (s : Scan Token) : Lex Unit := do
  rememberKey here
  allowKey false
  emit (← scan s)

/-- A plain scalar.  A key may begin after it in another line. -/
def plainScalar (here : Located) : Lex Unit := do
  rememberKey here
  let l ← get
  let (text, broken) ← scan (plain l.inFlow l.leastColumn)
  allowKey broken
  emit (.scalar .plain text)

/-- A block scalar. -/
def blockScalar (fold : Bool) : Lex Unit := do
  forgetKey
  allowKey true
  let text ← scan (block fold (← get).leastColumn)
  emit (.scalar (if fold then .folded else .literal) text)

/-- Characters that cannot begin a plain scalar, or only before others. -/
def indicators : List Char := "-?:,[]\x7b\x7d#&*!|>'\"%@`".toList

/-- The token that begins with a character. -/
def step (here : Located) : Lex Unit := do
  forgetLate here
  dedent (here.column < ·)
  let l ← get
  let gapNext := isGap (ahead 1 l.rest)
  if here.column = 0 && here.char = '%' then
    dedentAll
    emit (← scan directive)
  else if isDocumentMark '-' l.rest then
    dedentAll
    skip 3
    emit .documentStart
  else if isDocumentMark '.' l.rest then
    dedentAll
    skip 3
    emit .documentEnd
  else match here.char with
    | '[' => opener here .openBracket
    | '\x7b' => opener here .openBrace
    | ']' => closer .closeBracket
    | '\x7d' => closer .closeBrace
    | ',' => comma
    | '*' => content here (do return .reference (← anchorName))
    | '&' => content here (do return .anchor (← anchorName))
    | '!' => content here (tag l.inFlow)
    | '\'' => content here (do return .scalar .quoted (← singleQuoted))
    | '"' => content here (do return .scalar .quoted (← doubleQuoted))
    | '-' => if gapNext then entry here else plainScalar here
    | '?' => if l.inFlow || gapNext then key here else plainScalar here
    | ':' => if l.inFlow || gapNext then value here else plainScalar here
    | '|' => if l.inFlow then failure else blockScalar false
    | '>' => if l.inFlow then failure else blockScalar true
    | c => if isBlank c || indicators.contains c then failure else plainScalar here

/-! ## The whole text -/

/-- Skips blanks, comments and line breaks, and tells whether a key may begin after them.  A tab is skipped only where no
key may begin or within brackets; a byte order mark is skipped at the start of a line. -/
def spacing (inFlow : Bool) (comment keyAllowed : Bool) : List Located → Bool × List Located
  | [] => (keyAllowed, [])
  | x :: rest =>
    if isBreak x.char then spacing inFlow false (keyAllowed || !inFlow) rest
    else if comment || x.char = '#' then spacing inFlow true keyAllowed rest
    else if x.char = ' ' || (x.char = '\t' && (inFlow || !keyAllowed)) || (x.char = '\ufeff' && x.column = 0) then
      spacing inFlow false keyAllowed rest
    else (keyAllowed, x :: rest)

/-- All tokens of the rest of the text. -/
def run (l : Lexer) : Option (List Token) :=
  let (keyAllowed, rest) := spacing l.inFlow false l.keyAllowed l.rest
  let l' := { l with keyAllowed, rest }
  match rest with
  | [] => (dedentAll.run l').map fun (_, l) => l.tokens.toList
  | here :: _ =>
    match (step here).run l' with
    | none => none
    | some (_, l'') => if l''.rest.length < l.rest.length then run l'' else none
termination_by l.rest.length

end Lexer

def tokens? (text : String) : Option (List Token) := do
  Lexer.run { rest := ← locate? text }

end SoftLinear.Yaml
