import SoftLinear.Yaml.Lexer
import SoftLinear.Yaml.Node

/-!
# YAML documents

The node that the tokens of a text describe.
-/

namespace SoftLinear.Yaml

/-- The rest of the tokens, and the names given so far. -/
structure Parser where
  tokens : List Token
  /-- The number of each name; the last use of a name counts. -/
  names : List (String × Nat) := []

abbrev Parse (β : Type) := StateT Parser Option β

namespace Parse

variable {β : Type}

/-- The next token, which stays. -/
def peek : Parse (Option Token) := do return (← get).tokens.head?

def skip : Parse Unit := modify fun p => { p with tokens := p.tokens.drop 1 }

/-- Whether the next token is one of some. -/
def isNext (ts : List Token) : Parse Bool := do return (← peek).any ts.contains

/-- Takes a token, if it is the next. -/
def accept (t : Token) : Parse Bool := do
  let found ← isNext [t]
  if found then skip
  return found

/-- Values as long as a step gives one; the step is told whether it is the first. -/
def collect (step : Bool → Parse (Option β)) (first : Bool) : Parse (List β) := fun p =>
  match step first p with
  | none => none
  | some (none, p') => some ([], p')
  | some (some b, p') =>
    if p'.tokens.length < p.tokens.length then
      (collect step false p').map fun (bs, p) => (b :: bs, p)
    else none
termination_by p => p.tokens.length

/-- A node, or nothing before some tokens. -/
def nodeUnless (ends : List Token) (node : Parse Node) : Parse Node := do
  if ← isNext ends then return .empty else node

/-- A value after its colon, or nothing. -/
def valueUnless (ends : List Token) (node : Parse Node) : Parse Node := do
  if ← accept .value then nodeUnless ends node else return .empty

/-! ## Blocks -/

/-- The entries of a block of dashed entries. -/
def blockItems (node : Parse Node) : Parse (List Node) :=
  collect (fun _ => do
    if ← accept .entry then return some (← nodeUnless [.entry, .blockEnd] node)
    else
      guard (← accept .blockEnd)
      return none) true

/-- Dashed entries that are not indented below their key. -/
def flushItems (node : Parse Node) : Parse (List Node) :=
  collect (fun _ => do
    if ← accept .entry then return some (← nodeUnless [.entry, .key, .value, .blockEnd] node)
    else return none) true

/-- The keys and values of a block. -/
def blockEntries (node : Parse Node) : Parse (List (Node × Node)) :=
  collect (fun _ => do
    let ends : List Token := [.key, .value, .blockEnd]
    if ← accept .key then
      let key ← nodeUnless ends node
      return some (key, ← valueUnless ends node)
    else
      guard (← accept .blockEnd)
      return none) true

/-! ## Brackets and braces -/

/-- Before an item within brackets: whether there is one.  A comma divides it from the item before. -/
def hasItem (close : Token) (first : Bool) : Parse Bool := do
  if ← accept close then return false
  if first then return true
  guard (← accept .comma)
  return !(← accept close)

/-- A key with its value as an item of a list. -/
def pair (node : Parse Node) : Parse Node := do
  let key ← if ← isNext [.value, .comma, .closeBracket] then skip *> pure .empty else node
  return .mapping {} [(key, ← valueUnless [.comma, .closeBracket] node)]

/-- The items within brackets. -/
def flowItems (node : Parse Node) : Parse (List Node) :=
  collect (fun first => do
    if ← hasItem .closeBracket first then
      if ← accept .key then return some (← pair node) else return some (← node)
    else return none) true

/-- The keys and values within braces. -/
def flowEntries (node : Parse Node) : Parse (List (Node × Node)) :=
  collect (fun first => do
    if ← hasItem .closeBrace first then
      if ← accept .key then
        let key ← nodeUnless [.value, .comma, .closeBrace] node
        return some (key, ← valueUnless [.comma, .closeBrace] node)
      else return some (← node, .empty)
    else return none) true

/-! ## Properties -/

/-- Gives a name to the node that comes.  A name gets the number of names known before it. -/
def giveName (name : String) : Parse Nat := do
  let p ← get
  let number := p.names.length
  set { p with names := (name, number) :: p.names.filter (·.1 ≠ name) }
  return number

/-- An anchor, if one comes. -/
def anchor : Parse (Option Nat) := do
  match ← peek with
  | some (.anchor name) =>
    skip
    return some (← giveName name)
  | _ => return none

/-- A tag, if one comes.  Its handle has to be known. -/
def tag (handles : List (String × String)) : Parse (Option String) := do
  match ← peek with
  | some (.tag handle suffix) =>
    skip
    if handle.isEmpty then return some suffix
    return some ((← handles.lookup handle) ++ suffix)
  | _ => return none

/-- An anchor and a tag in either order. -/
def properties (handles : List (String × String)) : Parse Properties := do
  match ← anchor with
  | some n => return { anchor := n, tag := ← tag handles }
  | none =>
    match ← tag handles with
    | some t => return { anchor := ← anchor, tag := t }
    | none => return {}

/-! ## Nodes -/

/-- Which nodes can come. -/
inductive Context where
  | flow
  | block
  /-- Blocks, and dashed entries that are not indented. -/
  | flush
  deriving DecidableEq, Repr

/-- The content of a node with given properties.  The tag of a single exclamation mark says nothing about a scalar. -/
def content (node : Context → Parse Node) (context : Context) (p : Properties) : Parse Node := do
  let t ← peek
  if t = some .entry && context = .flush then return .sequence p (← flushItems (node .block))
  match t with
  | some (.scalar style text) =>
    skip
    return .scalar (if p.tag = some "!" then { p with tag := none } else p) style text
  | some .openBracket => skip *> (do return .sequence p (← flowItems (node .flow)))
  | some .openBrace => skip *> (do return .mapping p (← flowEntries (node .flow)))
  | some .sequenceStart =>
    guard (context ≠ .flow)
    skip
    return .sequence p (← blockItems (node .block))
  | some .mappingStart =>
    guard (context ≠ .flow)
    skip
    return .mapping p (← blockEntries (node .flush))
  | _ =>
    guard (p ≠ {})
    return .scalar p .plain ""

/-- A node with so many levels at most. -/
def node (handles : List (String × String)) : Nat → Context → Parse Node
  | 0, _ => failure
  | levels + 1, context => do
    match ← peek with
    | some (.reference name) =>
      skip
      return .reference (← (← get).names.lookup name)
    | _ => content (node handles levels) context (← properties handles)

/-! ## The document -/

/-- The handles that need not be declared. -/
def usualHandles : List (String × String) := [("!", "!"), ("!!", "tag:yaml.org,2002:")]

/-- The handles that directives declare.  Of versions one may be given, and it has to be known; no handle is declared
twice. -/
def handles? (directives : List Token) : Option (List (String × String)) := do
  let versions := directives.filterMap fun
    | .version major minor => some (major, minor)
    | _ => none
  guard (versions.length < 2 && versions.all fun v => v = (1, 1) || v = (1, 2))
  let declared := directives.filterMap fun
    | .tagHandle handle stem => some (handle, stem)
    | _ => none
  guard (declared.map (·.1)).Nodup
  return declared ++ usualHandles

/-- Whether a token is a directive. -/
def isDirective : Token → Bool
  | .version _ _ => true
  | .tagHandle _ _ => true
  | _ => false

/-- The only document of a text, if it has one. -/
def document : Parse (Option Node) := do
  let p ← get
  if p.tokens.isEmpty then return none
  let directives := p.tokens.takeWhile isDirective
  set { p with tokens := p.tokens.dropWhile isDirective }
  let handles ← handles? directives
  let marked ← accept .documentStart
  guard (marked || directives.isEmpty)
  let next ← peek
  let root ←
    if marked && next.all (fun t => isDirective t || t = .documentStart || t = .documentEnd) then pure .empty
    else node handles p.tokens.length .block
  let p ← get
  guard ((p.tokens.dropWhile (· = .documentEnd)).isEmpty)
  return root

end Parse

/-- The document of a text, if it has one; a text with two is refused. -/
def read? (text : String) : Option (Option Node) := do
  return (← Parse.document.run { tokens := ← tokens? text }).1

end SoftLinear.Yaml
