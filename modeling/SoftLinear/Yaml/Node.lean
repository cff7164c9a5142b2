import SoftLinear.Yaml.Token

/-!
# YAML nodes

A document is a tree of scalars, sequences and mappings.  A node may have a name by which aliases refer to it; names are
numbers here.
-/

namespace SoftLinear.Yaml

/-- What stands before a node. -/
structure Properties where
  /-- The number by which aliases refer to the node. -/
  anchor : Option Nat := none
  tag : Option String := none
  deriving DecidableEq, Repr

/-- A node. -/
inductive Node where
  | scalar (properties : Properties) (style : Style) (text : String)
  | sequence (properties : Properties) (items : List Node)
  | mapping (properties : Properties) (entries : List (Node × Node))
  | reference (number : Nat)
  deriving Repr

namespace Node

/-- The scalar that stands where nothing is written. -/
def empty : Node := .scalar {} .plain ""

/-- A node, if it has a number. -/
def ifNumbered (number : Nat) (p : Properties) (node : Node) : Option Node :=
  if p.anchor = some number then some node else none

mutual

/-- The last node with a number that begins within a node. -/
def find? (number : Nat) : Node → Option Node
  | scalar p style text => ifNumbered number p (scalar p style text)
  | sequence p items => findInItems? number items <|> ifNumbered number p (sequence p items)
  | mapping p entries => findInEntries? number entries <|> ifNumbered number p (mapping p entries)
  | reference _ => none

def findInItems? (number : Nat) : List Node → Option Node
  | [] => none
  | item :: items => findInItems? number items <|> find? number item

def findInEntries? (number : Nat) : List (Node × Node) → Option Node
  | [] => none
  | (key, value) :: entries => findInEntries? number entries <|> find? number value <|> find? number key

end

mutual

/-- How often nodes begin and lists and mappings end within a node. -/
def size : Node → Nat
  | scalar _ _ _ => 1
  | sequence _ items => 2 + sizeOfItems items
  | mapping _ entries => 2 + sizeOfEntries entries
  | reference _ => 1

def sizeOfItems : List Node → Nat
  | [] => 0
  | item :: items => size item + sizeOfItems items

def sizeOfEntries : List (Node × Node) → Nat
  | [] => 0
  | (key, value) :: entries => size key + size value + sizeOfEntries entries

end

end Node

end SoftLinear.Yaml
