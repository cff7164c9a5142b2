import SoftLinear.Settings.Variant
import SoftLinear.Yaml.Document
import SoftLinear.Yaml.Plain

/-!
# Settings in YAML

Keys that are not known are ignored, with all that stands under them.  A null means that a setting is not given.
-/

namespace SoftLinear

namespace Yaml

abbrev Follow (β : Type) := StateT Nat Option β

/-- For every node, aliases may be followed so often. -/
def followsPerNode : Nat := 100

/-- Lists and mappings that are read are nested this deep at most. -/
def maxLevels : Nat := 128

/-! ## Nodes of any kind -/

/-- The node that a node means. -/
def follow (root : Node) : Node → Follow Node
  | .reference number => do
    let left ← get
    guard (left ≠ 0)
    set (left - 1)
    root.find? number
  | node => pure node

/-- The text of a scalar, however it is written. -/
def text (root node : Node) : Follow String := do
  match ← follow root node with
  | .scalar _ _ s => return s
  | _ => failure

/-- The meaning of a node, which has none of its own if it is a list or a mapping.  All that stands in it has to have a
meaning. -/
def content (root : Node) (levels : Nat) (node : Node) : Follow (Option Plain) := do
  match ← follow root node, levels with
  | .scalar p style s, _ => return some (← meaning? p.tag style s)
  | .sequence p items, levels + 1 =>
    guard (localName? p.tag).isNone
    items.forM fun item => discard (content root levels item)
    return none
  | .mapping p entries, levels + 1 =>
    guard (localName? p.tag).isNone
    entries.forM fun (key, value) => do
      discard (content root levels key)
      discard (content root levels value)
    return none
  | _, _ => failure

/-- What a meaning can be for a number. -/
def Plain.datum : Option Plain → Datum
  | some .null => .null
  | some (.natural n) => .integer n
  | some (.negative n) => .integer (-n)
  | some (.float x) => .float x
  | _ => .other

/-- What a meaning can be for a label. -/
def Plain.label : Option Plain → Label
  | some (.text s) => .name s
  | some (.natural n) => .position n
  | _ => .other

/-- The levels left within the parts of a variant, which is a part of the document. -/
def variantLevels : Nat := maxLevels - 2

/-- Takes an entry of a variant in: its kind, which is given once, or a number. -/
def variantEntry (root : Node) (v : Option String × List (Label × Datum)) (entry : Node × Node) :
    Follow (Option String × List (Label × Datum)) := do
  let key := Plain.label (← content root variantLevels entry.1)
  if key = .name Variant.kindLabel then
    guard v.1.isNone
    return (some (← text root entry.2), v.2)
  else
    return (v.1, v.2 ++ [(key, Plain.datum (← content root variantLevels entry.2))])

/-- A variant: a mapping with the name of its kind, or a list that starts with it. -/
def variant (root node : Node) : Follow Variant := do
  match ← follow root node with
  | .mapping p entries =>
    guard (localName? p.tag).isNone
    let (kind, numbers) ← entries.foldlM (variantEntry root) (none, [])
    return ⟨← kind, .labelled numbers⟩
  | .sequence p (first :: items) =>
    guard (localName? p.tag).isNone
    let kind ← text root first
    return ⟨kind, .listed (← items.mapM fun item => do return Plain.datum (← content root variantLevels item))⟩
  | _ => failure

/-! ## Nodes of a known kind -/

/-- The text of a scalar for a kind of value: it has to be plain, or a literal block with the tag of the kind. -/
def textFor (kind : String) : Node → Follow String
  | .scalar p style s => do
    guard (style = .plain || (style = .literal && p.tag = some (commonTag kind)))
    return s
  | _ => failure

/-- Whether a node says that a setting is not given. -/
def isUnset : Node → Follow Bool
  | .scalar p .plain s => do
    match p.tag with
    | some t =>
      guard (t ≠ commonTag "null" || isNull s)
      return t = commonTag "null"
    | none => return s.isEmpty || isNull s
  | _ => return false

/-- A setting that need not be given. -/
def given {β : Type} (read : Node → Follow β) (root node : Node) : Follow (Option β) := do
  let node ← follow root node
  if ← isUnset node then return none else return some (← read node)

def scalar (node : Node) : Follow Float := do float? (← textFor "float" node)

def count (node : Node) : Follow Nat := do
  let n ← unsigned? (← textFor "int" node)
  guard (n < Datum.countLimit)
  return n

def boolean (root node : Node) : Follow Bool := do boolean? (← textFor "bool" (← follow root node))

/-- The entries with the given keys, each of which may occur once.  All keys have to be scalars; where nothing is
written, there are no entries. -/
def fields (root : Node) (keys : List String) : Node → Follow (List (String × Node))
  | .mapping _ entries => do
    let named ← entries.mapM fun (key, value) => do return (← text root key, value)
    let known := named.filter (keys.contains ·.1)
    guard (known.map (·.1)).Nodup
    return known
  | .scalar _ .plain "" => return []
  | _ => failure

/-- A strategy: its name, or a tag with its name and nothing after it. -/
def strategy (root node : Node) : Follow Strategy := do
  match ← follow root node with
  | .scalar p style s =>
    match localName? p.tag with
    | some name =>
      guard (style = .plain && (s.isEmpty || isNull s))
      Strategy.ofWord? name
    | none => Strategy.ofWord? s
  | _ => failure

/-- Takes an entry of the settings for conflicts in. -/
def addConflict (root : Node) (c : ConflictSettings) : String × Node → Follow ConflictSettings
  | ("strategy", node) => do return { c with strategy := ← strategy root node }
  | ("max_iterations", node) => do return { c with budget := ← given count root node }
  | _ => return c

def conflict (root node : Node) : Follow ConflictSettings := do
  (← fields root ["strategy", "max_iterations"] node).foldlM (addConflict root) {}

end Yaml

namespace Settings

open Yaml in
/-- Takes an entry of a document in. -/
def addYaml (root : Node) (s : Settings Float) : String × Node → Follow (Settings Float)
  | ("tolerance", node) => do return { s with tolerance := ← given scalar root node }
  | ("reset", node) => do return { s with reset := ← boolean root node }
  | ("random_seed", node) => do return { s with seed := ← given count root node }
  | ("relaxation", node) => do return { s with relaxation := ← RelaxationSettings.ofVariant? (← variant root node) }
  | ("pivot_selector", node) => do return { s with selector := ← SelectorSettings.ofVariant? (← variant root node) }
  | ("conflict_resolution", node) => do return { s with conflict := ← given (Yaml.conflict root) root node }
  | _ => return s

def keys : List String :=
  ["tolerance", "reset", "random_seed", "relaxation", "pivot_selector", "conflict_resolution"]

open Yaml in
/-- Settings from the root of a document. -/
def ofNode (root : Node) : Follow (Settings Float) := do
  (← fields root keys root).foldlM (addYaml root) {}

open Yaml in
/-- Settings from a YAML document. -/
def ofYaml? (text : String) : Option (Settings Float) := do
  match ← Yaml.read? text with
  | none => return {}
  | some root => return (← (ofNode root).run (followsPerNode * root.size)).1

end Settings

end SoftLinear
