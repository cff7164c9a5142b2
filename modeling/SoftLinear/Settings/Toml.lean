import SoftLinear.Settings.Variant
import SoftLinear.Toml.Document

/-!
# Settings in TOML

Keys that are not known are ignored.  Scalars may be written as integers.
-/

namespace SoftLinear

namespace Toml.Value

/-- What a value can mean for a number. -/
def datum : Value → Datum
  | integer n => .integer n
  | float x => .float x
  | _ => .other

def scalar? (v : Value) : Option (Option Float) := v.datum.scalar?

def count? (v : Value) : Option (Option Nat) := v.datum.count? Datum.countLimit

def boolean? : Value → Option Bool
  | boolean b => some b
  | _ => none

/-- A variant: a table with the name of its kind, or a list that starts with it. -/
def variant? : Value → Option Variant
  | table _ entries => do
    match ← entries.lookup Variant.kindLabel with
    | text kind =>
      let others := entries.filter (·.1 ≠ Variant.kindLabel)
      return ⟨kind, .labelled (others.map fun (k, v) => (.name k, v.datum))⟩
    | _ => none
  | array (text kind :: items) => some ⟨kind, .listed (items.map datum)⟩
  | _ => none

/-- Whether a value is a list or a table without parts. -/
def isEmpty : Value → Bool
  | array items => items.isEmpty
  | table _ entries => entries.isEmpty
  | _ => false

/-- A strategy: its name, or a table with the name as its one key and nothing under it. -/
def strategy? : Value → Option Strategy
  | text name => Strategy.ofWord? name
  | table _ [(name, v)] => if v.isEmpty then Strategy.ofWord? name else none
  | _ => none

/-- Settings for conflicts: a table, or a list of strategy and budget.  A moment says nothing and counts as an empty
table. -/
def conflict? : Value → Option ConflictSettings
  | table _ entries => do
    let strategy ← match entries.lookup "strategy" with
      | some v => v.strategy?
      | none => some .binarySearch
    let budget ← match entries.lookup "max_iterations" with
      | some v => v.count?
      | none => some none
    return { strategy, budget }
  | array (strategy :: budget :: _) => do return { strategy := ← strategy.strategy?, budget := ← budget.count? }
  | moment => some {}
  | _ => none

end Toml.Value

namespace Settings

/-- Takes an entry of a document in. -/
def addToml (s : Settings Float) : String × Toml.Value → Option (Settings Float)
  | ("tolerance", v) => do return { s with tolerance := ← v.scalar? }
  | ("reset", v) => do return { s with reset := ← v.boolean? }
  | ("random_seed", v) => do return { s with seed := ← v.count? }
  | ("relaxation", v) => do return { s with relaxation := ← RelaxationSettings.ofVariant? (← v.variant?) }
  | ("pivot_selector", v) => do return { s with selector := ← SelectorSettings.ofVariant? (← v.variant?) }
  | ("conflict_resolution", v) => do return { s with conflict := some (← v.conflict?) }
  | _ => some s

/-- Settings from a TOML document. -/
def ofToml? (text : String) : Option (Settings Float) := do
  (← Toml.read? text).foldlM addToml {}

end Settings

end SoftLinear
