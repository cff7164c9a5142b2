import SoftLinear.Decimal.Basic
import SoftLinear.Settings.Basic

/-!
# Variants in files

A relaxation or a selector is written as the name of its kind with numbers: either labelled, in any order and with gaps,
or all of them in order.  What a file format has to supply is a `Variant`; `RelaxationSettings.ofVariant?` and
`SelectorSettings.ofVariant?` read it.
-/

namespace SoftLinear

/-- A value in a file, as far as it can matter for a number. -/
inductive Datum where
  /-- The null of formats that have one: the number is not given. -/
  | null
  | integer (n : Int)
  | float (x : Float)
  | other
  deriving Repr

/-- What a value in a file is labelled with. -/
inductive Label where
  | name (s : String)
  | position (n : Nat)
  | other
  deriving DecidableEq, Repr

/-- The numbers of a variant: all of them in order, or some of them with a label each. -/
inductive Body where
  | listed (items : List Datum)
  | labelled (entries : List (Label × Datum))
  deriving Repr

/-- The name of a kind with its numbers. -/
structure Variant where
  kind : String
  body : Body
  deriving Repr

/-- The label under which files give the kind of a variant. -/
def Variant.kindLabel : String := "type"

namespace Datum

/-- A count below a limit, or none if it is not given. -/
def count? (limit : Nat) : Datum → Option (Option Nat)
  | null => some none
  | integer n => if 0 ≤ n && n < limit then some (some n.toNat) else none
  | _ => none

def countLimit : Nat := Nat.pow 2 64

/-- The nearest scalar to an integer. -/
def scalarOf (n : Int) : Float :=
  let magnitude := Decimal.toFloat n.natAbs 0
  if n < 0 then -magnitude else magnitude

/-- A scalar, or none if it is not given. -/
def scalar? : Datum → Option (Option Float)
  | null => some none
  | integer n => some (some (scalarOf n))
  | float x => some (some x)
  | other => none

end Datum

namespace Label

/-- The position of the number that a label stands for, none for labels that are not known; some labels are refused. -/
def position? (names : List String) : Label → Option (Option Nat)
  | name s => some (names.idxOf? s)
  | position n => some (if n < names.length then some n else none)
  | other => none

end Label

namespace Body

/-- Puts a labelled value in its place, which has to be free. -/
def place (names : List String) (slots : List (Option Datum)) : Label × Datum → Option (List (Option Datum))
  | (label, d) => do
    match ← label.position? names with
    | none => return slots
    | some n => match slots[n]? with
      | some none => return slots.set n (some d)
      | _ => none

/-- The numbers with the given names, in order; a label that is missing gives a null. -/
def numbers? (names : List String) : Body → Option (List Datum)
  | listed items => if items.length = names.length then some items else none
  | labelled entries => do
    let slots ← entries.foldlM (place names) (names.map fun _ => none)
    return slots.map (·.getD .null)

/-- Whether a body can belong to a variant that has no numbers. -/
def isIdle : Body → Bool
  | listed items => items.isEmpty
  | labelled _ => true

end Body

open Datum in
/-- The relaxation that a variant describes. -/
def RelaxationSettings.ofVariant? (v : Variant) : Option (RelaxationSettings Float) :=
  match v.kind with
  | "kaczmarz" => do
    match ← v.body.numbers? ["max_iterations", "relaxation_factor", "cooling_factor"] with
    | [budget, factor, cooling] => return .kaczmarz (← budget.count? countLimit) (← factor.scalar?) (← cooling.scalar?)
    | _ => none
  | "gauss_seidel" => do
    match ← v.body.numbers? ["max_iterations", "relaxation_factor"] with
    | [budget, factor] => return .gaussSeidel (← budget.count? countLimit) (← factor.scalar?)
    | _ => none
  | "force_directed" => do
    match ← v.body.numbers? ["max_iterations", "cooling_factor", "hard_sweeps"] with
    | [budget, cooling, sweeps] =>
      return .forceDirected (← budget.count? countLimit) (← cooling.scalar?) (← sweeps.count? countLimit)
    | _ => none
  | _ => none

open Datum in
/-- The selector that a variant describes.  Retries are counted in 32 bits. -/
def SelectorSettings.ofVariant? (v : Variant) : Option SelectorSettings :=
  match v.kind with
  | "deterministic" => if v.body.isIdle then some .deterministic else none
  | "two_phase" => do
    match ← v.body.numbers? ["distance"] with
    | [distance] => return .twoPhase (← distance.count? countLimit)
    | _ => none
  | "random" => do
    match ← v.body.numbers? ["max_retries"] with
    | [retries] => return .uniform (← retries.count? (Nat.pow 2 32))
    | _ => none
  | _ => none

end SoftLinear
