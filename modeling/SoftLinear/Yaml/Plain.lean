import SoftLinear.Decimal.Basic
import SoftLinear.Text.Reader
import SoftLinear.Yaml.Token

/-!
# What YAML scalars mean

A plain scalar is a null, a truth value, an integer, a number or else a text; a tag can ask for one of these.
-/

namespace SoftLinear.Yaml

/-- What a scalar means. -/
inductive Plain where
  | null
  | boolean (b : Bool)
  | natural (n : Nat)
  /-- An integer with a minus sign, before its magnitude. -/
  | negative (n : Nat)
  | float (x : Float)
  | text (s : String)
  deriving Repr

/-! ## Readings of a text -/

/-- Whether a text means nothing; the empty text is a case of its own. -/
def isNull (s : String) : Bool := s = "~" || s = "null" || s = "Null" || s = "NULL"

def boolean? (s : String) : Option Bool :=
  if s = "true" || s = "True" || s = "TRUE" then some true
  else if s = "false" || s = "False" || s = "FALSE" then some false
  else none

/-- The magnitude of an integer: after a mark for its base, or decimal without zeros in front. -/
def magnitude? : List Char → Option Nat
  | '0' :: 'x' :: digits => natural? 16 digits
  | '0' :: 'o' :: digits => natural? 8 digits
  | '0' :: 'b' :: digits => natural? 2 digits
  | '0' :: _ :: _ => none
  | digits => natural? 10 digits

/-- An integer without a minus sign. -/
def unsigned? (s : String) : Option Nat :=
  match s.toList with
  | '+' :: digits => magnitude? digits
  | digits => magnitude? digits

/-- The magnitude of an integer with a minus sign. -/
def negative? (s : String) : Option Nat :=
  match s.toList with
  | '-' :: digits => magnitude? digits
  | _ => none

/-- Whether a text is a decimal integer with zeros in front, which counts as a text. -/
def isPadded (s : String) : Bool :=
  let padded (digits : List Char) : Bool := 1 < digits.length && digits.head? = some '0' && digits.all Char.isDigit
  match s.toList with
  | '+' :: digits => padded digits
  | '-' :: digits => padded digits
  | digits => padded digits

open Reader in
/-- A decimal number, with digits on at least one side of its point. -/
def decimal : Reader Char Float := do
  let negative ← sign
  let whole ← takeWhile Char.isDigit
  let fraction := (← optional (char '.' *> takeWhile Char.isDigit)).getD []
  guard (!whole.isEmpty || !fraction.isEmpty)
  let power ← optional do
    discard (satisfying fun c => c = 'e' || c = 'E')
    let negative ← sign
    let n ← natural? 10 (← takeWhile Char.isDigit)
    return if negative then -(n : Int) else n
  let x := Decimal.toFloat (decimalValue (whole ++ fraction)) (power.getD 0 - fraction.length)
  return if negative then -x else x

/-- A number; infinities and NaN have names, and a number too large to be finite is none. -/
def float? (s : String) : Option Float :=
  if [".inf", ".Inf", ".INF", "+.inf", "+.Inf", "+.INF"].contains s then some (1 / 0)
  else if ["-.inf", "-.Inf", "-.INF"].contains s then some (-1 / 0)
  else if [".nan", ".NaN", ".NAN"].contains s then some (0 / 0)
  else (decimal.whole s.toList).filter (·.isFinite)

/-! ## Meanings -/

/-- The integer that a text means, if it means one.  Integers of more than 64 bits are refused as long as they have at
most 128; larger ones are not taken for integers. -/
def integer? (s : String) : Option (Option Plain) :=
  match unsigned? s, negative? s with
  | some n, _ =>
    if n < Nat.pow 2 64 then some (some (.natural n)) else if n < Nat.pow 2 128 then none else some none
  | none, some n =>
    if n ≤ Nat.pow 2 63 then some (some (.negative n)) else if n ≤ Nat.pow 2 127 then none else some none
  | none, none => some none

/-- The meaning of a plain scalar. -/
def Plain.ofText? (s : String) : Option Plain :=
  if s.isEmpty || isNull s then some .null
  else match boolean? s with
    | some b => some (.boolean b)
    | none => do
      match ← integer? s with
      | some p => return p
      | none =>
        match if isPadded s then none else float? s with
        | some x => return .float x
        | none => return .text s

/-- Where the tags that everybody knows are kept. -/
def commonTag (name : String) : String := "tag:yaml.org,2002:" ++ name

/-- The name in a tag that only an application knows. -/
def localName? (tag : Option String) : Option String :=
  match tag.map String.toList with
  | some ['!'] => some "!"
  | some ('!' :: name) => some (String.ofList name)
  | _ => none

/-- The meaning of a scalar.  Tags that only an application knows are refused. -/
def meaning? (tag : Option String) (style : Style) (s : String) : Option Plain :=
  match tag with
  | none => if style = .plain then Plain.ofText? s else some (.text s)
  | some t =>
    if (localName? tag).isSome then none
    else if t = commonTag "bool" then (boolean? s).map .boolean
    else if t = commonTag "int" then (integer? s).join
    else if t = commonTag "float" then (float? s).map .float
    else if t = commonTag "null" then if isNull s then some .null else none
    else some (.text s)

end SoftLinear.Yaml
