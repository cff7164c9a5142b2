/-!
# Readers

A reader takes a value off the front of a list of symbols, or fails and leaves the list to the next alternative.
Repetition stops where nothing is consumed, so every reader ends.

`digit?` and `natural?` give the values of digits in bases up to sixteen, `character?` the character of a code point.
-/

namespace SoftLinear

abbrev Reader (τ β : Type) := StateT (List τ) Option β

namespace Reader

variable {τ β : Type}

/-- The next symbol, if it passes a test. -/
def satisfying (test : τ → Bool) : Reader τ τ := fun
  | x :: rest => if test x then some (x, rest) else none
  | [] => none

def any : Reader τ τ := satisfying fun _ => true

/-- The longest run of symbols that pass a test. -/
def takeWhile (test : τ → Bool) : Reader τ (List τ) := fun s => some (s.takeWhile test, s.dropWhile test)

def atEnd : Reader τ Unit := fun s => if s.isEmpty then some ((), s) else none

/-- As many values as there are, taken one after the other. -/
def many (item : Reader τ β) : Reader τ (List β) := fun s =>
  match item s with
  | none => some ([], s)
  | some (b, rest) =>
    if rest.length < s.length then
      (many item rest).map fun (bs, rest) => (b :: bs, rest)
    else some ([], s)
termination_by s => s.length

/-- Values with a separator between each two of them, or nothing. -/
def separatedBy (separator : Reader τ Unit) (item : Reader τ β) : Reader τ (List β) :=
  (do
    let first ← item
    let others ← many (separator *> item)
    return first :: others) <|> pure []

def times (n : Nat) (item : Reader τ β) : Reader τ (List β) := (List.replicate n ()).mapM fun _ => item

/-- The value a reader takes off a whole list. -/
def whole (item : Reader τ β) (s : List τ) : Option β := ((item <* atEnd) s).map (·.1)

def char (c : Char) : Reader Char Unit := discard (satisfying (· = c))

def word (w : String) : Reader Char Unit := w.toList.forM char

/-- The sign of a number, if it has one; whether it is minus. -/
def sign : Reader Char Bool := (char '-' *> pure true) <|> (char '+' *> pure false) <|> pure false

end Reader

/-! ## Digits -/

/-- The value of a digit of a base. -/
def digit? (base : Nat) (c : Char) : Option Nat :=
  let value : Option Nat :=
    if c.isDigit then some (c.toNat - '0'.toNat)
    else if 'a' ≤ c && c ≤ 'f' then some (c.toNat - 'a'.toNat + 10)
    else if 'A' ≤ c && c ≤ 'F' then some (c.toNat - 'A'.toNat + 10)
    else none
  value.filter (· < base)

def isDigitOf (base : Nat) (c : Char) : Bool := (digit? base c).isSome

/-- The number that digits of a base stand for; at least one of them is needed. -/
def natural? (base : Nat) (digits : List Char) : Option Nat :=
  if digits.isEmpty then none
  else digits.foldlM (fun n c => (digit? base c).map (base * n + ·)) 0

/-- The number that decimal digits stand for. -/
def decimalValue (digits : List Char) : Nat := digits.foldl (fun n c => 10 * n + (c.toNat - '0'.toNat)) 0

/-- The character with a code point; surrogates and numbers past the last code point have none. -/
def character? (n : Nat) : Option Char := if n.isValidChar then some (Char.ofNat n) else none

end SoftLinear
