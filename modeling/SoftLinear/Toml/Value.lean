/-!
# TOML values

A table remembers how it came about, because that decides who may add to it: dotted keys add to tables that dotted keys
made, headers add to tables that other headers only implied, and nobody adds to an inline table.
-/

namespace SoftLinear.Toml

/-- How a table came about. -/
inductive Origin where
  /-- By its own header; so did the document as a whole. -/
  | header
  /-- By a longer header that passes through it. -/
  | implied
  /-- By a dotted key that passes through it. -/
  | dotted
  | inline
  deriving DecidableEq, Repr

/-- What a key can stand for. -/
inductive Value where
  | text (s : String)
  | integer (n : Int)
  | float (x : Float)
  | boolean (b : Bool)
  /-- A date, a time or both. -/
  | moment
  | array (items : List Value)
  | table (origin : Origin) (entries : List (String × Value))
  /-- A list of tables, each with a header of its own. -/
  | tables (elements : List (List (String × Value)))
  deriving Repr

/-- Keys and what they stand for, no key twice. -/
abbrev Entries := List (String × Value)

namespace Entries

/-- Changes what a key stands for. -/
def replace (entries : Entries) (key : String) (value : Value) : Entries :=
  entries.map fun (k, v) => if k = key then (k, value) else (k, v)

/-- Whether a path may pass through a table, making tables of a given origin on its way. -/
def passes (made : Origin) : Origin → Bool
  | .inline => false
  | .header => made ≠ .dotted
  | _ => true

/-- Changes the table at the end of a path.  Missing tables on the way are made, and a list of tables is entered by its
last element. -/
def update (made : Origin) (change : Origin → Entries → Option Entries) :
    List String → Origin → Entries → Option Entries
  | [], origin, entries => change origin entries
  | key :: path, _, entries =>
    match entries.lookup key with
    | none => do
      let child ← update made change path made []
      return entries ++ [(key, .table made child)]
    | some (.table origin child) => do
      guard (passes made origin)
      let child ← update made change path origin child
      return entries.replace key (.table origin child)
    | some (.tables elements) => do
      let last ← elements.getLast?
      let last ← update made change path .header last
      return entries.replace key (.tables (elements.dropLast ++ [last]))
    | some _ => none

/-- Adds an entry at the end of a dotted path; the key has to be new, and a path that is not empty has to end in a table
that dotted keys made. -/
def insert (path : List String) (key : String) (value : Value) (origin : Origin) (entries : Entries) : Option Entries :=
  update .dotted
    (fun origin entries =>
      if decide (origin = .dotted) == path.isEmpty || (entries.lookup key).isSome then none
      else some (entries ++ [(key, value)]))
    path origin entries

/-- Opens the table of a header. -/
def open? (path : List String) (key : String) (entries : Entries) : Option Entries :=
  update .implied
    (fun _ entries =>
      match entries.lookup key with
      | none => some (entries ++ [(key, .table .header [])])
      | some (.table .implied child) => some (entries.replace key (.table .header child))
      | some _ => none)
    path .header entries

/-- Opens one more table in the list of tables of a header. -/
def extend? (path : List String) (key : String) (entries : Entries) : Option Entries :=
  update .implied
    (fun _ entries =>
      match entries.lookup key with
      | none => some (entries ++ [(key, .tables [[]])])
      | some (.tables elements) => some (entries.replace key (.tables (elements ++ [[]])))
      | some _ => none)
    path .header entries

end Entries

end SoftLinear.Toml
