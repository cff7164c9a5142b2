import SoftLinear.Model

/-!
# Layouts

The sample systems are built step by step in a model.  A step that is refused ends the building; what was built before
it stays in the model.

The samples here are systems of grid lines, called tabs.  A tab is a variable that holds a position; an area reaches
from one tab to another on each axis.
-/

namespace SoftLinear

/-- Why a sample could not be built. -/
inductive SampleError (α : Type) where
  | edit (e : Error α)
  | conflictOutOfRange
  deriving Repr

def SampleError.message : SampleError Float → String
  | edit e => e.message
  | conflictOutOfRange => "conflicting index out of range"

abbrev Building (α σ : Type) := ExceptT (SampleError α) (StateM (Model α σ))

namespace Building

variable {α σ : Type} [Scalar α]

def variableNamed (name : String) : Building α σ Variable :=
  fun m =>
    let (s, v) := m.system.addVariable (some name)
    (.ok v, { m with system := s })

def constraint [Solver α σ] (c : Constraint α) : Building α σ ConstraintId :=
  fun m => match m.insert c with
    | .ok (m, id) => (.ok id, m)
    | .error e => (.error (.edit e), m)

def refuse {β : Type} (e : SampleError α) : Building α σ β := fun m => (.error e, m)

end Building

/-- A scalar from a natural number, as a right side. -/
def RightSide.ofNat {α : Type} [Scalar α] (n : Nat) : RightSide α := .fixed (n : α)

/-! ## Tabs and areas -/

namespace Layout

variable {α σ : Type} [Scalar α] [Solver α σ]

/-- The penalty of a size that is only preferred. -/
def preferredPenalty : α := 0.5

/-- The left side of a span: the high tab minus the low one. -/
def span (low high : Variable) : List (Term α) := [⟨1, high⟩, ⟨0 - 1, low⟩]

def fix (tab : Variable) (position : α) : Building α σ ConstraintId :=
  .constraint (.build [⟨1, tab⟩] .eq (.fixed position))

/-- Keeps two tabs at least a distance apart. -/
def minSpan (low high : Variable) (size : α) : Building α σ ConstraintId :=
  .constraint (.build (span low high) .ge (.fixed size))

/-- Prefers a distance between two tabs. -/
def preferredSpan (low high : Variable) (size : α) : Building α σ ConstraintId :=
  .constraint { Constraint.build (span low high) .eq (.fixed size) with penalty := preferredPenalty }

/-- Prefers the same distance between a tab and its neighbours. -/
def equalWidths (a b c : Variable) (name : String) : Building α σ ConstraintId :=
  let width : Constraint α := .build [⟨1 + 1, b⟩, ⟨0 - 1, a⟩, ⟨0 - 1, c⟩] .eq (.fixed 0)
  .constraint { width with penalty := preferredPenalty, name := some name }

/-- What a sample made: its variables, its constraints, and the constraints worth pointing out. -/
structure Sample where
  unknowns : List Variable
  constraints : List ConstraintId
  marks : List ConstraintId
  deriving Repr

/-- A boundary from 0 to 300 and from 0 to 50, cut by two tabs into three areas of preferably equal width. -/
def threeAreas : Building α σ Sample := do
  let left ← .variableNamed "left"
  let x1 ← .variableNamed "x1"
  let x2 ← .variableNamed "x2"
  let right ← .variableNamed "right"
  let top ← .variableNamed "top"
  let bottom ← .variableNamed "bottom"
  let boundary ← [(left, 0), (right, 300), (top, 0), (bottom, 50)].mapM fun (tab, n) => fix tab ((n : Nat) : α)
  let spans ← [(left, x1), (x1, x2), (x2, right), (top, bottom)].mapM fun (low, high) => minSpan low high (0 : α)
  let first ← equalWidths left x1 x2 "equal_width_0"
  let second ← equalWidths x1 x2 right "equal_width_1"
  return ⟨[left, x1, x2, right, top, bottom], boundary ++ spans ++ [first, second], [first, second]⟩

/-- An area between tabs, with the size that it prefers. -/
def area (low high : Variable × Variable) (width height : Nat) : Building α σ (List ConstraintId) := do
  let a ← minSpan low.1 high.1 ((10 : Nat) : α)
  let b ← minSpan low.2 high.2 ((10 : Nat) : α)
  let c ← preferredSpan low.1 high.1 (width : α)
  let d ← preferredSpan low.2 high.2 (height : α)
  return [a, b, c, d]

/-- Four areas around a fifth one, in a boundary from 0 to 300 on both axes. -/
def pinwheel : Building α σ Sample := do
  let x0 ← .variableNamed "x0"
  let x1 ← .variableNamed "x1"
  let x2 ← .variableNamed "x2"
  let x3 ← .variableNamed "x3"
  let y0 ← .variableNamed "y0"
  let y1 ← .variableNamed "y1"
  let y2 ← .variableNamed "y2"
  let y3 ← .variableNamed "y3"
  let boundary ← [(x0, 0), (x3, 300), (y0, 0), (y3, 300)].mapM fun (tab, n) => fix tab ((n : Nat) : α)
  let a ← area (x0, y0) (x2, y1) 200 100
  let b ← area (x2, y0) (x3, y2) 100 200
  let c ← area (x1, y2) (x3, y3) 200 100
  let d ← area (x0, y1) (x1, y3) 100 200
  let e ← area (x1, y1) (x2, y2) 100 100
  return ⟨[x0, x1, x2, x3, y0, y1, y2, y3], boundary ++ a ++ b ++ c ++ d ++ e, []⟩

end Layout

end SoftLinear
