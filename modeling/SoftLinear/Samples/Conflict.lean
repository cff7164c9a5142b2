import SoftLinear.Samples.Layout

/-!
# Conflicting samples

Systems whose constraints cannot all hold.
-/

namespace SoftLinear

namespace ConflictSample

open Layout (Sample)

variable {α σ : Type} [Scalar α] [Solver α σ]

/-- The constraint that a variable has a value. -/
def equals (v : Variable) (n : Nat) : Constraint α := .build [⟨1, v⟩] .eq (.ofNat n)

/-- A variable that has to be both five and ten. -/
def contradictoryPair : Building α σ Sample := do
  let x ← .variableNamed "x"
  let five ← .constraint (equals x 5)
  let ten ← .constraint (equals x 10)
  return ⟨[x], [five, ten], [five, ten]⟩

/-- A variable that must not be negative, and two wishes for its value at different penalties. -/
def competingPair (high low : α) : Building α σ Sample := do
  let x ← .variableNamed "x"
  let floor ← .constraint (.build [⟨1, x⟩] .ge (.ofNat 0))
  let lower ← .constraint { (equals x 20 : Constraint α) with penalty := low }
  let higher ← .constraint { (equals x 10 : Constraint α) with penalty := high }
  return ⟨[x], [floor, lower, higher], [higher, lower]⟩

/-- The constraint at a place of `isolated`: the variable there has ten times its place as value, but at the place of
the conflict the variables before it add up to minus one. -/
def isolatedAt (vs : List Variable) (conflict : Nat) (x : Variable × Nat) : Constraint α :=
  if x.2 = conflict then .build ((vs.take x.2).map fun v => ⟨1, v⟩) .eq (.fixed (0 - 1))
  else .build [⟨1, x.1⟩] .eq (.fixed (((10 : Nat) : α) * (x.2 : α)))

/-- A number of constraints of which exactly one conflicts with the others. -/
def isolated (count conflict : Nat) : Building α σ Sample := do
  if conflict = 0 ∨ count ≤ conflict then .refuse .conflictOutOfRange
  else
    let vs ← (List.range count).mapM fun i => .variableNamed ("x" ++ toString i)
    let ids ← vs.zipIdx.mapM fun x => .constraint (isolatedAt vs conflict x)
    return ⟨vs, ids, (ids.drop conflict).take 1⟩

end ConflictSample

end SoftLinear
