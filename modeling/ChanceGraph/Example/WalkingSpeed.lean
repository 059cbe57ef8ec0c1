import ChanceGraph.Node.Build

/-!
Speed from two noisy position fixes.  The error of a fix is scaled so that `accuracy` metres hold
95% of it.
-/

set_option autoImplicit false

namespace ChanceGraph.Example

variable {S : Type} [Scalar S]

structure Fix (S : Type) where
  x : Value S
  y : Value S
  accuracy : Value S
  /-- The scale of the radial error. -/
  scale : S

namespace Fix

def make (x y accuracy : Value S) : Outcome S (Fix S) := do
  let unit := Scalar.sqrt (Scalar.log (Scalar.ofNat 400))
  return ⟨x, y, accuracy, ← (← accuracy.div (.real unit)).toScalar⟩

def draw (f : Fix S) (u v : S) : Outcome S (Value S) := do
  let two : S := Scalar.ofNat 2
  let radius := f.scale * Scalar.sqrt (-two * Scalar.log (1 - u))
  let angle := two * Scalar.pi * v
  return .tuple [← f.x.add (.real (radius * Scalar.cos angle)),
    ← f.y.add (.real (radius * Scalar.sin angle))]

def density (f : Fix S) (t : Value S) : Outcome S (Number S) := do
  let dx ← (← t.item (.int 0)).sub f.x
  let dy ← (← t.item (.int 1)).sub f.y
  let r := Scalar.norm [← dx.toScalar, ← dy.toScalar]
  let two : S := Scalar.ofNat 2
  let square ← Distribution.boundedPower f.scale two
  if square == 0 then throw .divisionByZero
  let decay ← boundedExp (-r * r / (two * square))
  return .real (r / square * decay)

def client (f : Fix S) : Client S where
  name := "GPSReading"
  parameters := .ok (.tuple [.tuple [f.x, f.y], f.accuracy])
  scoring := .density f.density
  support := none
  arity := 2
  draw := fun _ us => match us with
    | [u, v] => f.draw u v
    | _ => .error .outOfRandomness

end Fix

def fix (x y accuracy : Value S) : Build S (Node S) :=
  Build.leaf (do return .client (← Fix.make x y accuracy).client)

def distance (a b : Value S) : Outcome S S := do
  let xs ← a.items
  let ys ← b.items
  if xs.length ≠ ys.length then throw .outOfDomain
  let differences ← (xs.zip ys).mapM fun (x, y) => do return (← x.toScalar) - (← y.toScalar)
  return Scalar.norm differences

def milesPerHour : S :=
  Scalar.ratio 223694 100000

def speedOf (seconds a b : Value S) : Outcome S (Value S) := do
  (← Value.div (.real (← distance a b)) seconds).mul (.real milesPerHour)

def speed (first second : Node S) (seconds : Value S) : Node S :=
  Node.lift2 (speedOf seconds) first second

def walking : Build S (Node S) := do
  let first ← fix (.real 0) (.real 0) (.real (Scalar.ofNat 4))
  let second ← fix (.real (Scalar.ratio 3 2)) (.real (Scalar.ratio 1 2)) (.real (Scalar.ofNat 4))
  return speed first second (.real 1)

end ChanceGraph.Example
