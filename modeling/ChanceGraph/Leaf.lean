import ChanceGraph.Table
import ChanceGraph.Value.Coordinates
import ChanceGraph.Leaf.Multivariate
import ChanceGraph.Leaf.Client

/-!
Leaf distributions: density, finite table, and the value that given random numbers draw.
-/

set_option autoImplicit false

namespace ChanceGraph

variable {S : Type} [Scalar S]

inductive Origin (S : Type) where
  | enumeration
  | multinomial
  | truncatedGeometric (p a b : Value S)

inductive Distribution (S : Type) where
  | constant (v : Value S)
  /-- The probability as it was given, and as a number. -/
  | flip (given : Value S) (p : Number S)
  | gaussian (mu sigma : S)
  | exponential (rate : S)
  | uniform (low high : S)
  | geometric (p : S)
  | multivariate (m : Multivariate S)
  | finite (origin : Origin S) (table : Table S)
  | client (c : Client S)

/-- The exponential, for which running out of range is a fault. -/
def boundedExp (x : S) : Outcome S S :=
  let y := Scalar.exp x
  if y == Scalar.infinity && Scalar.isFinite x then .error .overflow else .ok y

def logOfDensity (d : Number S) : S :=
  if d.le (.int 0) then Scalar.negInfinity else d.log

def standardNormal (u v : S) : S :=
  let two : S := Scalar.ofNat 2
  Scalar.sqrt (-two * Scalar.log (1 - u)) * Scalar.cos (two * Scalar.pi * v)

def standardNormals : List S → List S
  | u :: v :: rest => standardNormal u v :: standardNormals rest
  | _ => []

namespace Distribution

def name : Distribution S → String
  | .constant _ => "Constant"
  | .flip _ _ => "Flip"
  | .gaussian _ _ => "Gaussian"
  | .exponential _ => "Exponential"
  | .uniform _ _ => "Uniform"
  | .geometric _ => "Geometric"
  | .multivariate _ => "MultivariateNormal"
  | .finite .enumeration _ => "FiniteEnumeration"
  | .finite .multinomial _ => "Multinomial"
  | .finite (.truncatedGeometric _ _ _) _ => "TruncatedGeometric"
  | .client c => c.name

def parameters : Distribution S → Outcome S (Value S)
  | .constant v => .ok (.tuple [v])
  | .flip given _ => .ok (.tuple [given])
  | .gaussian mu sigma => .ok (.tuple [.real mu, .real sigma])
  | .exponential rate => .ok (.tuple [.real rate])
  | .uniform low high => .ok (.tuple [.real low, .real high])
  | .geometric p => .ok (.tuple [.real p])
  | .multivariate m =>
    .ok (.tuple [.tuple (m.mean.map .real),
      .tuple (m.covariance.map fun row => .tuple (row.map .real))])
  | .finite (.truncatedGeometric p a b) _ => .ok (.tuple [p, a, b])
  | .finite _ t => .ok (.tuple (t.groups.map fun g => .tuple [g.key, .real g.weight]))
  | .client c => c.parameters

def support (d : Distribution S) : Outcome S (List (Weighted S)) :=
  let infinite : Outcome S (List (Weighted S)) := do
    throw (.infiniteSupport (some (d.name, ← (← d.parameters).items)))
  match d with
  | .constant v => .ok [⟨v, .one⟩]
  | .flip _ p => do return [⟨.bool true, p⟩, ⟨.bool false, ← Number.sub .one p⟩]
  | .finite _ t => .ok t.support
  | .client c => match c.support with
    | some items => .ok items
    | none => infinite
  | _ => infinite

/-- The one number that a value stands for; NaN is refused. -/
def gaussianArgument (v : Value S) : Outcome S S := do
  match ← (← v.coordinates).checked with
  | [x] => return x
  | _ => throw .shapeMismatch

def gaussianLogDensity (mu sigma x : S) : S :=
  let two : S := Scalar.ofNat 2
  let exponent := -((x - mu) * (x - mu)) / (two * (sigma * sigma))
  exponent - Scalar.log sigma - Scalar.log (Scalar.sqrt (two * Scalar.pi))

def exponentialLogDensity (rate : S) (v : Value S) : Outcome S S := do
  unless ← v.ge (.int 0) do return Scalar.negInfinity
  return Scalar.log rate - rate * (← v.toScalar)

def uniformLogDensity (low high : S) (v : Value S) : Outcome S S := do
  unless ← Value.le (.real low) v do return Scalar.negInfinity
  unless ← v.le (.real high) do return Scalar.negInfinity
  return -(Scalar.log (high - low))

def geometricLogDensity (p : S) (v : Value S) : Outcome S S := do
  unless ← v.ge (.int 0) do return Scalar.negInfinity
  let n ← v.toNumber
  unless ← n.isInteger do return Scalar.negInfinity
  let x ← n.toScalar
  let failure := if p == 1 && x == 0 then 0 else p
  return x * Scalar.log1p (-failure) + Scalar.log p

def multivariateLogDensity (m : Multivariate S) (v : Value S) : Outcome S S := do
  unless (← v.length) = m.size do return Scalar.negInfinity
  let c ← v.coordinates
  if c.extents.getLastD 0 ≠ m.size then throw .outOfDomain
  let xs ← c.checked
  if xs.length = m.size then return m.logDensity xs else throw .shapeMismatch

def density (d : Distribution S) (v : Value S) : Outcome S (Number S) :=
  let ofLog (x : Outcome S S) : Outcome S (Number S) := do return .real (← boundedExp (← x))
  match d with
  | .constant _ => .ok .one
  | .flip _ p => do if ← v.truth then return p else Number.sub .one p
  | .gaussian mu sigma => ofLog do return gaussianLogDensity mu sigma (← gaussianArgument v)
  | .exponential rate => ofLog (exponentialLogDensity rate v)
  | .uniform low high => ofLog (uniformLogDensity low high v)
  | .geometric p => ofLog (geometricLogDensity p v)
  | .multivariate m => ofLog (multivariateLogDensity m v)
  | .finite _ t => do return .real (← t.density v)
  | .client c => match c.scoring with
    | .density score => score v
    | .logDensity score => ofLog do (← score v).toScalar
    | .none => .error (.unscored c.name)

def logDensity (d : Distribution S) (v : Value S) : Outcome S (Number S) :=
  let ofDensity : Outcome S (Number S) := do return .real (logOfDensity (← d.density v))
  match d with
  | .constant _ => .ok (.real 0)
  | .gaussian mu sigma => do return .real (gaussianLogDensity mu sigma (← gaussianArgument v))
  | .exponential rate => do return .real (← exponentialLogDensity rate v)
  | .uniform low high => do return .real (← uniformLogDensity low high v)
  | .geometric p => do return .real (← geometricLogDensity p v)
  | .multivariate m => do return .real (← multivariateLogDensity m v)
  | .flip _ _ | .finite _ _ => ofDensity
  | .client c => match c.scoring with
    | .logDensity score => score v
    | _ => ofDensity

def arity : Distribution S → Nat
  | .constant _ => 0
  | .flip _ _ | .exponential _ | .uniform _ _ | .geometric _ => 1
  | .gaussian _ _ | .finite _ _ => 2
  | .multivariate m => 2 * m.size
  | .client c => c.arity

/-- The least positive number of full precision; keeps the logarithm of a uniform number finite. -/
def smallest : S :=
  Scalar.ratio 1 (1 <<< 1022)

def geometricDraw (p u : S) : Outcome S (Value S) :=
  let v := smallest + u * (1 - smallest)
  let trials := Scalar.log v / Scalar.log1p (-p)
  match Scalar.floor? trials with
  | some n => .ok (.int n)
  | none => .error (if Scalar.isNaN trials then .outOfDomain else .overflow)

def draw (d : Distribution S) (before : Nat) (us : List S) : Outcome S (Value S) :=
  match d, us with
  | .constant v, _ => .ok v
  | .flip _ p, [u] => .ok (.bool ((Number.real u).lt p))
  | .gaussian mu sigma, [u, v] => .ok (.real (mu + sigma * standardNormal u v))
  | .exponential rate, [u] => .ok (.real (-(Scalar.log (1 - u)) / rate))
  | .uniform low high, [u] => .ok (.real (low + u * (high - low)))
  | .geometric p, [u] => geometricDraw p u
  | .multivariate m, us => .ok (.tuple ((m.point (standardNormals us)).map .real))
  | .finite _ t, [u, v] => match t.sampler.pick? u v with
    | some x => .ok x
    | none => .error .outOfRange
  | .client c, us => c.draw before us
  | _, _ => .error .outOfRandomness

end Distribution

/-- Tells objects apart: the stamp of the call that built it and its place in that call. -/
structure ObjectId where
  stamp : Nat
  index : Nat
  deriving DecidableEq, Hashable, Repr

structure Leaf (S : Type) where
  id : ObjectId
  distribution : Distribution S

/-- Leaves with equal keys are taken to be interchangeable. -/
structure LeafKey (S : Type) where
  name : String
  parameters : Value S

namespace LeafKey

def same (a b : LeafKey S) : Bool :=
  a.name == b.name && a.parameters.alike b.parameters

def isKey (k : LeafKey S) : Bool :=
  k.parameters.isKey

end LeafKey

def Leaf.key (leaf : Leaf S) : Outcome S (LeafKey S) := do
  return ⟨leaf.distribution.name, ← leaf.distribution.parameters⟩

end ChanceGraph
