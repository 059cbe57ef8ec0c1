import ChanceGraph.Leaf

/-!
Leaves from parameters as they are given, each checked by its own rule.
-/

set_option autoImplicit false

namespace ChanceGraph

variable {S : Type} [Scalar S]

namespace Value

def within (low : S) (lowEnd : Bound) (high : S) (highEnd : Bound) (v : Value S) :
    Outcome S Bool := do
  if ← (Value.real low).precedes lowEnd v then v.precedes highEnd (.real high) else return false

def inOpenUnit (v : Value S) : Outcome S Bool :=
  v.within 0 .strict 1 .strict

def isPositive (v : Value S) : Outcome S Bool := do
  return !(← v.le (.int 0))

end Value

namespace Distribution

def makeFlip (p : Value S) : Outcome S (Distribution S) := do
  unless ← p.within 0 .weak 1 .weak do throw (.probability p)
  return .flip p (← p.toNumber)

def makeGaussian (mu sigma : Value S) : Outcome S (Distribution S) := do
  unless ← sigma.isPositive do throw (.deviation sigma)
  let m ← mu.parseScalar
  let s ← sigma.parseScalar
  if Scalar.isNaN m ∨ Scalar.isNaN s then throw .outOfDomain
  return .gaussian m s

def makeExponential (rate : Value S) : Outcome S (Distribution S) := do
  unless ← rate.isPositive do throw (.rate rate)
  return .exponential (← rate.parseScalar)

def makeUniform (low high : Value S) : Outcome S (Distribution S) := do
  if ← low.ge high then throw (.bounds low high)
  let a ← low.parseScalar
  let b ← high.parseScalar
  -- Bounds may be apart and yet have the same nearest number.
  if a < b then return .uniform a b else throw .outOfDomain

def makeGeometric (p : Value S) : Outcome S (Distribution S) := do
  unless ← p.within 0 .strict 1 .weak do throw (.positiveProbability p)
  return .geometric (← p.parseScalar)

def makeMultivariate (mean : List (Value S)) (covariance : List (List (Value S))) :
    Outcome S (Distribution S) := do
  let mean ← mean.mapM Value.parseScalar
  let covariance ← covariance.mapM (·.mapM Value.parseScalar)
  return .multivariate (← Multivariate.build mean covariance)

def makeEnumeration (items : List (TableItem S)) (keyOf : Grouping S) :
    Outcome S (Distribution S) := do
  return .finite .enumeration (← Table.build keyOf items)

/-- Probabilities that miss one by more than a hundredth are refused. -/
def sumsToOne (total : Value S) : Outcome S Bool := do
  let x ← (← total.sub (.real 1)).toScalar
  return !decide (Scalar.ratio 1 100 < Scalar.abs x)

def makeMultinomial (states : List (Value S)) (probabilities : Option (List (Value S))) :
    Outcome S (Distribution S) := do
  let n := states.length
  if n = 0 then throw .noStates
  let probabilities := probabilities.getD (List.replicate n (.real (1 / Scalar.ofNat n)))
  if probabilities.length ≠ n then throw (.stateCount n probabilities.length)
  let total ← probabilities.foldlM Value.add (.int 0)
  unless ← sumsToOne total do throw (.stateProbabilities total)
  return .finite .multinomial (← Table.build .ok (states.zip probabilities))

def boundedPower (x y : S) : Outcome S S :=
  let z := Scalar.power x y
  if z == Scalar.infinity && Scalar.isFinite x && Scalar.isFinite y then .error .overflow else .ok z

def geometricCumulative (p : S) (n : Value S) : Outcome S S := do
  let exponent ← (← n.add (.int 1)).toScalar
  return 1 - (← boundedPower (1 - p) exponent)

def integersBetween (low high : Value S) : Outcome S (List Int) :=
  match low.integer?, high.integer? with
  | some a, some b => .ok ((List.range (b - a).toNat).map fun k => a + 1 + Int.ofNat k)
  | _, _ => .error .wrongType

def truncatedItem (p norm : S) (n : Int) : Outcome S (TableItem S) := do
  let power ← boundedPower (1 - p) (← scalarOfInt n)
  if norm == 0 then throw .divisionByZero
  return (.int n, .real (p * power / norm))

def makeTruncatedGeometric (p a b : Value S) : Outcome S (Distribution S) := do
  unless ← p.inOpenUnit do throw (.openProbability p)
  let low := if ← b.lt a then b else a
  let high := if ← b.gt a then b else a
  if low.equal high then throw (.noIntegers a b)
  let q ← p.toScalar
  let upTo ← geometricCumulative q high
  let norm := upTo - (← geometricCumulative q low)
  let items ← (← integersBetween low high).mapM (truncatedItem q norm)
  return .finite (.truncatedGeometric p a b) (← Table.build .ok items)

end Distribution

end ChanceGraph
