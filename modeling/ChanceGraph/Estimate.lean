import ChanceGraph.Table
import ChanceGraph.Value.Arithmetic

/-!
Weighted means, of any values that can be scaled and added, and of numbers with an interval that
holds the mean in 95 of 100 cases.
-/

set_option autoImplicit false

namespace ChanceGraph

variable {S : Type} [Scalar S]

def scaledValue (s : Sample S) : Outcome S (Value S) :=
  s.value.mul (.real s.weight)

def weightedSum : List (Sample S) → Outcome S (Value S)
  | [] => .error .wrongType
  | s :: rest => do
    rest.foldlM (fun total s => do total.add (← scaledValue s)) (← scaledValue s)

def weightedMean (samples : List (Sample S)) : Outcome S (Value S) := do
  let total ← exactSumBy (fun s => .ok s.weight) samples
  (← weightedSum samples).div (.real total)

structure Interval (S : Type) where
  mean : S
  halfWidth : S

namespace Interval

/-- The sum, rounded once; where there is none, what adding in turn gives. -/
def total (xs : List S) : S :=
  match Scalar.sum xs with
  | .ok x => x
  | .error _ => xs.foldl (· + ·) 0

/-- The normal quantile beyond which one case in forty lies. -/
def quantile : S :=
  Scalar.ratio 196 100

def meanOf (samples : List (S × S)) : S :=
  total (samples.map fun (x, w) => x * w) / total (samples.map (·.2))

/-- The weight that counts, less what repeated use of large weights takes away. -/
def normalizer (weights : List S) : S :=
  let all := total weights
  all - total (weights.map fun w => w * w) / all

def variance (samples : List (S × S)) : S :=
  let center := meanOf samples
  total (samples.map fun (x, w) => w * ((x - center) * (x - center))) /
    normalizer (samples.map (·.2))

def ofSamples (samples : List (S × S)) : Interval S :=
  ⟨meanOf samples,
    quantile * Scalar.sqrt (variance samples) / Scalar.sqrt (Scalar.ofNat samples.length)⟩

end Interval

def meanInterval (samples : List (Sample S)) : Outcome S (Interval S) := do
  return .ofSamples (← samples.mapM fun s => do return (← s.value.parseScalar, s.weight))

end ChanceGraph
