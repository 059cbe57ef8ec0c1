import ChanceGraph.Scalar

/-!
Summation that rounds once: the running sum is kept as a list of parts, the rounding error of each
addition becoming a part of its own.
-/

set_option autoImplicit false

namespace ChanceGraph

inductive SumError where
  | oppositeInfinities
  | overflow
  deriving DecidableEq, Repr

namespace Scalar

variable {S : Type} [Scalar S]

/-- The rounded sum and its rounding error; the larger operand stands first. -/
def addExact (x y : S) : S × S :=
  let (a, b) := if abs x < abs y then (y, x) else (x, y)
  let high := a + b
  (high, b - (high - a))

/-- Adds `x` to the parts, smallest first, and returns what is left of `x` and the parts' errors. -/
def absorb (x : S) : List S → S × List S
  | [] => (x, [])
  | y :: parts =>
    let (high, low) := addExact x y
    let (rest, errors) := absorb high parts
    (rest, if low == 0 then errors else low :: errors)

structure PartialSum (S : Type) where
  /-- Smallest first, none of them zero. -/
  parts : List S
  /-- The sum of the infinities and NaNs met. -/
  special : S
  infinities : S

namespace PartialSum

def zero : PartialSum S :=
  ⟨[], 0, 0⟩

def add (sum : PartialSum S) (x : S) : Except SumError (PartialSum S) :=
  let (rest, errors) := absorb x sum.parts
  if rest == 0 then .ok { sum with parts := errors }
  else if isFinite rest then .ok { sum with parts := errors ++ [rest] }
  else if isFinite x then .error .overflow
  else
    .ok {
      parts := []
      special := sum.special + x
      infinities := if isNaN x then sum.infinities else sum.infinities + x }

/-- Adds parts from the largest down until one addition is inexact; gives the sum, that
addition's error and the parts not used. -/
def collapse (high : S) : List S → S × S × List S
  | [] => (high, 0, [])
  | y :: parts =>
    let sum := high + y
    let low := y - (sum - high)
    if low == 0 then collapse sum parts else (sum, low, parts)

/-- Half a unit left over goes to the side on which further parts lie. -/
def settle : S × S × List S → S
  | (high, _, []) => high
  | (high, low, next :: _) =>
    if (low < 0 ∧ next < 0) ∨ (0 < low ∧ 0 < next) then
      let doubled := low + low
      let moved := high + doubled
      if moved - high == doubled then moved else high
    else high

def result (sum : PartialSum S) : Except SumError S :=
  if sum.special == 0 then
    match sum.parts.reverse with
    | [] => .ok 0
    | high :: parts => .ok (settle (collapse high parts))
  else if isNaN sum.infinities then .error .oppositeInfinities
  else .ok sum.special

end PartialSum

def sum (xs : List S) : Except SumError S := do
  (← xs.foldlM PartialSum.add PartialSum.zero).result

end Scalar

end ChanceGraph
