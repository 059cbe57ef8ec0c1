import ChanceGraph.Scalar

/-!
Numbers that are integers of any size or scalars, compared by their exact values.
-/

set_option autoImplicit false

namespace ChanceGraph

inductive Number (S : Type) where
  | int (n : Int)
  | real (x : S)

variable {S : Type} [Scalar S]

namespace Number

def equalBy (eq : S → S → Bool) : Number S → Number S → Bool
  | .int m, .int n => m == n
  | .real x, .real y => eq x y
  | .int n, .real x | .real x, .int n => Scalar.floor? x == some n && Scalar.isIntegral x

def lt : Number S → Number S → Bool
  | .int m, .int n => m < n
  | .real x, .real y => x < y
  | .int n, .real x =>
    match Scalar.floor? x with
    | some k => n < k || (n == k && !Scalar.isIntegral x)
    | none => x == Scalar.infinity
  | .real x, .int n =>
    match Scalar.floor? x with
    | some k => k < n
    | none => x == Scalar.negInfinity

def le : Number S → Number S → Bool
  | .int m, .int n => m ≤ n
  | .real x, .real y => x ≤ y
  | .int n, .real x =>
    match Scalar.floor? x with
    | some k => n ≤ k
    | none => x == Scalar.infinity
  | .real x, .int n =>
    match Scalar.floor? x with
    | some k => k < n || (k == n && Scalar.isIntegral x)
    | none => x == Scalar.negInfinity

end Number

end ChanceGraph
