import ChanceGraph.Fault

/-!
Normal distributions over vectors, given by their mean and the lower triangular factor of their
covariance.
-/

set_option autoImplicit false

namespace ChanceGraph

variable {S : Type} [Scalar S]

structure Multivariate (S : Type) where
  mean : List S
  covariance : List (List S)
  factor : List (List S)

namespace Multivariate

/-- The sum of products onto a start, one rounding for each. -/
def addProducts (start : S) (xs ys : List S) : S :=
  (xs.zip ys).foldl (fun sum (x, y) => Scalar.multiplyAdd x y sum) start

def dot (xs ys : List S) : S :=
  addProducts 0 xs ys

def subtractProducts (start : S) (xs ys : List S) : S :=
  addProducts start (xs.map (- ·)) ys

def factorRow (above : List (List S)) (row : List S) : List S :=
  (above.zip row).foldl
    (fun entries (upper, a) => entries ++ [subtractProducts a entries upper / upper.getLastD 0])
    []

/-- The lower triangular factor, row by row; none unless every pivot is positive. -/
def factor? (rows : List (List S)) : Option (List (List S)) :=
  rows.zipIdx.foldlM
    (fun above (row, i) =>
      let entries := factorRow above row
      let pivot := subtractProducts (row.getD i 0) entries entries
      if 0 < pivot then some (above ++ [entries ++ [Scalar.sqrt pivot]]) else none)
    []

def close (x y : S) : Bool :=
  let difference := Scalar.abs (x - y)
  x == y || (Scalar.isFinite difference &&
    decide (difference ≤ Scalar.ratio 1 1000000 + Scalar.abs (Scalar.ratio 1 100000 * y)))

def isSymmetric (rows : List (List S)) : Bool :=
  rows.zipIdx.all fun (row, i) =>
    row.zipIdx.all fun (x, j) => close x ((rows.getD j []).getD i 0)

def build (mean : List S) (covariance : List (List S)) : Outcome S (Multivariate S) := do
  let n := mean.length
  if n = 0 then throw .noMean
  if covariance.length ≠ n ∨ covariance.any (·.length != n) then
    throw (.covarianceShape n covariance)
  if mean.any Scalar.isNaN ∨ ¬ isSymmetric covariance then throw .outOfDomain
  match factor? covariance with
  | some factor => return ⟨mean, covariance, factor⟩
  | none => throw .outOfDomain

def size (m : Multivariate S) : Nat :=
  m.mean.length

def point (m : Multivariate S) (coordinates : List S) : List S :=
  m.mean.zipWith (fun mu row => mu + dot row coordinates) m.factor

/-- Coordinates of a difference from the mean, by forward substitution. -/
def coordinates (m : Multivariate S) (difference : List S) : List S :=
  (m.factor.zip difference).foldl
    (fun solved (row, d) => solved ++ [subtractProducts d row solved / row.getLastD 1])
    []

def logDensity (m : Multivariate S) (xs : List S) : S :=
  let solved := m.coordinates (xs.zipWith (· - ·) m.mean)
  let volume := (m.factor.map fun row => Scalar.log (row.getLastD 1)).foldl (· + ·) 0
  let two : S := Scalar.ofNat 2
  let exponent := -(Scalar.ofNat m.size * Scalar.log (two * Scalar.pi) + dot solved solved) / two
  exponent - volume

end Multivariate

end ChanceGraph
