/-!
The numbers that weights, densities and random draws are made of.  Every algorithm of the library
is written once over `Scalar`: on doubles it runs, on exact numbers it is reasoned about.
-/

set_option autoImplicit false

namespace ChanceGraph

class Scalar (S : Type) extends Zero S, One S, Add S, Sub S, Mul S, Div S, Neg S, BEq S, LT S, LE S where
  decideLt : DecidableLT S
  decideLe : DecidableLE S
  infinity : S
  nan : S
  isNaN : S → Bool
  /-- The greatest integer not above a finite number. -/
  floor? : S → Option Int
  /-- The number nearest to a quotient, unless that lies beyond the largest finite one. -/
  ofRatio? : Int → Nat → Option S
  /-- The remainder that has the sign of the dividend. -/
  remainder : S → S → S
  /-- A product plus a third number, rounded once. -/
  multiplyAdd : S → S → S → S
  /-- The length of a vector, rounded once. -/
  norm : List S → S
  power : S → S → S
  exp : S → S
  log : S → S
  sqrt : S → S
  sin : S → S
  cos : S → S
  pi : S

attribute [reducible, instance] Scalar.decideLt Scalar.decideLe

namespace Scalar

variable {S : Type} [Scalar S]

def ofInt? (n : Int) : Option S :=
  ofRatio? n 1

def ratio (n : Int) (d : Nat) : S :=
  (ofRatio? n d).getD nan

def ofNat (n : Nat) : S :=
  ratio n 1

def isFinite (x : S) : Bool :=
  (floor? x).isSome

def isIntegral (x : S) : Bool :=
  match floor? x with
  | none => false
  | some n => (ratio n 1 : S) == x

def truncate? (x : S) : Option Int :=
  if x < 0 then (floor? (-x)).map (- ·) else floor? x

def abs (x : S) : S :=
  if x < 0 then -x else x

def negInfinity : S :=
  -infinity

/-- Keeps its digits near zero, where `1 + x` loses those of `x`. -/
def log1p (x : S) : S :=
  let u : S := 1 + x
  if u - 1 == x then log u
  else if u == 1 then x
  else log u * x / (u - 1)

def index (u : S) (n : Nat) : Nat :=
  min ((floor? (u * ofNat n)).getD 0).toNat (n - 1)

end Scalar

end ChanceGraph
