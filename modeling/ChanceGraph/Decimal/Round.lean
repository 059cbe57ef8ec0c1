/-!
Rounding of quotients of naturals, to the nearest and, of two nearest, to the even one.
-/

set_option autoImplicit false

namespace ChanceGraph.Decimal

def roundQuotient (n d : Nat) : Nat :=
  let q := n / d
  let r := n % d
  if d < 2 * r ∨ (d = 2 * r ∧ q % 2 = 1) then q + 1 else q

def powerOfTen (k : Nat) : Nat :=
  Nat.pow 10 k

/-- Integers with more digits than this are neither read nor written. -/
def longestInteger : Nat :=
  4300

/-- Whether an integer has no more digits than are written; a look at its bits decides most cases. -/
def isWritable (n : Int) : Bool :=
  n.natAbs.log2 < 3 * longestInteger || n.natAbs < powerOfTen longestInteger

/-- The quotient `n / d · 10 ^ e`, as a numerator and a denominator. -/
def shift (n d : Nat) (e : Int) : Nat × Nat :=
  (n * powerOfTen e.toNat, d * powerOfTen (-e).toNat)

def digitCount (n : Nat) : Nat :=
  (Nat.toDigits 10 n).length

def leadingExponent (n d : Nat) : Int :=
  let e : Int := (digitCount n : Int) - digitCount d
  let (a, b) := shift n d (-e)
  if a < b then e - 1 else e

structure Digits where
  digits : Nat
  exponent : Int
  deriving DecidableEq, Repr

/-- A positive quotient to `k` significant digits. -/
def significant (k n d : Nat) : Digits :=
  let e := leadingExponent n d
  let (a, b) := shift n d (k - 1 - e)
  let q := roundQuotient a b
  if q = powerOfTen k then ⟨powerOfTen (k - 1), e + 1⟩ else ⟨q, e⟩

end ChanceGraph.Decimal
