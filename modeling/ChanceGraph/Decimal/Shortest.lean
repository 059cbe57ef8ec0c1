import ChanceGraph.Scalar.Binary64

/-!
The fewest decimal digits that read back as a given double.
-/

set_option autoImplicit false

namespace ChanceGraph.Decimal

/-- Whether `digits · 10 ^ exponent` reads as the double of these bits. -/
def readsAs (bits digits : Nat) (exponent : Int) : Bool :=
  let (n, d) := shift digits 1 exponent
  Binary64.nearestBits? n d == some bits

/-- Of the two neighbours of `a / b` among the naturals, the nearer one that is accepted. -/
def nearestAccepted (accept : Nat → Bool) (a b : Nat) : Option Nat :=
  let q := a / b
  if a % b = 0 then if accept q then some q else none
  else
    match accept q, accept (q + 1) with
    | true, true => some (roundQuotient a b)
    | true, false => some q
    | false, true => some (q + 1)
    | false, false => none

def atMost (bits n d k : Nat) : Option Digits :=
  let e := leadingExponent n d
  let (a, b) := shift n d (k - 1 - e)
  (nearestAccepted (readsAs bits · (e - k + 1)) a b).map fun q =>
    if q = powerOfTen k then ⟨1, e + 1⟩ else ⟨q, e⟩

/-- Seventeen digits always read back. -/
def shortest (p : Binary64.Parts) : Digits :=
  let (n, d) := p.quotient
  let bits := (Binary64.nearestBits? n d).getD 0
  (((List.range 17).map (· + 1)).findSome? (atMost bits n d)).getD (significant 17 n d)

end ChanceGraph.Decimal
