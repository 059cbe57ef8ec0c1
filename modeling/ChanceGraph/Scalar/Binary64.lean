import ChanceGraph.Scalar
import ChanceGraph.Decimal.Round

/-!
Doubles: their exact values, the double nearest to a quotient, and the scalar they form.
-/

set_option autoImplicit false

namespace ChanceGraph.Binary64

/-- The magnitude of a finite double is `mantissa · 2 ^ exponent`. -/
structure Parts where
  negative : Bool
  mantissa : Nat
  exponent : Int
  deriving DecidableEq, Repr

/-- The leading bit of a full mantissa, which is not written out. -/
def leadingBit : Nat :=
  1 <<< 52

def signBit : Nat :=
  1 <<< 63

def specialExponent : Nat :=
  2047

def parts? (x : Float) : Option Parts :=
  let bits := x.toBits.toNat
  let negative := signBit ≤ bits
  let exponent : Nat := bits % signBit / leadingBit
  let fraction := bits % leadingBit
  if exponent = specialExponent then none
  else if exponent = 0 then some ⟨negative, fraction, -1074⟩
  else some ⟨negative, fraction + leadingBit, (exponent : Int) - 1075⟩

def Parts.quotient (p : Parts) : Nat × Nat :=
  (p.mantissa <<< p.exponent.toNat, 1 <<< (-p.exponent).toNat)

/-- The bits of the double nearest to `n / d`, unless that is beyond the largest one. -/
def nearestBits? (n d : Nat) : Option Nat :=
  if n = 0 then some 0
  else
    let guess : Int := (n.log2 : Int) - d.log2 - 52
    let scaled (e : Int) : Nat × Nat := (n <<< (-e).toNat, d <<< e.toNat)
    let (a, b) := scaled guess
    let e := max (if a / b < leadingBit then guess - 1 else guess) (-1074)
    let (a, b) := scaled e
    -- A mantissa that rounds up to twice the leading bit carries into the exponent field.
    let bits := (e + 1074).toNat * leadingBit + Decimal.roundQuotient a b
    if bits < specialExponent * leadingBit then some bits else none

def ofBits (negative : Bool) (bits : Nat) : Float :=
  Float.ofBits (UInt64.ofNat (bits + if negative then signBit else 0))

def ofRatio? (n : Int) (d : Nat) : Option Float :=
  (nearestBits? n.natAbs d).map (ofBits (n < 0))

def floor? (x : Float) : Option Int :=
  (parts? x).map fun p =>
    let (n, d) := p.quotient
    (if p.negative then -(n : Int) else n) / d

/-- The multiple of `2 ^ e` that the number is, for an exponent not above its own. -/
def Parts.multiple (p : Parts) (e : Int) : Int :=
  let n := p.mantissa <<< (p.exponent - e).toNat
  if p.negative then -(n : Int) else n

def Parts.mul (p q : Parts) : Parts :=
  ⟨p.negative != q.negative, p.mantissa * q.mantissa, p.exponent + q.exponent⟩

def remainder (x y : Float) : Float :=
  match parts? x, parts? y with
  | some p, some q =>
    if q.mantissa = 0 then 0 / 0
    else
      let e := min p.exponent q.exponent
      let m := (p.mantissa <<< (p.exponent - e).toNat) % (q.mantissa <<< (q.exponent - e).toNat)
      let r : Parts := ⟨p.negative, m, e⟩
      let (n, d) := r.quotient
      ofBits p.negative ((nearestBits? n d).getD 0)
  | some _, none => if y.isNaN then y else x
  | none, _ => 0 / 0

/-- The double nearest to `n · 2 ^ e`, an infinity if that is out of range. -/
def nearest (n : Int) (e : Int) : Float :=
  match nearestBits? (n.natAbs <<< e.toNat) (1 <<< (-e).toNat) with
  | some bits => ofBits (n < 0) bits
  | none => if n < 0 then -1 / 0 else 1 / 0

def multiplyAdd (x y z : Float) : Float :=
  match parts? x, parts? y, parts? z with
  | some p, some q, some r =>
    let product := p.mul q
    let e := min product.exponent r.exponent
    let n := product.multiple e + r.multiple e
    if n = 0 then x * y + z else nearest n e
  | _, _, _ => x * y + z

def squareRoot (n : Nat) : Nat :=
  if n = 0 then 0
  else
    let r := 2 * squareRoot (n / 4)
    if (r + 1) * (r + 1) ≤ n then r + 1 else r

/-- The square root of `n · 4 ^ e`, from enough of its digits and whether any follow. -/
def nearestRoot (n : Nat) (e : Int) : Float :=
  let extra := 64
  let scaled := n <<< (2 * extra)
  let r := squareRoot scaled
  nearest (2 * r + if r * r = scaled then 0 else 1) (e - extra - 1)

def norm (xs : List Float) : Float :=
  match xs.mapM parts? with
  | some ps =>
    let e := ps.foldl (fun e p => min e p.exponent) 0
    let squares := ps.map fun p => (p.multiple e).natAbs * (p.multiple e).natAbs
    nearestRoot (squares.foldl (· + ·) 0) e
  | none => if xs.any fun x => !x.isNaN && !x.isFinite then 1 / 0 else 0 / 0

instance : Scalar Float where
  zero := 0
  one := 1
  decideLt := inferInstance
  decideLe := inferInstance
  infinity := 1 / 0
  nan := 0 / 0
  isNaN := Float.isNaN
  floor? := floor?
  ofRatio? := ofRatio?
  remainder := remainder
  multiplyAdd := multiplyAdd
  norm := norm
  power := Float.pow
  exp := Float.exp
  log := Float.log
  sqrt := Float.sqrt
  sin := Float.sin
  cos := Float.cos
  pi := Float.ofBits 0x400921FB54442D18

end ChanceGraph.Binary64
