import ChanceGraph.Decimal.Shortest

/-!
The ways in which a number is written: shortest, to some significant digits, to some places.
-/

set_option autoImplicit false

namespace ChanceGraph.Decimal

def digitText (n : Nat) : List Char :=
  Nat.toDigits 10 n

def dropTrailingZeros (ds : List Char) : List Char :=
  (ds.reverse.dropWhile (· == '0')).reverse

def zeros (n : Nat) : List Char :=
  List.replicate n '0'

def exponentText (e : Int) : List Char :=
  let ds := digitText e.natAbs
  'e' :: (if e < 0 then '-' else '+') :: (zeros (2 - ds.length) ++ ds)

def scientificText (ds : List Char) (e : Int) : List Char :=
  let mantissa := match ds with
    | d :: rest@(_ :: _) => d :: '.' :: rest
    | _ => ds
  mantissa ++ exponentText e

def positionalText (ds : List Char) (e : Int) : List Char :=
  if e < 0 then '0' :: '.' :: (zeros (-e - 1).toNat ++ ds)
  else
    let whole := (e + 1).toNat
    if ds.length ≤ whole then ds ++ zeros (whole - ds.length)
    else ds.take whole ++ '.' :: ds.drop whole

structure Layout where
  /-- Exponents below -4, or from this one on, are written out. -/
  positionalBelow : Int
  /-- Whether a whole number keeps a point and a zero. -/
  marksWhole : Bool

def Layout.render (layout : Layout) (digits : Digits) : List Char :=
  let ds := match dropTrailingZeros (digitText digits.digits) with
    | [] => ['0']
    | ds => ds
  if digits.exponent < -4 ∨ layout.positionalBelow ≤ digits.exponent then
    scientificText ds digits.exponent
  else
    let text := positionalText ds digits.exponent
    if layout.marksWhole ∧ ¬ text.contains '.' then text ++ ['.', '0'] else text

/-- The text of a number: `magnitude` writes that of a finite one. -/
def signed (magnitude : Binary64.Parts → List Char) (x : Float) : String :=
  match Binary64.parts? x with
  | some p => String.ofList (if p.negative then '-' :: magnitude p else magnitude p)
  | none => if x.isNaN then "nan" else if x < 0 then "-inf" else "inf"

def shortestText : Float → String :=
  signed fun p =>
    Layout.render ⟨16, true⟩ (if p.mantissa = 0 then ⟨0, 0⟩ else shortest p)

def significantText (k : Nat) : Float → String :=
  signed fun p =>
    let (n, d) := p.quotient
    Layout.render ⟨k, false⟩ (if p.mantissa = 0 then ⟨0, 0⟩ else significant k n d)

def fixedText (places : Nat) : Float → String :=
  signed fun p =>
    let (n, d) := p.quotient
    let ds := digitText (roundQuotient (n * powerOfTen places) d)
    let ds := zeros (places + 1 - ds.length) ++ ds
    ds.take (ds.length - places) ++ '.' :: ds.drop (ds.length - places)

def exponentialText (places : Nat) : Float → String :=
  signed fun p =>
    let (n, d) := p.quotient
    let s := significant (places + 1) n d
    if p.mantissa = 0 then scientificText (zeros (places + 1)) 0
    else scientificText (digitText s.digits) s.exponent

/-- Ten significant digits and an exponent; both zeros are written `0`. -/
def scientific10 (x : Float) : String :=
  if x == 0 then "0" else exponentialText 9 x

/-- Logarithms near zero, where only rounding errors differ, are written `0`. -/
def logarithm10 (x : Float) : String :=
  if x.abs < 1e-9 then "0" else scientific10 x

end ChanceGraph.Decimal
