import ChanceGraph.Scalar
import ChanceGraph.Decimal.Round
import ChanceGraph.Text.Blank
import ChanceGraph.Text.Digit

/-!
Numbers written as text, and their values.
-/

set_option autoImplicit false

namespace ChanceGraph.Decimal

inductive Magnitude where
  | finite (digits : Nat) (exponent : Int)
  | infinity
  | nan
  deriving DecidableEq, Repr

structure Literal where
  negative : Bool
  magnitude : Magnitude
  deriving DecidableEq, Repr

def splitAt (stop : Char → Bool) (cs : List Char) : List Char × Option (List Char) :=
  match cs.span (fun c => !stop c) with
  | (before, []) => (before, none)
  | (before, _ :: after) => (before, some after)

def splitSign : List Char → Bool × List Char
  | '-' :: cs => (true, cs)
  | '+' :: cs => (false, cs)
  | cs => (false, cs)

/-- Digits in which single underscores may stand between two of them. -/
def digitRun (cs : List Char) : Option (List Char) :=
  let groups := cs.splitOn '_'
  if groups.all (fun g => !g.isEmpty && g.all Text.isDigit) then some groups.flatten else none

def digitValue (cs : List Char) : Nat :=
  cs.foldl (fun n c => 10 * n + (Text.digitValue? c).getD 0) 0

def optionalRun : List Char → Option (List Char)
  | [] => some []
  | cs => digitRun cs

/-- Leading zeros count among the digits. -/
def readInteger (text : String) : Option Int := do
  let (negative, cs) := splitSign (Text.trim text.toList)
  let ds ← digitRun cs
  if longestInteger < ds.length then none
  return if negative then -(digitValue ds : Int) else digitValue ds

def readExponent : Option (List Char) → Option Int
  | none => some 0
  | some cs =>
    let (negative, cs) := splitSign cs
    (digitRun cs).map fun ds => if negative then -(digitValue ds : Int) else digitValue ds

def readFinite (cs : List Char) : Option Magnitude := do
  let (mantissa, exponent) := splitAt (fun c => c == 'e' || c == 'E') cs
  let (whole, fraction) := splitAt (· == '.') mantissa
  let whole ← optionalRun whole
  let fraction ← optionalRun (fraction.getD [])
  if whole.isEmpty && fraction.isEmpty then none
  let exponent ← readExponent exponent
  return .finite (digitValue (whole ++ fraction)) (exponent - fraction.length)

def readMagnitude (cs : List Char) : Option Magnitude :=
  let word := String.ofList (cs.map Char.toLower)
  if word == "inf" || word == "infinity" then some .infinity
  else if word == "nan" then some .nan
  else readFinite cs

def read (text : String) : Option Literal :=
  let (negative, cs) := splitSign (Text.trim text.toList)
  (readMagnitude cs).map (⟨negative, ·⟩)

variable {S : Type} [Scalar S]

def Magnitude.value : Magnitude → S
  | .infinity => Scalar.infinity
  | .nan => Scalar.nan
  | .finite digits exponent =>
    -- Powers of ten are formed only where they can matter.
    if digits = 0 then 0
    else if 400 < exponent + digits.log2 / 3 + 1 ∧ 0 < exponent then Scalar.infinity
    else if exponent + digits.log2 + 1 < -400 then 0
    else
      (Scalar.ofRatio? (digits * powerOfTen exponent.toNat : Nat) (powerOfTen (-exponent).toNat)).getD
        Scalar.infinity

def Literal.value (l : Literal) : S :=
  if l.negative then -l.magnitude.value else l.magnitude.value

end ChanceGraph.Decimal
