import ChanceGraph.Fault

/-!
Arithmetic of numbers.  Integers stay exact among themselves, but for a quotient; an integer that
meets a real one is made real, which is a fault when it is too large.
-/

set_option autoImplicit false

namespace ChanceGraph

variable {S : Type} [Scalar S]

def scalarOfInt (n : Int) : Outcome S S :=
  match Scalar.ofInt? n with
  | some x => .ok x
  | none => .error .overflow

namespace Number

def one : Number S :=
  .real 1

def toScalar : Number S → Outcome S S
  | .int n => scalarOfInt n
  | .real x => .ok x

def combine (onInts : Int → Int → Outcome S (Number S)) (onReals : S → S → Outcome S S)
    (a b : Number S) : Outcome S (Number S) :=
  match a, b with
  | .int m, .int n => onInts m n
  | a, b => do
    let x ← a.toScalar
    let y ← b.toScalar
    return .real (← onReals x y)

def add : Number S → Number S → Outcome S (Number S) :=
  combine (fun m n => .ok (.int (m + n))) (fun x y => .ok (x + y))

def sub : Number S → Number S → Outcome S (Number S) :=
  combine (fun m n => .ok (.int (m - n))) (fun x y => .ok (x - y))

def mul : Number S → Number S → Outcome S (Number S) :=
  combine (fun m n => .ok (.int (m * n))) (fun x y => .ok (x * y))

/-- The quotient of integers, rounded once.  Zero over a negative number is a negative zero. -/
def ratio (m n : Int) : Outcome S (Number S) :=
  if n = 0 then .error .divisionByZero
  else match Scalar.ofRatio? m.natAbs n.natAbs with
    | some x => .ok (.real (if (m < 0) = (n < 0) then x else -x))
    | none => .error .overflow

def div : Number S → Number S → Outcome S (Number S) :=
  combine ratio fun x y => if y == 0 then .error .divisionByZero else .ok (x / y)

/-- The remainder takes the sign of the divisor. -/
def flooredRemainder (x y : S) : S :=
  let r := Scalar.remainder x y
  if r == 0 then (if y < 0 then -0 else 0)
  else if (y < 0) = (r < 0) then r
  else r + y

def mod : Number S → Number S → Outcome S (Number S) :=
  combine (fun m n => if n = 0 then .error .divisionByZero else .ok (.int (m.fmod n)))
    (fun x y => if y == 0 then .error .divisionByZero else .ok (flooredRemainder x y))

def neg : Number S → Number S
  | .int n => .int (-n)
  | .real x => .real (-x)

/-- Whether a number has no fraction; infinities and NaN have no answer. -/
def isInteger : Number S → Outcome S Bool
  | .int _ => .ok true
  | .real x =>
    if Scalar.isNaN x then .error .outOfDomain
    else if Scalar.isFinite x then .ok (Scalar.isIntegral x)
    else .error .overflow

/-- The logarithm of a positive number; integers have one however large they are. -/
def log : Number S → S
  | .real x => Scalar.log x
  | .int n =>
    match Scalar.ofInt? n with
    | some x => Scalar.log x
    | none =>
      let bits := n.natAbs.log2
      Scalar.log (Scalar.ratio n (1 <<< bits)) + Scalar.ofNat bits * Scalar.log (Scalar.ofNat 2)

end Number

end ChanceGraph
