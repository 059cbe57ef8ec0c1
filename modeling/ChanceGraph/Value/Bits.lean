import ChanceGraph.Value.Arithmetic

/-!
Conjunction and disjunction of integers bit by bit, negative ones with infinitely many leading ones.
-/

set_option autoImplicit false

namespace ChanceGraph

/-- The bits of the first number that the second does not have. -/
def bitsWithout (m n : Nat) : Nat :=
  m ^^^ (m &&& n)

def intAnd : Int → Int → Int
  | .ofNat m, .ofNat n => .ofNat (m &&& n)
  | .ofNat m, .negSucc n => .ofNat (bitsWithout m n)
  | .negSucc m, .ofNat n => .ofNat (bitsWithout n m)
  | .negSucc m, .negSucc n => .negSucc (m ||| n)

def intOr : Int → Int → Int
  | .ofNat m, .ofNat n => .ofNat (m ||| n)
  | .ofNat m, .negSucc n => .negSucc (bitsWithout n m)
  | .negSucc m, .ofNat n => .negSucc (bitsWithout m n)
  | .negSucc m, .negSucc n => .negSucc (m &&& n)

namespace Value

variable {S : Type}

/-- Two booleans give a boolean, every other pair of integers an integer. -/
def bitwise (onBools : Bool → Bool → Bool) (onInts : Int → Int → Int) (a b : Value S) :
    Outcome S (Value S) :=
  match a, b with
  | .bool p, .bool q => .ok (.bool (onBools p q))
  | a, b => match a.integer?, b.integer? with
    | some m, some n => .ok (.int (onInts m n))
    | _, _ => .error .wrongType

def bitAnd : Value S → Value S → Outcome S (Value S) :=
  bitwise and intAnd

def bitOr : Value S → Value S → Outcome S (Value S) :=
  bitwise or intOr

def complement (v : Value S) : Outcome S (Value S) :=
  match v.integer? with
  | some n => .ok (.int (-n - 1))
  | none => .error .wrongType

end Value

end ChanceGraph
