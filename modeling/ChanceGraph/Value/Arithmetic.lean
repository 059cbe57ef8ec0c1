import ChanceGraph.Number.Arithmetic
import ChanceGraph.Value.Order
import ChanceGraph.Decimal.Literal

/-!
Operations on values.  Integers are unbounded, a quotient is always real, texts and sequences add
by concatenation.
-/

set_option autoImplicit false

namespace ChanceGraph

variable {S : Type} [Scalar S]

namespace Value

def truth : Value S → Outcome S Bool
  | .nothing => .ok false
  | .bool b => .ok b
  | .int n => .ok (n != 0)
  | .real x => .ok !(x == 0)
  | .text s => .ok (s != "")
  | .tuple items | .list items => .ok !items.isEmpty
  | .vector [x] => .ok !(x == 0)
  | .vector _ => .error .ambiguousTruth

def toNumber (v : Value S) : Outcome S (Number S) :=
  match v.number? with
  | some n => .ok n
  | none => .error .wrongType

/-- Also a vector with one entry stands for a number. -/
def toScalar : Value S → Outcome S S
  | .vector [x] => .ok x
  | .vector _ => .error .outOfDomain
  | v => do (← v.toNumber).toScalar

/-- Also reads texts that hold a number. -/
def parseScalar : Value S → Outcome S S
  | .text s => match Decimal.read s with
    | some l => .ok l.value
    | none => .error .outOfDomain
  | v => v.toScalar

def integerPart (x : S) : Outcome S Int :=
  match Scalar.truncate? x with
  | some n => .ok n
  | none => .error (if Scalar.isNaN x then .outOfDomain else .overflow)

def parseInteger : Value S → Outcome S Int
  | .text s => match Decimal.readInteger s with
    | some n => .ok n
    | none => .error .outOfDomain
  | .real x => integerPart x
  | .vector [x] => integerPart x
  | .vector _ => .error .outOfDomain
  | v => match v.integer? with
    | some n => .ok n
    | none => .error .wrongType

/-- One more than the largest word with a sign. -/
def wordBound : Nat :=
  1 <<< 63

/-- A number that a vector is combined with: integers are words, with or without a sign. -/
def entryOperand (v : Value S) : Outcome S S := do
  match ← v.toNumber with
  | .real x => return x
  | .int n =>
    if n < -(wordBound : Int) ∨ (2 * wordBound : Int) ≤ n then throw .overflow else scalarOfInt n

def entrywise (f : S → S → S) (a b : Value S) : Outcome S (Value S) :=
  match a, b with
  | .vector xs, .vector ys =>
    if xs.length = ys.length then .ok (.vector (xs.zipWith f ys))
    else match xs, ys with
      | [x], ys => .ok (.vector (ys.map (f x)))
      | xs, [y] => .ok (.vector (xs.map (f · y)))
      | _, _ => .error .shapeMismatch
  | .vector xs, b => do
    let y ← b.entryOperand
    return .vector (xs.map (f · y))
  | a, .vector ys => do
    let x ← a.entryOperand
    return .vector (ys.map (f x))
  | _, _ => .error .wrongType

def numeric (onNumbers : Number S → Number S → Outcome S (Number S))
    (otherwise : Value S → Value S → Outcome S (Value S)) (a b : Value S) : Outcome S (Value S) :=
  match a.number?, b.number? with
  | some m, some n => do return .ofNumber (← onNumbers m n)
  | _, _ => otherwise a b

def add : Value S → Value S → Outcome S (Value S) :=
  numeric Number.add fun
    | .text s, .text t => .ok (.text (s ++ t))
    | .tuple xs, .tuple ys => .ok (.tuple (xs ++ ys))
    | .list xs, .list ys => .ok (.list (xs ++ ys))
    | a, b => entrywise (· + ·) a b

def sub : Value S → Value S → Outcome S (Value S) :=
  numeric Number.sub (entrywise (· - ·))

/-- More items than this find no place. -/
def memoryBound : Nat :=
  1 <<< 28

/-- How often to repeat a sequence of some length: less than no times is none.  The number of times is
a word, whatever is repeated. -/
def repetitions (tooLong : Fault S) (size : Nat) (n : Int) : Outcome S Nat :=
  if n < -(wordBound : Int) ∨ (wordBound : Int) ≤ n then .error .overflow
  else if wordBound ≤ size * n.toNat then .error tooLong
  else if memoryBound ≤ size * n.toNat then .error .outOfMemory
  else .ok (if size = 0 then 0 else n.toNat)

def repeatText (s : String) (n : Nat) : String :=
  Nat.repeat (· ++ s) n ""

def repeatItems {α : Type} (xs : List α) (n : Nat) : List α :=
  (List.replicate n xs).flatten

def repeated (v : Value S) (n : Int) : Outcome S (Value S) :=
  match v with
  | .text s => do return .text (repeatText s (← repetitions .overflow s.length n))
  | .tuple xs => do return .tuple (repeatItems xs (← repetitions .outOfMemory xs.length n))
  | .list xs => do return .list (repeatItems xs (← repetitions .outOfMemory xs.length n))
  | _ => .error .wrongType

def mul : Value S → Value S → Outcome S (Value S) :=
  numeric Number.mul fun a b =>
    match a, b with
    | .vector _, _ | _, .vector _ => entrywise (· * ·) a b
    | a, b => match a.integer?, b.integer? with
      | some n, none => b.repeated n
      | none, some n => a.repeated n
      | _, _ => .error .wrongType

def div : Value S → Value S → Outcome S (Value S) :=
  numeric Number.div (entrywise (· / ·))

def mod : Value S → Value S → Outcome S (Value S) :=
  numeric Number.mod fun _ _ => .error .wrongType

def neg : Value S → Outcome S (Value S)
  | .vector xs => .ok (.vector (xs.map (- ·)))
  | v => do return .ofNumber (← v.toNumber).neg

def length : Value S → Outcome S Nat
  | .text s => .ok s.length
  | .tuple items | .list items => .ok items.length
  | .vector xs => .ok xs.length
  | _ => .error .wrongType

/-- The item at an index, which counts from the end when negative. -/
def itemAt? {α : Type} (items : List α) (i : Int) : Option α :=
  let j := if i < 0 then i + items.length else i
  if j < 0 then none else items[j.toNat]?

/-- The items of a sequence; those of a text are its characters. -/
def items : Value S → Outcome S (List (Value S))
  | .text s => .ok (s.toList.map fun c => .text (String.singleton c))
  | .tuple items | .list items => .ok items
  | .vector xs => .ok (xs.map .real)
  | _ => .error .wrongType

def item (v i : Value S) : Outcome S (Value S) := do
  let items ← v.items
  match i.integer? with
  | none => .error .wrongType
  | some i => match itemAt? items i with
    | some x => .ok x
    | none => .error .outOfRange

end Value

end ChanceGraph
