import ChanceGraph.Number

/-!
The values that random variables take.  Booleans count as integers where numbers are compared, and
lists differ from tuples in that they cannot be grouped by.
-/

set_option autoImplicit false

namespace ChanceGraph

inductive Value (S : Type) where
  | nothing
  | bool (b : Bool)
  | int (n : Int)
  | real (x : S)
  | text (s : String)
  | tuple (items : List (Value S))
  | list (items : List (Value S))
  | vector (xs : List S)

variable {S : Type}

def Value.number? : Value S → Option (Number S)
  | .bool b => some (.int b.toInt)
  | .int n => some (.int n)
  | .real x => some (.real x)
  | _ => none

def Value.integer? : Value S → Option Int
  | .bool b => some b.toInt
  | .int n => some n
  | _ => none

mutual

def Value.isKey : Value S → Bool
  | .list _ => false
  | .tuple items => allKeys items
  | _ => true

def allKeys : List (Value S) → Bool
  | [] => true
  | v :: rest => v.isKey && allKeys rest

end

variable [Scalar S]

mutual

def Value.equalBy (eq : S → S → Bool) : Value S → Value S → Bool
  | .nothing, b => match b with
    | .nothing => true
    | _ => false
  | .text s, b => match b with
    | .text t => s == t
    | _ => false
  | .tuple xs, b => match b with
    | .tuple ys => allEqualBy eq xs ys
    | _ => false
  | .list xs, b => match b with
    | .list ys => allEqualBy eq xs ys
    | _ => false
  | .vector xs, b => match b with
    | .vector ys => xs.length == ys.length && (xs.zip ys).all fun (x, y) => eq x y
    | _ => false
  | .bool m, b => (b.number?.map (Number.equalBy eq (.int m.toInt))).getD false
  | .int m, b => (b.number?.map (Number.equalBy eq (.int m))).getD false
  | .real x, b => (b.number?.map (Number.equalBy eq (.real x))).getD false

def allEqualBy (eq : S → S → Bool) : List (Value S) → List (Value S) → Bool
  | [], ys => ys.isEmpty
  | x :: xs, ys => match ys with
    | [] => false
    | y :: ys => x.equalBy eq y && allEqualBy eq xs ys

end

namespace Value

/-- The comparison that programs make: NaN equals nothing. -/
def equal (a b : Value S) : Bool :=
  a.equalBy (· == ·) b

/-- The comparison that groups values: it knows NaN again. -/
def alike (a b : Value S) : Bool :=
  a.equalBy (fun x y => x == y || (Scalar.isNaN x && Scalar.isNaN y)) b

end Value

def Value.ofNumber {S : Type} : Number S → Value S
  | .int n => .int n
  | .real x => .real x

structure Weighted (S : Type) where
  value : Value S
  weight : Number S

/-- A drawn outcome and its weight, which sampling always makes real. -/
structure Sample (S : Type) where
  value : Value S
  weight : S

end ChanceGraph
