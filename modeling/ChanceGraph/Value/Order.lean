import ChanceGraph.Fault

/-!
The order of values: numbers by size, texts by code points, tuples and lists by their first
difference.  Other pairs have none.
-/

set_option autoImplicit false

namespace ChanceGraph

variable {S : Type} [Scalar S]

inductive Bound where
  | strict
  | weak
  deriving DecidableEq

def Bound.holds : Bound → Number S → Number S → Bool
  | .strict => Number.lt
  | .weak => Number.le

mutual

def Value.precedes (bound : Bound) : Value S → Value S → Outcome S Bool
  | .text s, b => match b with
    | .text t => .ok (match bound with
      | .strict => decide (s < t)
      | .weak => !decide (t < s))
    | _ => .error .wrongType
  | .tuple xs, b => match b with
    | .tuple ys => listPrecedes bound xs ys
    | _ => .error .wrongType
  | .list xs, b => match b with
    | .list ys => listPrecedes bound xs ys
    | _ => .error .wrongType
  | .bool m, b => numberPrecedes bound (.int m.toInt) b
  | .int m, b => numberPrecedes bound (.int m) b
  | .real x, b => numberPrecedes bound (.real x) b
  | .nothing, _ => .error .wrongType
  | .vector _, _ => .error .wrongType

def listPrecedes (bound : Bound) : List (Value S) → List (Value S) → Outcome S Bool
  | [], ys => .ok (match bound with
    | .strict => !ys.isEmpty
    | .weak => true)
  | x :: xs, ys => match ys with
    | [] => .ok false
    | y :: ys => if x.equal y then listPrecedes bound xs ys else x.precedes bound y

def numberPrecedes (bound : Bound) (a : Number S) (b : Value S) : Outcome S Bool :=
  match b.number? with
  | some b => .ok (bound.holds a b)
  | none => .error .wrongType

end

namespace Value

def lt (a b : Value S) : Outcome S Bool :=
  a.precedes .strict b

def le (a b : Value S) : Outcome S Bool :=
  a.precedes .weak b

def gt (a b : Value S) : Outcome S Bool :=
  b.lt a

def ge (a b : Value S) : Outcome S Bool :=
  b.le a

end Value

end ChanceGraph
