import ChanceGraph.Value.Arithmetic

/-!
The binary operations that both expressions and graphs use.
-/

set_option autoImplicit false

namespace ChanceGraph

inductive Operator where
  | add
  | sub
  | mul
  | div
  | mod
  | eq
  | ne
  | lt
  | le
  | gt
  | ge
  | and
  | or
  deriving DecidableEq, Repr

namespace Operator

variable {S : Type} [Scalar S]

/-- A conjunction or disjunction is one of its operands. -/
def apply (op : Operator) (a b : Value S) : Outcome S (Value S) :=
  match op with
  | .add => a.add b
  | .sub => a.sub b
  | .mul => a.mul b
  | .div => a.div b
  | .mod => a.mod b
  | .eq => .ok (.bool (a.equal b))
  | .ne => .ok (.bool !(a.equal b))
  | .lt => do return .bool (← a.lt b)
  | .le => do return .bool (← a.le b)
  | .gt => do return .bool (← a.gt b)
  | .ge => do return .bool (← a.ge b)
  | .and => do return if ← a.truth then b else a
  | .or => do return if ← a.truth then a else b

def converse? : Operator → Option Operator
  | .lt => some .gt
  | .le => some .ge
  | .gt => some .lt
  | .ge => some .le
  | _ => none

end Operator

def Value.negation {S : Type} [Scalar S] (v : Value S) : Outcome S (Value S) := do
  return .bool !(← v.truth)

end ChanceGraph
