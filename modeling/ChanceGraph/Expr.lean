import ChanceGraph.Node.Build
import ChanceGraph.Value.Coordinates

/-!
Expressions over named values, for the functions that a described graph applies.
-/

set_option autoImplicit false

namespace ChanceGraph

inductive Expr (S : Type) where
  | literal (v : Value S)
  | var (name : String)
  | ite (c a b : Expr S)
  | and (a b : Expr S)
  | or (a b : Expr S)
  | not (a : Expr S)
  | neg (a : Expr S)
  | len (a : Expr S)
  | int (a : Expr S)
  | float (a : Expr S)
  | binary (op : Operator) (a b : Expr S)
  | item (a i : Expr S)
  | tuple (es : List (Expr S))
  | list (es : List (Expr S))
  | vector (es : List (Expr S))

/-- The innermost binding of a name stands first. -/
abbrev Env (S : Type) := List (String × Item S)

variable {S : Type} [Scalar S]

namespace Env

def find (env : Env S) (name : String) : Outcome S (Item S) :=
  match env.lookup name with
  | some item => .ok item
  | none => .error (.unboundName name)

def value (env : Env S) (name : String) : Outcome S (Value S) := do
  match ← env.find name with
  | .plain v => return v
  | .node _ _ => throw .wrongType

def bindValue (env : Env S) (name : String) (v : Value S) : Env S :=
  (name, .plain v) :: env

end Env

mutual

def Expr.eval (env : Env S) : Expr S → Outcome S (Value S)
  | .literal v => .ok v
  | .var name => env.value name
  | .ite c a b => do
    if ← (← c.eval env).truth then a.eval env else b.eval env
  | .and a b => do
    let v ← a.eval env
    if ← v.truth then b.eval env else return v
  | .or a b => do
    let v ← a.eval env
    if ← v.truth then return v else b.eval env
  | .not a => do (← a.eval env).negation
  | .neg a => do (← a.eval env).neg
  | .len a => do return .int (← (← a.eval env).length)
  | .int a => do return .int (← (← a.eval env).parseInteger)
  | .float a => do return .real (← (← a.eval env).parseScalar)
  | .binary op a b => do
    let x ← a.eval env
    let y ← b.eval env
    op.apply x y
  | .item a i => do
    let v ← a.eval env
    let j ← i.eval env
    v.item j
  | .tuple es => do return .tuple (← evalAll env es)
  | .list es => do return .list (← evalAll env es)
  | .vector es => do return .vector (← (Value.list (← evalAll env es)).coordinates).entries

def evalAll (env : Env S) : List (Expr S) → Outcome S (List (Value S))
  | [] => .ok []
  | e :: rest => do
    let v ← e.eval env
    return v :: (← evalAll env rest)

end

namespace Expr

def fn (env : Env S) (name : String) (e : Expr S) (v : Value S) : Outcome S (Value S) :=
  e.eval (env.bindValue name v)

def predicate (env : Env S) (name : String) (e : Expr S) (v : Value S) : Outcome S Bool := do
  (← e.fn env name v).truth

/-- Groups by an expression over `x`; without one, by the value itself. -/
def grouping (env : Env S) : Option (Expr S) → Grouping S
  | none => .ok
  | some e => e.fn env "x"

end Expr

end ChanceGraph
