import ChanceGraph.Node
import ChanceGraph.Value.Operator
import ChanceGraph.Value.Bits

/-!
Building graphs, in which every object gets an identity of its own, and the operations that lift
those of values.
-/

set_option autoImplicit false

namespace ChanceGraph

variable {S : Type} [Scalar S]

/-- Builds with a stamp, and numbers the objects. -/
abbrev Build (S : Type) := ReaderT Nat (StateT Nat (Except (Fault S)))

namespace Build

def run {α : Type} (b : Build S α) (stamp : Nat) : Outcome S α := do
  return (← (ReaderT.run b stamp).run 0).1

def ofOutcome {α : Type} (r : Outcome S α) : Build S α :=
  fun _ index => r.map (·, index)

def newId : Build S ObjectId :=
  fun stamp index => .ok (⟨stamp, index⟩, index + 1)

def leaf (d : Outcome S (Distribution S)) : Build S (Node S) := do
  return .leaf ⟨← newId, ← ofOutcome d⟩

def constant (v : Value S) : Build S (Node S) :=
  leaf (.ok (.constant v))

end Build

/-- What stands where a node may stand: a node, or a plain value. -/
inductive Item (S : Type) where
  | node (id : ObjectId) (n : Node S)
  | plain (v : Value S)

namespace Item

/-- A leaf is the object that it is; any other node is a new one. -/
def ofNode : Node S → Build S (Item S)
  | .leaf l => pure (.node l.id (.leaf l))
  | n => do return .node (← Build.newId) n

def ofLeaf (d : Outcome S (Distribution S)) : Build S (Item S) := do
  ofNode (← Build.leaf d)

def liftNode : Item S → Build S (Node S)
  | .node _ n => pure n
  | .plain v => Build.constant v

def lift : Item S → Build S (Item S)
  | .node id n => pure (.node id n)
  | .plain v => ofLeaf (.ok (.constant v))

def node? : Item S → Outcome S (Node S)
  | .node _ n => .ok n
  | .plain _ => .error .notANode

def asNode : Item S → Outcome S (Node S)
  | .node _ n => .ok n
  | .plain _ => .error .noSuchOperation

def asLeaf : Item S → Outcome S (Leaf S)
  | .node _ (.leaf l) => .ok l
  | _ => .error .noSuchOperation

def asDependent (v : Value S) : Outcome S (Item S) → Node S
  | .ok (.node _ n) => n
  | .ok (.plain p) => .broken (.dependentNotANode v p)
  | .error fault => .broken fault

/-- Plain values are combined at once, and bit by bit where nodes would choose an operand. -/
def operatePlain (op : Operator) (x y : Value S) : Outcome S (Value S) :=
  match op with
  | .and => x.bitAnd y
  | .or => x.bitOr y
  | .eq | .ne => .error .noSuchOperation
  | op => op.apply x y

/-- A comparison with a plain left operand exchanges its operands; equality has none to its left. -/
def operateLifted (op : Operator) (x : Value S) (n : Node S) : Build S (Node S) := do
  match op, op.converse? with
  | .eq, _ | .ne, _ => Build.ofOutcome (.error .noSuchOperation)
  | _, some converse => return Node.lift2 converse.apply n (← Build.constant x)
  | op, none => return Node.lift2 op.apply (← Build.constant x) n

def operate (op : Operator) (a b : Item S) : Build S (Item S) :=
  match a, b with
  | .plain x, .plain y => do return .plain (← Build.ofOutcome (operatePlain op x y))
  | .plain x, .node _ n => do ofNode (← operateLifted op x n)
  | .node _ n, b => do ofNode (Node.lift2 op.apply n (← b.liftNode))

end Item

def Node.sequenceItems (items : List (Item S)) : Build S (Node S) := do
  let start ← Build.newId
  return .sequence start (← items.mapM Item.liftNode)

end ChanceGraph
