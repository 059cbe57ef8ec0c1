import ChanceGraph.Node
import ChanceGraph.Fault.Message

/-!
How nodes are shown.
-/

set_option autoImplicit false

namespace ChanceGraph

def Group.display (g : Group Float Float) : Outcome Float String := do
  return (← g.value.shown) ++ ": " ++ Decimal.significantText 4 g.weight

/-- A finite table shows its outcomes, every other leaf its parameters. -/
def Distribution.display (d : Distribution Float) : Outcome Float String :=
  match d with
  | .finite _ t => do
    return d.name ++ "(\x7b" ++ ", ".intercalate (← t.groups.mapM Group.display) ++ "\x7d)"
  | d => do
    let parameters ← (← d.parameters).items
    if allShowable parameters then return displayCall d.name parameters else throw .outOfDomain

def AliasSampler.display (s : AliasSampler (Value Float) Float) : String :=
  "AliasSampler(" ++ (Value.list s.elements).display ++ ", prob=" ++
    displayList s.columns.own.toList ++ ")"

def Node.display : Node Float → Outcome Float String
  | .leaf l => l.distribution.display
  | .weightedMap source _ => return "Map(" ++ (← source.display) ++ ")"
  | .weightedBind source _ _ => return "Bind(" ++ (← source.display) ++ ")"
  | .filter source _ => return "Filter(" ++ (← source.display) ++ ")"
  | .unknown name => .ok (Node.label name)
  | .broken fault => .error fault

end ChanceGraph
