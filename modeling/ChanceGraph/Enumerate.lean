import ChanceGraph.Node

/-!
Exact enumeration: every path through the graph with its outcome and weight.
-/

set_option autoImplicit false

namespace ChanceGraph

variable {S : Type} [Scalar S]

def projected (project : Value S → Outcome S (Weighted S)) (a : Weighted S) :
    Outcome S (Weighted S) := do
  let b ← project a.value
  return ⟨b.value, ← a.weight.mul b.weight⟩

def combined (combine : Value S → Value S → Outcome S (Weighted S)) (a c : Weighted S) :
    Outcome S (Weighted S) := do
  let r ← combine a.value c.value
  return ⟨r.value, ← (← a.weight.mul c.weight).mul r.weight⟩

/-- Outcomes of different paths are not merged, and a filter drops outcomes without rescaling. -/
def enumerate : Node S → Outcome S (List (Weighted S))
  | .leaf l => l.distribution.support
  | .weightedMap source project => do
    (← enumerate source).mapM (projected project)
  | .weightedBind source dependent combine => do
    let lists ← (← enumerate source).mapM fun a => do
      (← enumerate (dependent a.value 0)).mapM (combined combine a)
    return lists.flatten
  | .filter source predicate => do
    (← enumerate source).filterM fun a => predicate a.value
  | .unknown name => .error (.unknownNode (Node.label name))
  | .broken fault => .error fault

end ChanceGraph
