import ChanceGraph.Traversal
import ChanceGraph.Node
import ChanceGraph.Sample

/-!
Forward sampling: one traversal of the graph is one sample, and a filter is met by rejection.
-/

set_option autoImplicit false

namespace ChanceGraph

variable {S : Type} [Scalar S] {m : Type → Type} [Monad m]

/-- The attempts at one filter are bounded by `patience`. -/
def forward (source : Source m S) (patience : Nat) : Node S → Traversal m S (Sample S)
  | .leaf l => do
    return .ofValue (← Traversal.sample source l)
  | .weightedMap n project => do
    let a ← forward source patience n
    Traversal.ofOutcome do a.project (← project a.value)
  | .weightedBind n dependent combine => do
    let a ← forward source patience n
    let stamp ← Traversal.fresh source
    let c ← forward source patience (dependent a.value stamp)
    Traversal.ofOutcome do a.combine c (← combine a.value c.value)
  | .filter n predicate =>
    Traversal.retry (forward source patience n) (fun a => predicate a.value) patience
  | .unknown name => throw (.unknownNode (Node.label name))
  | .broken fault => throw fault

def nextForward (source : Source m S) (patience : Nat) (root : Node S) :
    Traversal m S (Sample S) := do
  Traversal.advance
  forward source patience root

end ChanceGraph
