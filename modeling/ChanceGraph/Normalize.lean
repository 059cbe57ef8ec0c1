import ChanceGraph.Enumerate

/-!
Posterior distributions: weighted samples, grouped and rescaled to a table.
-/

set_option autoImplicit false

namespace ChanceGraph

variable {S : Type} [Scalar S]

/-- The sums of the weights, each started from zero.  All keys are formed before any weight is made
a scalar. -/
def groupWeights (keyOf : Grouping S) (samples : List (Weighted S)) :
    Outcome S (List (Group S S)) := do
  let keys ← samples.mapM fun s => checkedKey keyOf s.value
  if samples.isEmpty then throw .noSamples
  let weights ← samples.mapM (·.weight.toScalar)
  let groups ← (keys.zip (samples.zip weights)).foldlM
    (fun groups (key, s, w) => Group.insert (fun x y => .ok (x + y)) key s.value w groups) []
  return groups.map fun g => { g with weight := 0 + g.weight }

def posterior (keyOf : Grouping S) (samples : List (Weighted S)) : Outcome S (Table S) := do
  let groups ← groupWeights keyOf samples
  let total := (groups.map (·.weight)).foldl (· + ·) 0
  unless 0 < total do throw .zeroSamples
  Table.build keyOf (groups.map fun g => (g.value, .real (g.weight / total)))

def infer (keyOf : Grouping S) (node : Node S) : Outcome S (Table S) := do
  posterior keyOf (← enumerate node)

end ChanceGraph
