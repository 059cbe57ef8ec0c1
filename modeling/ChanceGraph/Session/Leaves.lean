import ChanceGraph.Session.Basic
import ChanceGraph.Normalize

/-!
Leaves, weights and samples by themselves, without a sampler.
-/

set_option autoImplicit false

namespace ChanceGraph.Session

variable {S : Type} [Scalar S]

def drawMany (item : Item S) (n : Nat) : SessionM S (List (Outcome S (Value S))) :=
  takeSamples (attempt do
    let leaf ← ofOutcome item.asLeaf
    onWorld fun w => World.draw leaf w) n

/-- For each leaf the first one with an equal key; a leaf without a key is compared with none. -/
def keyClasses (known : List (Nat × LeafKey S)) (index : Nat) :
    List (Outcome S (LeafKey S)) → List (Outcome S Nat)
  | [] => []
  | .error fault :: rest => .error fault :: keyClasses known (index + 1) rest
  | .ok key :: rest =>
    let first := ((known.find? (·.2.same key)).map (·.1)).getD index
    .ok first :: keyClasses (known ++ [(index, key)]) (index + 1) rest

def classifyLeaves (bs : List (Blueprint S)) : SessionM S (List (Outcome S Nat)) := do
  let keys ← bs.mapM fun b => attempt do
    let leaf ← buildLeaf b
    ofOutcome (checkedLeafKey leaf)
  return keyClasses [] 0 keys

def makeAlias (elements weights : List (Value S)) : SessionM S (AliasSampler (Value S) S) := do
  let weights ← ofOutcome (weights.mapM Value.parseScalar)
  ofOutcome (AliasSampler.build elements weights)

def sampleAlias (s : AliasSampler (Value S) S) (n : Nat) : SessionM S (List (Value S)) :=
  takeSamples (onWorld fun w => s.sample w) n

def sampleAliasMany (s : AliasSampler (Value S) S) (n : Nat) : SessionM S (List (Value S)) :=
  onWorld fun w => s.sampleMany n w

def enumerateSupport (b : Blueprint S) : SessionM S (List (Weighted S)) := do
  ofOutcome (enumerate (← buildNode b))

def inferPosterior (b : Blueprint S) (keyOf : Grouping S) : SessionM S (Table S) := do
  ofOutcome (infer keyOf (← buildNode b))

def weighSamples (samples : List (Value S × Value S)) : Outcome S (List (Weighted S)) :=
  samples.mapM fun (v, w) => do return ⟨v, .real (← w.parseScalar)⟩

def posteriorAgain (keyOf : Grouping S) (samples : List (Weighted S)) : Nat → Outcome S (Table S)
  | 0 => posterior keyOf samples
  | n + 1 => do posterior keyOf (← posteriorAgain keyOf samples n).support

end ChanceGraph.Session
