import ChanceGraph.Value

/-!
What can go wrong, each with what its message shows.
-/

set_option autoImplicit false

namespace ChanceGraph

inductive Fault (S : Type) where
  -- Operations on values.
  | wrongType
  | unhashable
  | divisionByZero
  | overflow
  | outOfDomain
  | outOfRange
  | shapeMismatch
  | outOfMemory
  | noSuchOperation
  | ambiguousTruth
  | unboundName (name : String)
  -- Parameters of leaves.
  | probability (p : Value S)
  | positiveProbability (p : Value S)
  | openProbability (p : Value S)
  | deviation (sigma : Value S)
  | rate (rate : Value S)
  | bounds (low high : Value S)
  | noMean
  | covarianceShape (size : Nat) (covariance : List (List S))
  | noStates
  | stateCount (states probabilities : Nat)
  | stateProbabilities (total : Value S)
  | noIntegers (a b : Value S)
  -- Tables of weights.
  | noOutcomes
  | zeroOutcomes
  | elementCount (elements weights : Nat)
  | noWeights
  | negativeWeight (weights : List S)
  | zeroWeights
  -- Questions that a leaf cannot answer.
  | undefinedLeaf
  | unscored (name : String)
  | infiniteSupport (leaf : Option (String × List (Value S)))
  -- Graphs.
  | uncertainTruth
  | notANode
  | dependentNotANode (value dependent : Value S)
  | unknownNode (label : String)
  -- Inference.
  | noSamples
  | zeroSamples
  | hypotheses (low high : Value S)
  | errorRate (alpha : Value S)
  -- Configurations.
  | notPositive (field : String) (value : Value S)
  | outsideUnit (field : String) (value : Value S)
  | outsideHalf (field : String) (value : Value S)
  | unknownField
  | notAConfiguration (shown : String)
  | unknownSampler (value : Value S)
  -- Streams.
  | finished
  | outOfRandomness
  | endless

variable {S : Type}

abbrev Outcome (S α : Type) := Except (Fault S) α

end ChanceGraph
