import ChanceGraph.Fault
import ChanceGraph.Value.Text

/-!
The wording of faults.  Those of plain operations on values have none.
-/

set_option autoImplicit false

namespace ChanceGraph

def displayCall (name : String) (parameters : List (Value Float)) : String :=
  name ++ "(" ++ ", ".intercalate (displayAll parameters) ++ ")"

def displayMatrix (rows : List (List Float)) : String :=
  (Value.tuple (rows.map fun row => .tuple (row.map .real))).display

def Fault.message? : Fault Float → Option String
  | .wrongType | .unhashable | .divisionByZero | .overflow | .outOfDomain | .outOfRange
  | .shapeMismatch | .outOfMemory | .noSuchOperation | .ambiguousTruth | .notANode | .unknownField | .finished
  | .outOfRandomness | .endless | .unboundName _ => none
  | .probability p => some ("Flip expects a probability in [0, 1], got " ++ p.plain)
  | .positiveProbability p => some ("Geometric expects a probability in (0, 1], got " ++ p.plain)
  | .openProbability p =>
    some ("TruncatedGeometric expects a probability in (0, 1), got " ++ p.plain)
  | .deviation sigma => some ("Gaussian expects a positive sigma, got " ++ sigma.plain)
  | .rate r => some ("Exponential expects a positive rate, got " ++ r.plain)
  | .bounds low high =>
    some ("Uniform expects low < high, got " ++ low.plain ++ " >= " ++ high.plain)
  | .noMean => some "MultivariateNormal expects a non-empty mean"
  | .covarianceShape n covariance =>
    some ("MultivariateNormal expects a " ++ toString n ++ "x" ++ toString n ++
      " covariance, got " ++ displayMatrix covariance)
  | .noStates => some "Multinomial expects at least one state"
  | .stateCount states probabilities =>
    some ("got " ++ toString states ++ " states but " ++ toString probabilities ++
      " probabilities")
  | .stateProbabilities total =>
    some ("Multinomial probabilities must sum to 1, got " ++ total.plain)
  | .noIntegers a b => some ("(" ++ a.plain ++ ", " ++ b.plain ++ "] contains no integers")
  | .noOutcomes => some "cannot build a distribution over no outcomes"
  | .zeroOutcomes => some "outcome weights sum to zero"
  | .elementCount elements weights =>
    some ("got " ++ toString elements ++ " elements but " ++ toString weights ++ " weights")
  | .noWeights => some "cannot sample from an empty weight set"
  | .negativeWeight weights => some ("weights must be non-negative: " ++ displayList weights)
  | .zeroWeights => some "weights sum to zero"
  | .undefinedLeaf => some ""
  | .unscored name => some (name ++ " must override density or log_density")
  | .infiniteSupport none => some "infinite support"
  | .infiniteSupport (some (name, parameters)) =>
    some ("infinite support: " ++ displayCall name parameters)
  | .uncertainTruth =>
    some "the truth value of an uncertain value is itself uncertain; use pr() to decide it"
  | .dependentNotANode value dependent =>
    some ("bind expected the dependent of " ++ value.display ++ " to be an Uncertain, got " ++
      dependent.display)
  | .unknownNode label => some ("Unknown type of computation node: " ++ label)
  | .noSamples => some "cannot normalize an empty list of samples"
  | .zeroSamples => some "sample weights sum to zero"
  | .hypotheses low high =>
    some ("hypotheses " ++ low.plain ++ " and " ++ high.plain ++
      " must lie strictly between 0 and 1")
  | .errorRate alpha => some ("alpha must lie in (0, 0.5), got " ++ alpha.plain)
  | .notPositive field value => some (field ++ " must be positive, got " ++ value.plain)
  | .outsideUnit field value => some (field ++ " must lie in (0, 1), got " ++ value.plain)
  | .outsideHalf field value => some (field ++ " must lie in (0, 0.5), got " ++ value.plain)
  | .notAConfiguration shown => some ("expected an InferenceConfig, got " ++ shown)
  | .unknownSampler value => some ("Unknown sampler: " ++ value.plain)

def Fault.values {S : Type} : Fault S → List (Value S)
  | .probability v | .positiveProbability v | .openProbability v | .deviation v | .rate v
  | .stateProbabilities v | .errorRate v | .notPositive _ v | .outsideUnit _ v | .outsideHalf _ v
  | .unknownSampler v => [v]
  | .bounds v w | .noIntegers v w | .hypotheses v w | .dependentNotANode v w => [v, w]
  | .infiniteSupport (some (_, parameters)) => parameters
  | _ => []

/-- A fault whose message cannot be written becomes the fault of writing it. -/
def Fault.told {S : Type} (f : Fault S) : Fault S :=
  if allShowable f.values then f else .outOfDomain

end ChanceGraph
