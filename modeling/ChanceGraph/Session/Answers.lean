import ChanceGraph.Session.Settings
import ChanceGraph.Normalize
import ChanceGraph.Estimate
import ChanceGraph.SequentialTest

/-!
Questions about a graph that are answered with samples of a sampler made for the purpose.
-/

set_option autoImplicit false

namespace ChanceGraph.Session

variable {S : Type} [Scalar S]

/-- A plain value has no sampler; an unknown sampler is found out first. -/
def openSampler (item : Item S) (c : Config S) : SessionM S (SamplerObject S) := do
  let strategy ← ofOutcome c.strategy
  return { strategy, root := ← ofOutcome item.node? }

def reader (s : SamplerObject S) : Reader (StateM (World S)) S (Sample S) :=
  Reader.next World.source patience s.strategy s.root

def readOnce {α : Type} (r : Reader (StateM (World S)) S α) : SessionM S α :=
  onWorld do return (← r.run.run {}).1

def countBound : Nat :=
  1 <<< 63

/-- Without a number, samples are taken until a fault ends them. -/
def countOfSamples : Value S → Outcome S Nat
  | .nothing => .ok patience
  | v => match v.integer? with
    | some n => if 0 ≤ n ∧ n < countBound then .ok n.toNat else .error .outOfDomain
    | none => .error .outOfDomain

def take (item : Item S) (num : Value S) (c : Config S) : SessionM S (List (Sample S)) := do
  let sampler ← openSampler item c
  let n ← ofOutcome (countOfSamples num)
  readOnce (takeSamples (reader sampler) n)

/-- A number left open is that of the configuration. -/
def takeOrDefault (b : Blueprint S) (num : Option (Value S)) (ref : ConfigRef S) :
    SessionM S (List (Sample S)) := do
  let item ← build b
  let c ← resolve ref
  take item (num.getD c.expectedValueSamples) c

def sampledPosterior (b : Blueprint S) (num : Value S) (keyOf : Grouping S) (ref : ConfigRef S) :
    SessionM S (Table S) := do
  let item ← build b
  let samples ← take item num (← resolve ref)
  ofOutcome (posterior keyOf (samples.map Sample.weighted))

def sampleEach (b : Blueprint S) (num : Nat) (ref : ConfigRef S) :
    SessionM S (List (Outcome S (Value S))) := do
  let item ← build b
  let c ← resolve ref
  takeSamples (attempt do
    let sampler ← openSampler item c
    return (← readOnce (reader sampler)).value) num

def expectedValue (b : Blueprint S) (num : Option (Value S)) (ref : ConfigRef S) :
    SessionM S (Value S) := do
  let samples ← takeOrDefault b num ref
  ofOutcome (weightedMean samples)

def expectedInterval (b : Blueprint S) (num : Option (Value S)) (ref : ConfigRef S) :
    SessionM S (Interval S) := do
  let samples ← takeOrDefault b num ref
  ofOutcome (meanInterval samples)

/-- What a test is asked to do; the configuration fills what is left open. -/
structure TestRequest (S : Type) where
  probability : Value S
  alpha : Option (Value S) := none
  epsilon : Option (Value S) := none
  maxSamples : Option (Value S) := none
  initialSamples : Option (Value S) := none
  step : Option (Value S) := none

def TestRequest.hypotheses (r : TestRequest S) (c : Config S) : Outcome S (Hypotheses S) :=
  Hypotheses.around r.probability (r.epsilon.getD c.epsilon) (r.alpha.getD c.alpha)

def TestRequest.plan (r : TestRequest S) (c : Config S) : TestPlan S where
  maxSamples := r.maxSamples.getD c.maxSamples
  initialSamples := r.initialSamples.getD c.initialSamples
  step := r.step.getD c.sampleStep

structure TestResult (S : Type) where
  hypotheses : Hypotheses S
  plan : TestPlan S
  verdict : Verdict

def testItem (item : Item S) (r : TestRequest S) (c : Config S) : SessionM S (TestResult S) := do
  let h ← ofOutcome (r.hypotheses c)
  let sampler ← openSampler item c
  let plan := r.plan c
  return ⟨h, plan, ← readOnce (sequentialTest h plan patience (reader sampler))⟩

def test (b : Blueprint S) (r : TestRequest S) (ref : ConfigRef S) : SessionM S (TestResult S) := do
  let item ← build b
  testItem item r (← resolve ref)

end ChanceGraph.Session
