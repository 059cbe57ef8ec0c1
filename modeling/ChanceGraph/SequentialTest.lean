import ChanceGraph.Leaf.Build

/-!
A sequential test of how probable truth is: samples are drawn until the likelihoods of two
hypotheses are far enough apart, or the budget is spent.
-/

set_option autoImplicit false

namespace ChanceGraph

variable {S : Type} [Scalar S]

/-- Truth has at most probability `low`, or at least `high`; either is accepted wrongly with
probability about `alpha`. -/
structure Hypotheses (S : Type) where
  low : S
  high : S
  alpha : S

namespace Hypotheses

def around (probability epsilon alpha : Value S) : Outcome S (Hypotheses S) := do
  let low ← probability.sub epsilon
  let high ← probability.add epsilon
  let apart ← do
    if ← (Value.real 0).lt low then
      if ← low.lt high then high.lt (.real 1) else pure false
    else pure false
  unless apart do throw (.hypotheses low high)
  unless ← alpha.within 0 .strict (Scalar.ratio 1 2) .strict do throw (.errorRate alpha)
  return ⟨← low.toScalar, ← high.toScalar, ← alpha.toScalar⟩

def lowerThreshold (h : Hypotheses S) : S :=
  Scalar.log (h.alpha / (1 - h.alpha))

def upperThreshold (h : Hypotheses S) : S :=
  Scalar.log ((1 - h.alpha) / h.alpha)

def ratioTrue (h : Hypotheses S) : S :=
  Scalar.log (h.high / h.low)

def ratioFalse (h : Hypotheses S) : S :=
  Scalar.log ((1 - h.high) / (1 - h.low))

end Hypotheses

structure Evidence (S : Type) where
  total : S
  holding : S

namespace Evidence

def zero : Evidence S :=
  ⟨0, 0⟩

def add (e : Evidence S) (holds : Bool) (weight : S) : Evidence S :=
  ⟨e.total + weight, if holds then e.holding + weight else e.holding⟩

def logLikelihood (h : Hypotheses S) (e : Evidence S) : S :=
  e.holding * h.ratioTrue + (e.total - e.holding) * h.ratioFalse

end Evidence

inductive Conclusion where
  | high
  | low
  | undecided
  deriving DecidableEq, Repr

structure Verdict where
  conclusion : Conclusion
  samples : Int
  deriving DecidableEq, Repr

namespace Verdict

/-- The answer to whether truth is as probable as asked; no is also said for want of evidence. -/
def decision (v : Verdict) : Bool :=
  v.conclusion == .high

end Verdict

def Hypotheses.conclude? (h : Hypotheses S) (e : Evidence S) : Option Conclusion :=
  let likelihood := e.logLikelihood h
  if h.upperThreshold ≤ likelihood then some .high
  else if likelihood ≤ h.lowerThreshold then some .low
  else none

variable {m : Type → Type} [Monad m]

def gather (next : ExceptT (Fault S) m (Sample S)) :
    Nat → Evidence S → ExceptT (Fault S) m (Evidence S)
  | 0, e => return e
  | k + 1, e => do
    let s ← next
    let holds ← ExceptT.mk (pure s.value.truth)
    gather next k (e.add holds s.weight)

/-- Concludes at the first checkpoint that is decisive; a checkpoint beyond the budget is not. -/
def conclude (h : Hypotheses S) (next : ExceptT (Fault S) m (Sample S)) (step : Nat)
    (budget : Int) (taken : Int) (e : Evidence S) : ExceptT (Fault S) m Verdict :=
  if _beyond : budget < taken then return ⟨.undecided, taken⟩
  else match h.conclude? e with
    | some c => return ⟨c, taken⟩
    | none =>
      if _stays : step = 0 then throw .endless
      else do
        conclude h next step budget (taken + step) (← gather next step e)
termination_by (budget + 1 - taken).toNat

/-- The greatest number of samples not above a bound; an infinite bound counts as `patience`. -/
def budgetOf (patience : Nat) (bound : Value S) : Outcome S (Option Int) :=
  match bound.number? with
  | none => .error .wrongType
  | some (.int n) => .ok (some n)
  | some (.real x) => match Scalar.floor? x with
    | some n => .ok (some n)
    | none => .ok (if x == Scalar.infinity then some patience else none)

def countOf (v : Value S) : Outcome S Int :=
  match v.integer? with
  | some n => .ok n
  | none => .error .wrongType

structure TestPlan (S : Type) where
  maxSamples : Value S
  initialSamples : Value S
  step : Value S

def TestPlan.samples (plan : TestPlan S) (v : Verdict) : Value S :=
  if plan.initialSamples.integer? = some v.samples then plan.initialSamples else .int v.samples

def sequentialTest (h : Hypotheses S) (plan : TestPlan S) (patience : Nat)
    (next : ExceptT (Fault S) m (Sample S)) : ExceptT (Fault S) m Verdict := do
  let start ← ExceptT.mk (pure (countOf plan.initialSamples))
  let e ← gather next start.toNat .zero
  match ← ExceptT.mk (pure (budgetOf patience plan.maxSamples)) with
  | none => return ⟨.undecided, start⟩
  | some budget =>
    match countOf plan.step with
    | .ok step => conclude h next step.toNat budget start e
    -- Without a step the first checkpoint is still reached.
    | .error fault => conclude h (throw fault) 1 budget start e

end ChanceGraph
