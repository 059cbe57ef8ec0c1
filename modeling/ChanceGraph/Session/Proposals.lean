import ChanceGraph.Session.Samplers

/-!
Proposals of a kept sampler, made one at a time and without the choice between old and new.
-/

set_option autoImplicit false

namespace ChanceGraph.Session

variable {S : Type} [Scalar S]

structure ProposalReport (S : Type) where
  state : ChainState S
  score : S
  generation : Int
  /-- The logarithm of the probability of accepting it, where there is a state before. -/
  alpha : Option S

def proposeFrom (i : Nat) (previous : Option (ChainState S)) : SessionM S (ChainState S × Int) := do
  let sampler ← samplerAt i
  if sampler.strategy = .forward then throw .noSuchOperation
  let step : ChainStep (StateM (World S)) S (ChainState S) :=
    .ofTraversal (propose World.source patience sampler.root previous)
  let (result, tally) ← onWorld do return .ok (← step.run.run sampler.tally)
  putTally i tally
  return (← ofOutcome result, tally.cache.generation)

def reportProposal (state : ChainState S) (generation : Int) (previous : Option (ChainState S)) :
    Outcome S (ProposalReport S) := do
  let score ← state.trace.score
  let alpha ← previous.mapM fun p => acceptance state.trace p.trace
  return ⟨state, score, generation, alpha⟩

def stateNamed (name : String) : SessionM S (ChainState S) := do
  match ← thing name with
  | .state s => return s
  | _ => throw .noSuchOperation

def proposeNamed (sampler : String) (start : Option String) (target : String) :
    SessionM S (ProposalReport S) := do
  let i ← samplerIndex sampler
  let previous ← start.mapM stateNamed
  let (state, generation) ← proposeFrom i previous
  keep target (.state state)
  ofOutcome (reportProposal state generation previous)

def proposalsOnto (i : Nat) : Nat → Option (ChainState S) → List (Outcome S (ProposalReport S)) →
    SessionM S (List (Outcome S (ProposalReport S)))
  | 0, _, got => return got.reverse
  | n + 1, previous, got => do
    match ← attempt (do
      let (state, generation) ← proposeFrom i previous
      ofOutcome (reportProposal state generation previous)) with
    | .ok r => proposalsOnto i n (some r.state) (.ok r :: got)
    | .error fault => return (.error fault :: got).reverse

/-- Proposals from one state to the next, all of them taken; a fault ends the list. -/
def proposals (b : Blueprint S) (n : Nat) : SessionM S (List (Outcome S (ProposalReport S))) := do
  let i ← addSampler (← makeSampler b (some .markov) .current)
  proposalsOnto i n none []

end ChanceGraph.Session
