import ChanceGraph.Forward
import ChanceGraph.Chain

/-!
Samplers of either kind, read one sample at a time.
-/

set_option autoImplicit false

namespace ChanceGraph

variable {S : Type} [Scalar S] {m : Type → Type} [Monad m]

inductive Strategy where
  | forward
  | markov
  deriving DecidableEq, Repr

/-- A sampler that is being read: what its readers share, and where this one is. -/
structure Reading (S : Type) where
  tally : ChainTally S := {}
  current : Option (ChainState S) := none

abbrev Reader (m : Type → Type) (S : Type) := ExceptT (Fault S) (StateT (Reading S) m)

namespace Reader

def ofChain {α : Type} (step : ChainStep m S α) : Reader m S α :=
  ExceptT.mk fun reading => do
    let (r, tally) ← step.run.run reading.tally
    return (r, { reading with tally })

def nextForward (source : Source m S) (patience : Nat) (root : Node S) :
    Reader m S (Sample S) :=
  ofChain (ChainStep.ofTraversal (ChanceGraph.nextForward source patience root))

def nextMarkov (source : Source m S) (patience : Nat) (root : Node S) : Reader m S (Sample S) := do
  let current := (← get).current
  let state ← ofChain (nextState source patience root current patience)
  modify fun reading => { reading with current := some state }
  return state.sample

def next (source : Source m S) (patience : Nat) (strategy : Strategy) (root : Node S) :
    Reader m S (Sample S) :=
  match strategy with
  | .forward => nextForward source patience root
  | .markov => nextMarkov source patience root

end Reader

variable {n : Type → Type} [Monad n]

def takeOnto {α : Type} (next : n α) : Nat → List α → n (List α)
  | 0, taken => return taken.reverse
  | k + 1, taken => do takeOnto next k ((← next) :: taken)

def takeSamples {α : Type} (next : n α) (k : Nat) : n (List α) :=
  takeOnto next k []

end ChanceGraph
