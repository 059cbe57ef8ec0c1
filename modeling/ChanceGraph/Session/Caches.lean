import ChanceGraph.Session.Samplers

/-!
Caches used directly: those by themselves, and those of kept samplers.
-/

set_option autoImplicit false

namespace ChanceGraph.Session

variable {S : Type} [Scalar S]

inductive CachePlace where
  | own (name : String)
  | sampler (index : Nat)

def findCache (name : String) : SessionM S (CachePlace × Cache S) := do
  match ← thing name with
  | .cache c => return (.own name, c)
  | .sampler i => return (.sampler i, (← samplerAt i).tally.cache)
  | _ => throw .noSuchOperation

def putCache (place : CachePlace) (cache : Cache S) : SessionM S Unit :=
  match place with
  | .own name => keep name (.cache cache)
  | .sampler i => do putTally i { (← samplerAt i).tally with cache }

def newCache (name : String) (generation : Int) : SessionM S Unit :=
  keep name (.cache { generation })

/-- Values may be kept for any node; only leaves can be drawn from. -/
inductive CacheAction (S : Type) where
  | advance
  | get (id : ObjectId) (default : Value S)
  | put (id : ObjectId) (v : Value S)
  | sample (id : ObjectId) (node : Node S)
  | has (id : ObjectId)

section Actions

variable {m : Type → Type} [Monad m]

/-- The value of a node in this generation; without one, a leaf is drawn from. -/
def sampleNode (source : Source m S) (id : ObjectId) (node : Node S) (cache : Cache S) :
    m (Outcome S (Value S) × Cache S) :=
  match cache.get? id, node with
  | some v, _ => return (.ok v, cache)
  | none, .leaf l => (Traversal.sample source l).run.run cache
  | none, _ => return (.error .noSuchOperation, cache)

def CacheAction.run (source : Source m S) (action : CacheAction S) (cache : Cache S) :
    m (Outcome S (Value S) × Cache S) :=
  match action with
  | .advance => return (.ok (.int cache.advance.generation), cache.advance)
  | .get id default => return (.ok ((cache.get? id).getD default), cache)
  | .put id v => return (.ok .nothing, cache.put id v)
  | .has id => return (.ok (.bool (cache.contains id)), cache)
  | .sample id node => sampleNode source id node cache

end Actions

def actOnCache (name : String) (action : CacheAction S) : SessionM S (Value S × Cache S) := do
  let (place, cache) ← findCache name
  let (result, cache) ← onWorld do return .ok (← action.run World.source cache)
  putCache place cache
  return (← ofOutcome result, cache)

def buildObject (b : Blueprint S) : SessionM S (ObjectId × Node S) := do
  match ← build b with
  | .node id n => return (id, n)
  | .plain _ => throw .noSuchOperation

end ChanceGraph.Session
