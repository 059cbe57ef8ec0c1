import ChanceGraph.Session.Answers

/-!
Samplers that are kept.  Any number of readers may read one; they share its cache and its counts,
but each is in a state of its own.
-/

set_option autoImplicit false

namespace ChanceGraph.Session

variable {S : Type} [Scalar S]

/-- Without a strategy, that of the configuration is taken. -/
def makeSampler (b : Blueprint S) (strategy : Option Strategy) (ref : ConfigRef S) :
    SessionM S (SamplerObject S) := do
  let item ← build b
  match strategy with
  | some strategy => return { strategy, root := ← ofOutcome item.node? }
  | none => openSampler item (← resolve ref)

def addSampler (sampler : SamplerObject S) : SessionM S Nat :=
  modifyGet fun s => (s.samplers.size, { s with samplers := s.samplers.push sampler })

def keepSampler (name : String) (b : Blueprint S) (strategy : Option Strategy)
    (ref : ConfigRef S) : SessionM S Strategy := do
  let sampler ← makeSampler b strategy ref
  let i ← addSampler sampler
  keep name (.sampler i)
  return sampler.strategy

def samplerIndex (name : String) : SessionM S Nat := do
  match ← thing name with
  | .sampler i => return i
  | _ => throw .noSuchOperation

def samplerAt (i : Nat) : SessionM S (SamplerObject S) := do
  match (← get).samplers[i]? with
  | some s => return s
  | none => throw .outOfRange

def putTally (i : Nat) (tally : ChainTally S) : SessionM S Unit :=
  modify fun s => { s with samplers := s.samplers.modify i ({ · with tally }) }

/-- Neither a configuration nor a cache can be read. -/
def openReader (name sampler : String) : SessionM S Unit := do
  match ← thing sampler with
  | .sampler i => keep name (.reader { sampler := i })
  | .config _ | .cache _ => throw .wrongType
  | .reader _ | .state _ => throw .noSuchOperation

structure Pulled (S : Type) where
  sample : Sample S
  steps : Nat
  accepted : Nat
  generation : Int

/-- Pulls one sample; a fault finishes the reader. -/
def pull (r : ReaderObject S) : SessionM S (Outcome S (Pulled S) × ReaderObject S) := do
  if r.finished then return (.error .finished, r)
  let sampler ← samplerAt r.sampler
  let (result, reading) ← onWorld do
    return .ok (← (reader sampler).run.run ⟨sampler.tally, r.current⟩)
  let tally := reading.tally
  putTally r.sampler tally
  return (result.map fun sample => ⟨sample, tally.steps, tally.accepted, tally.cache.generation⟩,
    { r with current := reading.current, finished := !result.isOk })

/-- A series that ends early keeps what it has got so far. -/
structure Series (S α : Type) where
  items : List α
  fault : Option (Fault S)

def pullOnto (r : ReaderObject S) : Nat → List (Pulled S) →
    SessionM S (Series S (Pulled S) × ReaderObject S)
  | 0, got => return (⟨got.reverse, none⟩, r)
  | n + 1, got => do
    match ← pull r with
    | (.ok p, r) => pullOnto r n (p :: got)
    | (.error fault, r) => return (⟨got.reverse, some fault⟩, r)

structure Pulls (S : Type) where
  strategy : Strategy
  series : Series S (Pulled S)
  tally : ChainTally S

def pullMany (r : ReaderObject S) (n : Nat) : SessionM S (Pulls S × ReaderObject S) := do
  let (series, r) ← pullOnto r n []
  let sampler ← samplerAt r.sampler
  return (⟨sampler.strategy, series, sampler.tally⟩, r)

def pullNamed (name : String) (n : Nat) : SessionM S (Pulls S) := do
  match ← thing name with
  | .reader r => do
    let (pulls, r) ← pullMany r n
    keep name (.reader r)
    return pulls
  | _ => throw .wrongType

def pullNew (b : Blueprint S) (strategy : Strategy) (n : Nat) : SessionM S (Pulls S) := do
  let i ← addSampler (← makeSampler b (some strategy) .current)
  return (← pullMany { sampler := i } n).1

end ChanceGraph.Session
