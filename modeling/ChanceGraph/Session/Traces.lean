import ChanceGraph.Session.Basic

/-!
Traces put together by hand.
-/

set_option autoImplicit false

namespace ChanceGraph

structure ChoiceSpec (S : Type) where
  address : Address
  leaf : Blueprint S
  value : Value S
  score : Option (Number S)
  reused : Bool

namespace Session

variable {S : Type} [Scalar S]

/-- Without a score, the leaf gives its own. -/
def choose (c : ChoiceSpec S) : SessionM S (Choice S) := do
  let leaf ← buildLeaf c.leaf
  let score ← match c.score with
    | some x => pure x
    | none => ofOutcome (leaf.distribution.logDensity c.value)
  return ⟨c.address, leaf, c.value, score, c.reused⟩

def traceOf (cs : List (ChoiceSpec S)) : SessionM S (Trace S) := do
  return ⟨← cs.mapM choose⟩

def acceptanceOf (new old : List (ChoiceSpec S)) : SessionM S S := do
  let n ← traceOf new
  let o ← traceOf old
  ofOutcome (acceptance n o)

inductive TraceStep (S : Type) where
  | append (trace target : String) (choice : ChoiceSpec S)
  | score (trace : String)
  | read (trace : String)
  | item (trace : String) (index : Int)
  | find (trace : String) (address : Address) (leaf : Blueprint S)
  /-- As `find`, but the leaf's key is formed before the trace is looked at. -/
  | findKey (trace : String) (address : Address) (leaf : Blueprint S)

inductive TraceAnswer (S : Type) where
  | appended (t : Trace S)
  | score (x : S)
  | trace (t : Trace S)
  | choice (c : Option (Choice S))

def traceStep (traces : Names (Trace S)) : TraceStep S →
    SessionM S (TraceAnswer S × Names (Trace S))
  | .append trace target choice => do
    let t ← ofOutcome (traces.find trace)
    let t := t.append (← choose choice)
    return (.appended t, traces.set target t)
  | .score trace => do
    return (.score (← ofOutcome (← ofOutcome (traces.find trace)).score), traces)
  | .read trace => do
    return (.trace (← ofOutcome (traces.find trace)), traces)
  | .item trace index => do
    let t ← ofOutcome (traces.find trace)
    match Value.itemAt? t.choices index with
    | some c => return (.choice (some c), traces)
    | none => throw .outOfRange
  | .find trace address leaf => do
    let t ← ofOutcome (traces.find trace)
    let leaf ← buildLeaf leaf
    return (.choice (← ofOutcome (t.find? address leaf)), traces)
  | .findKey trace address leaf => do
    let t ← ofOutcome (traces.find trace)
    let leaf ← buildLeaf leaf
    let _ ← ofOutcome leaf.key
    return (.choice (← ofOutcome (t.find? address leaf)), traces)

def traceSteps (traces : Names (Trace S)) :
    List (TraceStep S) → SessionM S (List (Outcome S (TraceAnswer S)))
  | [] => return []
  | step :: rest => do
    match ← attempt (traceStep traces step) with
    | .ok (answer, traces) => return .ok answer :: (← traceSteps traces rest)
    | .error fault => return .error fault :: (← traceSteps traces rest)

end Session

end ChanceGraph
