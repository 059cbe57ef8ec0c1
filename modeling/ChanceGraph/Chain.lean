import ChanceGraph.Trace
import ChanceGraph.Traversal
import ChanceGraph.Node
import ChanceGraph.Sample

/-!
Metropolis-Hastings over traces: a step redraws one choice, keeps the others that are met again,
and is accepted or not.  Nothing under a filter is kept.
-/

set_option autoImplicit false

namespace ChanceGraph

variable {S : Type} [Scalar S] {m : Type → Type} [Monad m]

structure Site (S : Type) where
  address : Address
  key : LeafKey S
  id : ObjectId

structure Proposal (S : Type) where
  previous : Trace S
  site : Option (Site S)

/-- Whether a proposal redraws a leaf: the very leaf picked, or one like it in its place. -/
def Proposal.redraws (p : Proposal S) (address : Address) (leaf : Leaf S) : Outcome S Bool :=
  match p.site with
  | none => .ok false
  | some site => do
    if site.id = leaf.id then return true
    return site.address = address && site.key.same (← leaf.key)

def Proposal.kept (p : Proposal S) (address : Address) (leaf : Leaf S) :
    Outcome S (Option (Choice S)) := do
  match ← p.previous.find? address leaf with
  | none => return none
  | some old => return if ← p.redraws address leaf then none else some old

structure Progress (S : Type) where
  address : Address
  trace : Trace S

namespace Progress

def advance (p : Progress S) (c : Combinator) : Progress S :=
  { p with address := p.address.advance c }

def record (p : Progress S) (leaf : Leaf S) (v : Value S) (logScore : Number S) (reused : Bool) :
    Progress S :=
  { p with trace := p.trace.append ⟨p.address, leaf, v, logScore, reused⟩ }

end Progress

def recordFresh (leaf : Leaf S) (v : Value S) (here : Progress S) :
    Traversal m S (Sample S × Progress S) := do
  let logScore ← Traversal.ofOutcome (leaf.distribution.logDensity v)
  return (.ofValue v, here.record leaf v logScore false)

def visitFresh (source : Source m S) (leaf : Leaf S) (here : Progress S) :
    Traversal m S (Sample S × Progress S) := do
  recordFresh leaf (← Traversal.sample source leaf) here

def visitKept (leaf : Leaf S) (old : Choice S) (here : Progress S) :
    Traversal m S (Sample S × Progress S) := do
  modify (·.put leaf.id old.value)
  return (.ofValue old.value, here.record leaf old.value old.logScore true)

/-- Only a leaf that has no value yet in this generation may keep an old one. -/
def visitChoice (source : Source m S) (p : Proposal S) (fresh : Bool) (leaf : Leaf S)
    (here : Progress S) : Traversal m S (Sample S × Progress S) := do
  if fresh || (← get).contains leaf.id then visitFresh source leaf here
  else
    match ← Traversal.ofOutcome (p.kept here.address leaf) with
    | some old => visitKept leaf old here
    | none => visitFresh source leaf here

/-- Point masses leave no record. -/
def visitLeaf (source : Source m S) (p : Proposal S) (fresh : Bool) (leaf : Leaf S)
    (here : Progress S) : Traversal m S (Sample S × Progress S) :=
  match leaf.distribution with
  | .constant v => return (.ofValue v, here)
  | _ => visitChoice source p fresh leaf here

def visit (source : Source m S) (patience : Nat) (p : Proposal S) :
    Node S → Bool → Progress S → Traversal m S (Sample S × Progress S)
  | .leaf l, fresh, here => visitLeaf source p fresh l here
  | .weightedMap n project, fresh, here => do
    let (a, here) ← visit source patience p n fresh (here.advance .map)
    return (← Traversal.ofOutcome do a.project (← project a.value), here)
  | .weightedBind n dependent combine, fresh, here => do
    let (a, here) ← visit source patience p n fresh (here.advance .bind)
    let stamp ← Traversal.fresh source
    let (c, here) ← visit source patience p (dependent a.value stamp) fresh (here.advance .bind)
    return (← Traversal.ofOutcome do a.combine c (← combine a.value c.value), here)
  | .filter n predicate, _, here =>
    Traversal.retry (visit source patience p n true (here.advance .filter))
      (fun (a, _) => predicate a.value) patience
  | .unknown name, _, _ => throw (.unknownNode (Node.label name))
  | .broken fault, _, _ => throw fault

structure ChainState (S : Type) where
  trace : Trace S
  sample : Sample S
  site : Option Nat

def Proposal.at (trace : Trace S) (index : Nat) : Outcome S (Proposal S) := do
  match trace.choices[index]? with
  | some c => return ⟨trace, some ⟨c.address, ← c.leaf.key, c.leaf.id⟩⟩
  | none => throw .outOfRange

def pickSite (source : Source m S) (current : Option (ChainState S)) :
    Traversal m S (Proposal S × Option Nat) := do
  match current with
  | none => return (⟨.empty, none⟩, none)
  | some c =>
    if c.trace.isEmpty then return (⟨c.trace, none⟩, none)
    let u ← Traversal.ofAction source.uniform
    let index := Scalar.index u c.trace.size
    return (← Traversal.ofOutcome (Proposal.at c.trace index), some index)

def propose (source : Source m S) (patience : Nat) (root : Node S)
    (current : Option (ChainState S)) : Traversal m S (ChainState S) := do
  Traversal.advance
  let (p, site) ← pickSite source current
  let (sample, progress) ← visit source patience p root false ⟨{}, .empty⟩
  return ⟨progress.trace, sample, site⟩

/-- What all chains of one sampler share. -/
structure ChainTally (S : Type) where
  cache : Cache S := {}
  steps : Nat := 0
  accepted : Nat := 0

abbrev ChainStep (m : Type → Type) (S : Type) := ExceptT (Fault S) (StateT (ChainTally S) m)

def ChainStep.ofTraversal {α : Type} (t : Traversal m S α) : ChainStep m S α :=
  ExceptT.mk fun tally => do
    let (r, cache) ← t.run.run tally.cache
    return (r, { tally with cache })

def ChainTally.count (accept : Bool) (tally : ChainTally S) : ChainTally S :=
  { tally with
    steps := tally.steps + 1
    accepted := tally.accepted + if accept then 1 else 0 }

/-- Whether a candidate replaces the current state; the first one always does. -/
def decideMove (source : Source m S) (candidate : ChainState S) (current : Option (ChainState S)) :
    Traversal m S Bool := do
  match current with
  | none => return true
  | some c =>
    let alpha ← Traversal.ofOutcome (acceptance candidate.trace c.trace)
    let u ← Traversal.ofAction source.uniform
    return decide (Scalar.log u < alpha)

/-- The next state of a chain.  Candidates of density zero are dropped; `patience` bounds how many
in a row, and the attempts at one filter. -/
def nextState (source : Source m S) (patience : Nat) (root : Node S)
    (current : Option (ChainState S)) : Nat → ChainStep m S (ChainState S)
  | 0 => throw .endless
  | left + 1 => do
    let candidate ← ChainStep.ofTraversal (propose source patience root current)
    let score ← ChainStep.ofTraversal (Traversal.ofOutcome candidate.trace.score)
    if score == Scalar.negInfinity then nextState source patience root current left
    else
      let accept ← ChainStep.ofTraversal (decideMove source candidate current)
      modify (ChainTally.count accept)
      return if accept then candidate else current.getD candidate

namespace ChainTally

def acceptanceRate (t : ChainTally S) : S :=
  if t.steps = 0 then 0 else Scalar.ofNat t.accepted / Scalar.ofNat t.steps

end ChainTally

end ChanceGraph
