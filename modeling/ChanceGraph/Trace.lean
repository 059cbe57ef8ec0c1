import ChanceGraph.Address
import ChanceGraph.Leaf

/-!
Records of the random choices of one traversal, and the acceptance of one in place of another.
-/

set_option autoImplicit false

namespace ChanceGraph

variable {S : Type} [Scalar S]

structure Choice (S : Type) where
  address : Address
  leaf : Leaf S
  value : Value S
  logScore : Number S
  reused : Bool

structure Trace (S : Type) where
  choices : List (Choice S)

namespace Trace

def empty : Trace S :=
  ⟨[]⟩

def append (t : Trace S) (c : Choice S) : Trace S :=
  ⟨t.choices ++ [c]⟩

def size (t : Trace S) : Nat :=
  t.choices.length

def isEmpty (t : Trace S) : Bool :=
  t.choices.isEmpty

def score (t : Trace S) : Outcome S S :=
  exactSumBy (·.logScore.toScalar) t.choices

end Trace

def checkedLeafKey (leaf : Leaf S) : Outcome S (LeafKey S) := do
  let key ← leaf.key
  if key.isKey then return key else throw .unhashable

namespace Trace

def index (t : Trace S) : Outcome S (List (LeafKey S × Choice S)) :=
  t.choices.mapM fun c => do return (← checkedLeafKey c.leaf, c)

/-- The first choice at this address whose leaf has this key.  All choices must have keys. -/
def find? (t : Trace S) (address : Address) (leaf : Leaf S) : Outcome S (Option (Choice S)) := do
  let index ← t.index
  let key ← checkedLeafKey leaf
  let found := index.find? fun (k, c) => c.address == address && k.same key
  return found.map (·.2)

end Trace

/-- What the old choices contribute that the way back would draw anew. -/
def redrawn (new : Trace S) : S → List (Choice S) → Outcome S S
  | sum, [] => .ok sum
  | sum, c :: rest => do
    let _ ← c.leaf.key
    match ← new.find? c.address c.leaf with
    | some n =>
      if n.reused then redrawn new sum rest
      else redrawn new (sum + (← c.logScore.toScalar)) rest
    | none => redrawn new sum rest

/-- The logarithm of the probability of moving from the old trace to the new one.  Both ways pay
for the choice of a site and for what they draw. -/
def acceptance (new old : Trace S) : Outcome S S := do
  if new.isEmpty || old.isEmpty then return 0
  let newScore ← new.score
  let oldScore ← old.score
  let drawn ← exactSumBy (·.logScore.toScalar) (new.choices.filter (!·.reused))
  let there := -Scalar.log (Scalar.ofNat old.size) + drawn
  let back ← redrawn new (-Scalar.log (Scalar.ofNat new.size)) old.choices
  let alpha := newScore - oldScore + back - there
  return if alpha < 0 then alpha else 0

end ChanceGraph
