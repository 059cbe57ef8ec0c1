import ChanceGraph.Cache

/-!
What a traversal of a graph may do besides computing: draw, count its generations, and fail.  The
source of randomness is a parameter, so that the same traversal runs on a stream of numbers or on
any other account of what is drawn.
-/

set_option autoImplicit false

namespace ChanceGraph

variable {S : Type} {m : Type → Type}

structure Source (m : Type → Type) (S : Type) where
  draw : Leaf S → m (Outcome S (Value S))
  /-- A number from [0, 1). -/
  uniform : m (Outcome S S)
  /-- A number never given before. -/
  stamp : m Nat

/-- A fault leaves the cache as it was when it arose. -/
abbrev Traversal (m : Type → Type) (S : Type) := ExceptT (Fault S) (StateT (Cache S) m)

namespace Traversal

variable [Monad m]

def ofOutcome {α : Type} (r : Outcome S α) : Traversal m S α :=
  ExceptT.mk (pure r)

def ofAction {α : Type} (action : m (Outcome S α)) : Traversal m S α :=
  ExceptT.mk (StateT.lift action)

def fresh (source : Source m S) : Traversal m S Nat :=
  ofAction (Except.ok <$> source.stamp)

def advance : Traversal m S Unit :=
  modify Cache.advance

def sample (source : Source m S) (leaf : Leaf S) : Traversal m S (Value S) := do
  match (← get).get? leaf.id with
  | some v => return v
  | none =>
    let v ← ofAction (source.draw leaf)
    modify (·.put leaf.id v)
    return v

/-- Repeats an attempt, each time in a new generation, until it is accepted. -/
def retry {α : Type} (attempt : Traversal m S α) (accept : α → Outcome S Bool) :
    Nat → Traversal m S α
  | 0 => throw .endless
  | patience + 1 => do
    let a ← attempt
    if ← ofOutcome (accept a) then return a
    else
      advance
      retry attempt accept patience

end Traversal

end ChanceGraph
