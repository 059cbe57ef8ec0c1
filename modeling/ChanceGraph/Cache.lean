import ChanceGraph.Leaf
import Std.Data.HashMap

/-!
The values drawn in the current generation.  Entries of past generations stay, but are not seen.
-/

set_option autoImplicit false

namespace ChanceGraph

structure Cache (S : Type) where
  generation : Int := 0
  entries : Std.HashMap ObjectId (Int × Value S) := ∅

namespace Cache

variable {S : Type}

def advance (c : Cache S) : Cache S :=
  { c with generation := c.generation + 1 }

def get? (c : Cache S) (id : ObjectId) : Option (Value S) :=
  match c.entries[id]? with
  | some (generation, v) => if generation = c.generation then some v else none
  | none => none

def put (c : Cache S) (id : ObjectId) (v : Value S) : Cache S :=
  { c with entries := c.entries.insert id (c.generation, v) }

def contains (c : Cache S) (id : ObjectId) : Bool :=
  (c.get? id).isSome

def size (c : Cache S) : Nat :=
  c.entries.size

end Cache

end ChanceGraph
