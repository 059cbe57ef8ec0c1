import ChanceGraph.Fault

/-!
Leaves defined from outside: all that the library may ask of one.
-/

set_option autoImplicit false

namespace ChanceGraph

variable {S : Type}

inductive Scoring (S : Type) where
  | density (score : Value S → Outcome S (Number S))
  | logDensity (score : Value S → Outcome S (Number S))
  | none

structure Client (S : Type) where
  name : String
  parameters : Outcome S (Value S)
  scoring : Scoring S
  support : Option (List (Weighted S))
  arity : Nat
  /-- The value drawn, given how often the leaf was drawn from before. -/
  draw : Nat → List S → Outcome S (Value S)

end ChanceGraph
