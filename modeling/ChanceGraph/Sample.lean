import ChanceGraph.Number.Arithmetic

/-!
What becomes of the weight of a drawn outcome on its way through a graph.
-/

set_option autoImplicit false

namespace ChanceGraph.Sample

variable {S : Type} [Scalar S]

def weighted (s : Sample S) : Weighted S :=
  ⟨s.value, .real s.weight⟩

def ofValue (v : Value S) : Sample S :=
  ⟨v, 1⟩

def project (a : Sample S) (result : Weighted S) : Outcome S (Sample S) := do
  return ⟨result.value, a.weight * (← result.weight.toScalar)⟩

def combine (a c : Sample S) (result : Weighted S) : Outcome S (Sample S) := do
  return ⟨result.value, (← result.weight.toScalar) * a.weight * c.weight⟩

end ChanceGraph.Sample
