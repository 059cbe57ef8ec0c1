import ChanceGraph.Value.Arithmetic

/-!
Numbers in a rectangular nesting of sequences, as the coordinates of a point are given.
-/

set_option autoImplicit false

namespace ChanceGraph.Value

variable {S : Type} [Scalar S]

/-- Sequences are nested no deeper than this. -/
def deepest : Nat :=
  128

def extents : Value S → List Nat
  | .tuple (v :: rest) | .list (v :: rest) => (rest.length + 1) :: v.extents
  | .tuple [] | .list [] => [0]
  | .vector xs => [xs.length]
  -- The characters of a text are texts again, without end.
  | .text s => if s = "" then [0] else List.replicate (deepest + 1) 1
  | _ => []

def entries : List Nat → Value S → Outcome S (List S)
  | [], v => do return [← v.toScalar]
  | n :: inner, v => do
    let items ← v.items
    if items.length ≠ n then throw .outOfDomain
    return (← items.mapM (entries inner)).flatten

structure Coordinates (S : Type) where
  extents : List Nat
  entries : List S

/-- A length of zero leaves no entries, whatever stands beside it. -/
def coordinates (v : Value S) : Outcome S (Coordinates S) := do
  if let .text _ := v then throw .wrongType
  let extents := v.extents
  if deepest < extents.length then throw .outOfDomain
  return ⟨extents, ← if extents.contains 0 then pure [] else v.entries extents⟩

/-- Points with more dimensions than this are not worked with. -/
def workableDimensions : Nat :=
  64

def Coordinates.checked (c : Coordinates S) : Outcome S (List S) :=
  if workableDimensions < c.extents.length then .error .shapeMismatch
  else if c.entries.any Scalar.isNaN then .error .outOfDomain
  else .ok c.entries

end ChanceGraph.Value
