import ChanceGraph.Alias
import ChanceGraph.Scalar.Sum
import ChanceGraph.Value.Arithmetic

/-!
Finite tables of outcomes.  Outcomes with the same key form one group, which keeps the first value
seen and has the weights of all.
-/

set_option autoImplicit false

namespace ChanceGraph

variable {S : Type} [Scalar S]

abbrev Grouping (S : Type) := Value S → Outcome S (Value S)

structure Group (S W : Type) where
  key : Value S
  value : Value S
  weight : W

namespace Group

/-- Adds to the weight of the group that has the key; a new key opens a group at the end. -/
def insert {W : Type} (add : W → W → Outcome S W) (key value : Value S) (weight : W) :
    List (Group S W) → Outcome S (List (Group S W))
  | [] => .ok [⟨key, value, weight⟩]
  | g :: rest =>
    if g.key.alike key then do return { g with weight := ← add g.weight weight } :: rest
    else do return g :: (← insert add key value weight rest)

def find? {W : Type} (key : Value S) (groups : List (Group S W)) : Option (Group S W) :=
  groups.find? (·.key.alike key)

end Group

def checkedKey (keyOf : Grouping S) (v : Value S) : Outcome S (Value S) := do
  let key ← keyOf v
  if key.isKey then return key else throw .unhashable

/-- An item of a table; its weight is still whatever was given for it. -/
abbrev TableItem (S : Type) := Value S × Value S

def groupItems (keyOf : Grouping S) (items : List (TableItem S)) :
    Outcome S (List (Group S (Value S))) :=
  items.foldlM (fun groups (v, w) => do
    let key ← checkedKey keyOf v
    Group.insert Value.add key v w groups) []

def ofSumError {α : Type} : Except SumError α → Outcome S α
  | .ok x => .ok x
  | .error .oppositeInfinities => .error .outOfDomain
  | .error .overflow => .error .overflow

/-- The sum, rounded once, of what is read off each item in turn. -/
def exactSumBy {α : Type} (f : α → Outcome S S) (items : List α) : Outcome S S := do
  let sum ← items.foldlM (fun sum a => do ofSumError (Scalar.PartialSum.add sum (← f a))) .zero
  ofSumError sum.result

structure Table (S : Type) where
  keyOf : Grouping S
  groups : List (Group S S)
  sampler : AliasSampler (Value S) S

namespace Table

def ofGroups (keyOf : Grouping S) (groups : List (Group S (Value S))) : Outcome S (Table S) := do
  if groups.isEmpty then throw .noOutcomes
  let total ← exactSumBy (·.weight.toScalar) groups
  if total ≤ 0 then throw .zeroOutcomes
  let groups ← groups.mapM fun g => do return ⟨g.key, g.value, (← g.weight.toScalar) / total⟩
  let sampler ← AliasSampler.build (groups.map (·.value)) (groups.map (·.weight))
  return ⟨keyOf, groups, sampler⟩

def build (keyOf : Grouping S) (items : List (TableItem S)) : Outcome S (Table S) := do
  ofGroups keyOf (← groupItems keyOf items)

def support (t : Table S) : List (Weighted S) :=
  t.groups.map fun g => ⟨g.value, .real g.weight⟩

def density (t : Table S) (v : Value S) : Outcome S S := do
  let key ← checkedKey t.keyOf v
  match Group.find? key t.groups with
  | some g => return g.weight
  | none => return 0

end Table

end ChanceGraph
