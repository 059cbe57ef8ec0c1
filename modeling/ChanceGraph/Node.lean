import ChanceGraph.Leaf.Build

/-!
Computation graphs over random values: leaves, weighted maps, weighted binds and filters.
-/

set_option autoImplicit false

namespace ChanceGraph

inductive Node (S : Type) where
  | leaf (leaf : Leaf S)
  | weightedMap (source : Node S) (project : Value S → Outcome S (Weighted S))
  /-- Every call of `dependent` gets a stamp of its own, which tells the leaves that it builds from
  those of all other calls. -/
  | weightedBind (source : Node S) (dependent : Value S → Nat → Node S)
      (combine : Value S → Value S → Outcome S (Weighted S))
  | filter (source : Node S) (predicate : Value S → Outcome S Bool)
  | unknown (name : String)
  /-- What stands for a dependent node that could not be built. -/
  | broken (fault : Fault S)

namespace Node

variable {S : Type}

def map [Scalar S] (source : Node S) (f : Value S → Outcome S (Value S)) : Node S :=
  source.weightedMap fun v => do return ⟨← f v, .one⟩

def bind [Scalar S] (source : Node S) (dependent : Value S → Nat → Node S)
    (f : Value S → Value S → Outcome S (Value S)) : Node S :=
  source.weightedBind dependent fun a b => do return ⟨← f a b, .one⟩

def second (_ b : Value S) : Outcome S (Value S) :=
  .ok b

def lift2 [Scalar S] (f : Value S → Value S → Outcome S (Value S)) (a b : Node S) : Node S :=
  a.bind (fun _ _ => b) f

def constant (id : ObjectId) (v : Value S) : Node S :=
  .leaf ⟨id, .constant v⟩

def snoc (items item : Value S) : Outcome S (Value S) :=
  match items with
  | .tuple xs => .ok (.tuple (xs ++ [item]))
  | _ => .error .wrongType

def sequence [Scalar S] (id : ObjectId) (nodes : List (Node S)) : Node S :=
  nodes.foldl (lift2 snoc) (constant id (.tuple []))

def kind : Node S → String
  | .leaf l => l.distribution.name
  | .weightedMap _ _ => "Map"
  | .weightedBind _ _ _ => "Bind"
  | .filter _ _ => "Filter"
  | .unknown name => name
  | .broken _ => ""

def label (name : String) : String :=
  name ++ "()"

end Node

end ChanceGraph
