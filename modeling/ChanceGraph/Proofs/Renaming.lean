import ChanceGraph.Enumerate
import ChanceGraph.Proofs.Outcome

/-!
Graphs that differ only in the identities of their leaves.  A dependent may make leaves of its own at
every call; otherwise it is the same at all calls.
-/

set_option autoImplicit false

namespace ChanceGraph

abbrev Renaming := ObjectId → ObjectId → Prop

/-- The leaves that two calls make are renamed in the order in which they are made. -/
def Renaming.extend (r : Renaming) (k k' : Nat) : Renaming := fun a b =>
  r a b ∨ ∃ i, a = ⟨k, i⟩ ∧ b = ⟨k', i⟩

namespace Node

variable {S : Type}

inductive Renamed : Renaming → Node S → Node S → Prop where
  | leaf {r : Renaming} {l l' : Leaf S} (ids : r l.id l'.id)
    (same : l.distribution = l'.distribution) : Renamed r (.leaf l) (.leaf l')
  | weightedMap {r : Renaming} {n n' : Node S} {project : Value S → Outcome S (Weighted S)}
    (source : Renamed r n n') : Renamed r (.weightedMap n project) (.weightedMap n' project)
  | weightedBind {r : Renaming} {n n' : Node S} {dependent dependent' : Value S → Nat → Node S}
    {combine : Value S → Value S → Outcome S (Weighted S)} (source : Renamed r n n')
    (calls : ∀ v k k', Renamed (r.extend k k') (dependent v k) (dependent' v k')) :
    Renamed r (.weightedBind n dependent combine) (.weightedBind n' dependent' combine)
  | filter {r : Renaming} {n n' : Node S} {predicate : Value S → Outcome S Bool}
    (source : Renamed r n n') : Renamed r (.filter n predicate) (.filter n' predicate)
  | unknown {r : Renaming} {name : String} : Renamed r (.unknown name) (.unknown name)
  | broken {r : Renaming} {fault : Fault S} : Renamed r (.broken fault) (.broken fault)

/-- What a dependent builds does not change from call to call, but for the identities of its own
leaves. -/
def Steady (n : Node S) : Prop :=
  n.Renamed Eq n

theorem Renamed.mono {r r' : Renaming} {n n' : Node S} (renamed : n.Renamed r n')
    (weaker : ∀ a b, r a b → r' a b) : n.Renamed r' n' := by
  induction renamed generalizing r' with
  | leaf ids same => exact .leaf (weaker _ _ ids) same
  | weightedMap _ ih => exact .weightedMap (ih weaker)
  | weightedBind _ _ ihSource ihCalls =>
    exact .weightedBind (ihSource weaker) fun v k k' =>
      ihCalls v k k' fun a b related => related.imp_left (weaker a b)
  | filter _ ih => exact .filter (ih weaker)
  | unknown => exact .unknown
  | broken => exact .broken

theorem Renamed.enumerate_eq [Scalar S] {r : Renaming} {n n' : Node S} (renamed : n.Renamed r n') :
    enumerate n = enumerate n' := by
  induction renamed with
  | leaf ids same => simp only [enumerate, same]
  | weightedMap _ ih => simp only [enumerate, ih]
  | weightedBind _ _ ihSource ihCalls => simp only [enumerate, ihSource, ihCalls _ 0 0]
  | filter _ ih => simp only [enumerate, ih]
  | unknown => rfl
  | broken => rfl

end Node

end ChanceGraph
