import ChanceGraph.Leaf

/-!
Leaves whose draws and scores are given in advance, and the leaf that defines nothing.
-/

set_option autoImplicit false

namespace ChanceGraph

variable {S : Type} [Scalar S]

inductive ScoreMode where
  | density
  | logDensity
  | none
  deriving DecidableEq, Repr

structure Script (S : Type) where
  draws : List (Value S)
  scores : List (Value S × Value S)
  parameters : Value S
  support : Option (List (Weighted S))
  mode : ScoreMode

namespace Script

def scoreOr (s : Script S) (missing : S) (v : Value S) : Outcome S (Number S) :=
  match s.scores.find? fun (x, _) => x.equal v with
  | some (_, score) => score.toNumber
  | none => .ok (.real missing)

def name (s : Script S) : String :=
  match s.mode with
  | .density => "Scripted"
  | .logDensity => "LogScripted"
  | .none => "Unscored"

def scoring (s : Script S) : Scoring S :=
  match s.mode with
  | .density => .density (s.scoreOr 0)
  | .logDensity => .logDensity (s.scoreOr Scalar.negInfinity)
  | .none => .none

/-- The draws come round again when they are used up. -/
def drawn (s : Script S) (before : Nat) : Outcome S (Value S) :=
  match s.draws[before % s.draws.length]? with
  | some v => .ok v
  | none => .error .divisionByZero

def client (s : Script S) : Client S where
  name := s.name
  parameters := .ok s.parameters
  scoring := s.scoring
  support := s.support
  arity := 0
  draw := fun before _ => s.drawn before

end Script

def abstractClient : Client S where
  name := "Primitive"
  parameters := .error .undefinedLeaf
  scoring := .none
  support := none
  arity := 0
  draw := fun _ _ => .error .undefinedLeaf

end ChanceGraph
