import ChanceGraph.Node.Build

/-!
A student's hidden skill, given that two of three answers were right.
-/

set_option autoImplicit false

namespace ChanceGraph.Example

variable {S : Type} [Scalar S]

inductive Skill where
  | novice
  | average
  | expert
  deriving DecidableEq, Repr

namespace Skill

def all : List Skill :=
  [.novice, .average, .expert]

def name : Skill → String
  | .novice => "novice"
  | .average => "average"
  | .expert => "expert"

/-- In tenths. -/
def prior : Skill → Int
  | .novice => 3
  | .average => 5
  | .expert => 2

/-- How often an answer is right, in tenths. -/
def right : Skill → Int
  | .novice => 3
  | .average => 6
  | .expert => 9

def ofValue? : Value S → Option Skill
  | .text s => all.find? (·.name == s)
  | _ => none

end Skill

def tenths (n : Int) : S :=
  Scalar.ratio n 10

def answers (v : Value S) (stamp : Nat) : Node S :=
  match Skill.ofValue? v with
  | none => .broken .outOfRange
  | some skill =>
    let p : S := tenths skill.right
    .sequence ⟨stamp, 3⟩
      ((List.range 3).map fun i => .leaf ⟨⟨stamp, i⟩, .flip (.real p) (.real p)⟩)

def countRight (skill answers : Value S) : Outcome S (Value S) :=
  match answers with
  | .tuple items => do return .tuple [skill, ← items.foldlM Value.add (.int 0)]
  | _ => .error .wrongType

def twoRight (r : Value S) : Outcome S Bool := do
  return (← r.item (.int 1)).equal (.int 2)

def grades : Build S (Node S) := do
  let skill ← Build.leaf (Distribution.makeMultinomial
    (Skill.all.map fun s => .text s.name)
    (some (Skill.all.map fun s => .real (tenths s.prior))))
  return ((skill.bind answers countRight).filter twoRight).map (·.item (.int 0))

end ChanceGraph.Example
