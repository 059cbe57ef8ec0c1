import ChanceGraph.Blueprint
import ChanceGraph.Config
import ChanceGraph.Random

/-!
Sessions: named graphs and things that share one stream of random numbers and one current
configuration.
-/

set_option autoImplicit false

namespace ChanceGraph

abbrev Names (α : Type) := List (String × α)

namespace Names

variable {α : Type}

def erase (names : Names α) (name : String) : Names α :=
  names.filter (·.1 != name)

def set (names : Names α) (name : String) (a : α) : Names α :=
  (name, a) :: names.erase name

def find {S : Type} (names : Names α) (name : String) : Outcome S α :=
  match names.lookup name with
  | some a => .ok a
  | none => .error (.unboundName name)

end Names

/-- Two configurations may have equal fields and yet be made apart. -/
structure ConfigObject (S : Type) where
  serial : Nat
  config : Config S

/-- A configuration is the same as itself, even where a setting is not equal to itself. -/
def ConfigObject.same {S : Type} [Scalar S] (a b : ConfigObject S) : Bool :=
  a.serial == b.serial || a.config.same b.config

structure SamplerObject (S : Type) where
  strategy : Strategy
  root : Node S
  tally : ChainTally S := {}

/-- A reader of the sampler at an index; once it has failed it is finished. -/
structure ReaderObject (S : Type) where
  sampler : Nat
  current : Option (ChainState S) := none
  finished : Bool := false

/-- Whatever has a name but is no graph; a sampler is kept at an index, for its readers. -/
inductive Thing (S : Type) where
  | config (c : ConfigObject S)
  | sampler (index : Nat)
  | reader (r : ReaderObject S)
  | state (s : ChainState S)
  | cache (c : Cache S)

structure Session (S : Type) where
  world : World S
  env : Env S := []
  config : ConfigObject S
  serials : Nat := 1
  samplers : Array (SamplerObject S) := #[]
  things : Names (Thing S) := []

variable {S : Type} [Scalar S]

abbrev SessionM (S : Type) := ExceptT (Fault S) (StateM (Session S))

namespace Session

def start (stream : Stream S) : Session S where
  world := { stream }
  config := ⟨0, .standard⟩

def ofOutcome {α : Type} (r : Outcome S α) : SessionM S α :=
  ExceptT.mk (pure r)

def attempt {α : Type} (action : SessionM S α) : SessionM S (Outcome S α) :=
  ExceptT.mk do return .ok (← action.run)

def onWorld {α : Type} (action : StateM (World S) (Outcome S α)) : SessionM S α :=
  ExceptT.mk fun s =>
    let (r, world) := action s.world
    (r, { s with world })

def used : SessionM S Nat := do
  return (← get).world.stream.used

def patience : Nat :=
  100000000

def runBuild {α : Type} (b : Build S α) : SessionM S α := do
  let stamp ← onWorld (Except.ok <$> World.stamp)
  ofOutcome (b.run stamp)

def build (b : Blueprint S) : SessionM S (Item S) := do
  let env := (← get).env
  runBuild (b.build env)

def buildNode (b : Blueprint S) : SessionM S (Node S) := do
  ofOutcome (← build b).asNode

def buildLeaf (b : Blueprint S) : SessionM S (Leaf S) := do
  ofOutcome (← build b).asLeaf

def define (name : String) (b : Blueprint S) : SessionM S (Item S) := do
  let item ← build b
  modify fun s => { s with env := (name, item) :: s.env }
  return item

def thing (name : String) : SessionM S (Thing S) := do
  ofOutcome ((← get).things.find name)

def keep (name : String) (t : Thing S) : SessionM S Unit :=
  modify fun s => { s with things := s.things.set name t }

end Session

end ChanceGraph
