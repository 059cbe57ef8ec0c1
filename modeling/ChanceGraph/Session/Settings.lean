import ChanceGraph.Session.Basic

/-!
The configurations of a session: each is made once, some have names, and one of them is current.
-/

set_option autoImplicit false

namespace ChanceGraph.Session

variable {S : Type} [Scalar S]

inductive ConfigRef (S : Type) where
  | current
  | named (name : String)
  | made (settings : List (Config.Setting S))

def newConfig (settings : List (Config.Setting S)) : SessionM S (ConfigObject S) := do
  let config ← ofOutcome (Config.make settings)
  let s ← get
  set { s with serials := s.serials + 1 }
  return ⟨s.serials, config⟩

/-- A configuration that is refused leaves its name without one. -/
def nameConfig (name : String) (settings : List (Config.Setting S)) :
    SessionM S (Config S) := do
  modify fun s => { s with things := s.things.erase name }
  let c ← newConfig settings
  keep name (.config c)
  return c.config

def resolve : ConfigRef S → SessionM S (Config S)
  | .current => do return (← get).config.config
  | .named name => do
    match ← thing name with
    | .config c => return c.config
    | _ => throw .noSuchOperation
  | .made settings => do return (← newConfig settings).config

def makeCurrent (c : ConfigObject S) : SessionM S (ConfigObject S) :=
  modifyGet fun s => (s.config, { s with config := c })

def namedConfigs (things : Names (Thing S)) : Names (ConfigObject S) :=
  things.filterMap fun
    | (name, .config c) => some (name, c)
    | _ => none

def configNames : SessionM S (List String × List String) := do
  let s ← get
  let sorted := (namedConfigs s.things).mergeSort fun a b => a.1 ≤ b.1
  return ((sorted.filter (·.2.serial == s.config.serial)).map (·.1),
    (sorted.filter (·.2.same s.config)).map (·.1))

end ChanceGraph.Session
