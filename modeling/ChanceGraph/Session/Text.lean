import ChanceGraph.Session.Settings
import ChanceGraph.Config.Text
import ChanceGraph.Trace.Text

/-!
How the things of a session are shown.
-/

set_option autoImplicit false

namespace ChanceGraph

def ChainState.display (s : ChainState Float) : String :=
  let site := match s.site with
    | some i => toString i
    | none => "None"
  "State(trace=" ++ s.trace.display ++ ", sample=Weighted(value=" ++ s.sample.value.display ++
    ", probability=" ++ Decimal.shortestText s.sample.weight ++ "), site_index=" ++ site ++ ")"

def Thing.display : Thing Float → String
  | .config c => c.config.display
  | .sampler _ => "<Sampler>"
  | .reader _ => "<generator>"
  | .state s => s.display
  | .cache _ => "<SampleCache>"

namespace Session

/-- Only a configuration can be made the current one. -/
def setConfig (name : String) : SessionM Float (ConfigObject Float) := do
  match ← thing name with
  | .config c => makeCurrent c
  | t => throw (.notAConfiguration t.display)

def refuseConfig (v : Value Float) : SessionM Float (ConfigObject Float) := do
  throw (.notAConfiguration (← ofOutcome v.shown))

end Session

end ChanceGraph
