import ChanceGraph.Config
import ChanceGraph.Value.Text

/-!
How configurations are shown.
-/

set_option autoImplicit false

namespace ChanceGraph

def SamplerChoice.display : SamplerChoice Float → String
  | .known .forward => "<Sampler.FORWARD: 1>"
  | .known .markov => "<Sampler.MCMC: 2>"
  | .other v => v.display

def Config.display (c : Config Float) : String :=
  "InferenceConfig(sampler=" ++ c.sampler.display ++
    String.join (ConfigField.all.map fun f => ", " ++ f.name ++ "=" ++ (c.get f).display) ++ ")"

end ChanceGraph
