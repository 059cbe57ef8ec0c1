import ChanceGraph.Trace
import ChanceGraph.Value.Text

/-!
How traces are shown.
-/

set_option autoImplicit false

namespace ChanceGraph

def Choice.display (c : Choice Float) : String :=
  "<" ++ c.address.display ++ " " ++ c.value.display ++ " " ++ (Value.bool c.reused).display ++ ">"

def Trace.display (t : Trace Float) : String :=
  "Trace([" ++ ", ".intercalate (t.choices.map Choice.display) ++ "])"

end ChanceGraph
