import ChanceGraph.Session.Demo
import ChanceGraph.Fault.Message

/-!
The command line of the demonstration.
-/

set_option autoImplicit false

namespace ChanceGraph

def appendLines (file : String) (lines : List String) : IO Unit :=
  IO.FS.withFile file .append fun h => lines.forM h.putStrLn

end ChanceGraph

open ChanceGraph in
def main (arguments : List String) : IO UInt32 := do
  match ((Demo.run arguments).run.run (Session.start {})).1 with
  | .ok report =>
    if let file :: _ := arguments then appendLines file report.journal.lines
    IO.print report.text
    return 0
  | .error fault =>
    IO.eprintln (fault.message?.getD "failed")
    return 1
