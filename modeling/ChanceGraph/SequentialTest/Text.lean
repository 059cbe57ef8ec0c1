import ChanceGraph.SequentialTest
import ChanceGraph.Decimal.Layout

/-!
The record that a sequential test leaves in a journal.
-/

set_option autoImplicit false

namespace ChanceGraph

def Verdict.record (h : Hypotheses Float) (v : Verdict) : String :=
  let samples := " after " ++ toString v.samples ++ " samples"
  match v.conclusion with
  | .high => "accepted P >= " ++ Decimal.shortestText h.high ++ samples
  | .low => "accepted P <= " ++ Decimal.shortestText h.low ++ samples
  | .undecided => "undecided" ++ samples ++ ", answering False"

end ChanceGraph
