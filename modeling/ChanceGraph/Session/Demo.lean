import ChanceGraph.Session.Answers
import ChanceGraph.SequentialTest.Text
import ChanceGraph.Value.Text
import ChanceGraph.Journal

/-!
The demonstration: how fast somebody walks, by two position fixes.
-/

set_option autoImplicit false

namespace ChanceGraph.Demo

def samples : Nat :=
  5000

def question (walking : Item Float) (limit : Int) (probability : Float) : SessionM Float Bool := do
  let faster ← Session.runBuild (Item.operate .gt walking (.plain (.int limit)))
  let c ← Session.resolve .current
  let result ← Session.testItem faster { probability := .real probability } c
  return result.verdict.decision

def questionLine (limit : Int) (probability : Float) (answer : Bool) : String :=
  "P(speed > " ++ toString limit ++ " mph) > " ++ Decimal.shortestText probability ++ ": " ++
    (Value.bool answer).display

structure Report where
  lines : List String
  journal : Journal

def Report.text (r : Report) : String :=
  String.join (r.lines.map (· ++ "\n"))

/-- The first argument, if there is one, names a file for the journal; `--mcmc` among them chooses
the other sampler. -/
def run (arguments : List String) : SessionM Float Report := do
  let journal := (Journal.new "gps_speed").setUp none !arguments.isEmpty
  if arguments.contains "--mcmc" then
    discard (Session.makeCurrent (← Session.newConfig [.sampler (.known .markov)]))
  let walking ← Session.runBuild (do Item.ofNode (← Example.walking))
  let c ← Session.resolve .current
  let estimate ← Session.ofOutcome
    (meanInterval (← Session.take walking (.int samples) c))
  let mean := Decimal.fixedText 2 estimate.mean
  let halfWidth := Decimal.fixedText 2 estimate.halfWidth
  let half : Float := Scalar.ratio 1 2
  let most : Float := Scalar.ratio 9 10
  let first ← question walking 4 half
  let second ← question walking 4 most
  let third ← question walking 20 half
  return {
    lines := ["expected speed: " ++ mean ++ " mph (+- " ++ halfWidth ++ ")",
      questionLine 4 half first, questionLine 4 most second, questionLine 20 half third]
    journal := journal.emit Journal.infoLevel ("speed " ++ mean ++ " mph +- " ++ halfWidth) }

end ChanceGraph.Demo
