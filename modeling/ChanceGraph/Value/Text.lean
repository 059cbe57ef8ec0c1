import ChanceGraph.Fault
import ChanceGraph.Value.VectorText
import ChanceGraph.Text.Quoted

/-!
How values are shown.
-/

set_option autoImplicit false

namespace ChanceGraph

mutual

def Value.display : Value Float → String
  | .nothing => "None"
  | .bool true => "True"
  | .bool false => "False"
  | .int n => toString n
  | .real x => Decimal.shortestText x
  | .text s => Text.quoted s
  | .tuple items => match displayAll items with
    | [s] => "(" ++ s ++ ",)"
    | ss => "(" ++ ", ".intercalate ss ++ ")"
  | .list items => "[" ++ ", ".intercalate (displayAll items) ++ "]"
  | .vector xs => VectorText.display xs

def displayAll : List (Value Float) → List String
  | [] => []
  | v :: rest => v.display :: displayAll rest

end

mutual

def Value.isShowable {S : Type} : Value S → Bool
  | .int n => Decimal.isWritable n
  | .tuple items | .list items => allShowable items
  | _ => true

def allShowable {S : Type} : List (Value S) → Bool
  | [] => true
  | v :: rest => v.isShowable && allShowable rest

end

def Value.shown (v : Value Float) : Outcome Float String :=
  if v.isShowable then .ok v.display else .error .outOfDomain

/-- A text by itself is shown as it is. -/
def Value.plain : Value Float → String
  | .text s => s
  | v => v.display

def displayList (xs : List Float) : String :=
  (Value.list (xs.map .real)).display

end ChanceGraph
