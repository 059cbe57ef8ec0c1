import ChanceGraph.Decimal.Layout

/-!
How vectors are shown: all entries in one layout and of one width, in lines of limited length.
-/

set_option autoImplicit false

namespace ChanceGraph.VectorText

def places : Nat :=
  4

def lineWidth : Nat :=
  80

inductive Style where
  | whole
  | fixed
  | exponential
  deriving DecidableEq, Repr

def isWhole (x : Float) : Bool :=
  Scalar.isIntegral x

/-- Exponents are written when the sizes are far apart or extreme; zeros do not count. -/
def styleOf (xs : List Float) : Style :=
  let sizes := (xs.filter fun x => Scalar.isFinite x && x != 0).map Float.abs
  let least := sizes.foldl (fun a b => if b < a then b else a) Scalar.infinity
  let greatest := sizes.foldl (fun a b => if a < b then b else a) 0
  let whole := sizes.all isWhole
  if sizes.isEmpty then .whole
  else if greatest / least > 1000 || greatest > 100000000 || (!whole && least < 0.0001) then
    .exponential
  else if whole then .whole
  else .fixed

def entry (style : Style) (x : Float) : String :=
  match style with
  | .whole => if Scalar.isFinite x then Decimal.fixedText 0 x else Decimal.shortestText x
  | .fixed => Decimal.fixedText places x
  | .exponential => Decimal.exponentialText places x

/-- Only finite entries other than zero set the width. -/
def width (style : Style) (xs : List Float) : Nat :=
  ((xs.filter fun x => Scalar.isFinite x && x != 0).map fun x => (entry style x).length).foldl max 1

def blanks (n : Nat) : String :=
  String.ofList (List.replicate n ' ')

def entries (style : Style) (width : Nat) (xs : List Float) : List String :=
  xs.map fun x =>
    let text := entry style x
    blanks (width - text.length) ++ text

def lines (perLine : Nat) (texts : List String) : List (List String) :=
  (List.range ((texts.length + perLine - 1) / perLine)).map fun k =>
    (texts.drop (k * perLine)).take perLine

def opening : String :=
  "tensor("

/-- The kind of entries, at the end of the last line or in a line of its own. -/
def closing (body : String) : String :=
  let kind := "dtype=torch.float64"
  let last := ((body.splitOn "\n").getLastD body).length + 2
  (if lineWidth < last + kind.length + 2 then ",\n" ++ blanks opening.length else ", ") ++ kind ++ ")"

def display (xs : List Float) : String :=
  let style := styleOf xs
  let w := width style xs
  let perLine := max 1 ((lineWidth - opening.length) / (w + 2))
  let rows := (lines perLine (entries style w xs)).map (", ".intercalate ·)
  let body := opening ++ "[" ++ (",\n" ++ blanks (opening.length + 1)).intercalate rows ++ "]"
  body ++ closing body

end ChanceGraph.VectorText
