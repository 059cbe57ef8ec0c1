/-!
Positions of random choices in a traversal: one counter for each kind of inner node.
-/

set_option autoImplicit false

namespace ChanceGraph

structure Address where
  maps : Int := 0
  binds : Int := 0
  filters : Int := 0
  deriving DecidableEq, Repr

inductive Combinator where
  | map
  | bind
  | filter
  deriving DecidableEq, Repr

namespace Address

def advance (a : Address) : Combinator → Address
  | .map => { a with maps := a.maps + 1 }
  | .bind => { a with binds := a.binds + 1 }
  | .filter => { a with filters := a.filters + 1 }

def le (a b : Address) : Bool :=
  a.maps < b.maps || (a.maps == b.maps &&
    (a.binds < b.binds || (a.binds == b.binds && a.filters ≤ b.filters)))

def display (a : Address) : String :=
  "m" ++ toString a.maps ++ ".b" ++ toString a.binds ++ ".f" ++ toString a.filters

def distinctSorted (as : List Address) : List Address :=
  as.eraseDups.mergeSort le

/-- All addresses met on the way, the first one included. -/
def walk (a : Address) : List Combinator → List Address
  | [] => [a]
  | c :: rest => a :: (a.advance c).walk rest

end Address

end ChanceGraph
