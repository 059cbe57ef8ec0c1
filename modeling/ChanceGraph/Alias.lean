import ChanceGraph.Fault

/-!
Drawing from a fixed list of weights in constant time.  A column holds one index and the share of
the column that is its own; the rest of the column belongs to its alias.
-/

set_option autoImplicit false

namespace ChanceGraph

variable {S : Type} [Scalar S]

structure Columns (S : Type) where
  own : Array S
  aliases : Array Nat

namespace Columns

def close (c : Columns S) (i : Nat) (share : S) (other : Nat) : Columns S :=
  ⟨c.own.setIfInBounds i share, c.aliases.setIfInBounds i other⟩

def closeWhole (c : Columns S) (i : Nat) : Columns S :=
  c.close i 1 i

/-- Each small column is filled up by a large one, which then counts as small or large by what it
has left.  What remains on either stack is whole up to rounding. -/
def pair (scaled : Array S) (c : Columns S) : List Nat → List Nat → Columns S
  | l :: small, g :: large =>
    let share := scaled.getD l 0
    let rest := (scaled.getD g 0 + share) - 1
    let scaled := scaled.setIfInBounds g rest
    let c := c.close l share g
    if rest < 1 then pair scaled c (g :: small) large else pair scaled c small (g :: large)
  | small, large => small.foldl closeWhole (large.foldl closeWhole c)
termination_by small large => small.length + large.length

/-- The indices of the small and of the large columns, the last ones on top. -/
def split (scaled : List S) : List Nat × List Nat :=
  scaled.zipIdx.foldl
    (fun (small, large) (w, i) => if w < 1 then (i :: small, large) else (small, i :: large))
    ([], [])

def ofWeights (weights : List S) (total : S) : Columns S :=
  let n := weights.length
  let scaled := weights.map fun w => w * Scalar.ofNat n / total
  let (small, large) := split scaled
  pair scaled.toArray ⟨Array.replicate n 0, Array.replicate n 0⟩ small large

def choose (c : Columns S) (i : Nat) (u : S) : Nat :=
  if u < c.own.getD i 0 then i else c.aliases.getD i 0

end Columns

structure AliasSampler (α S : Type) where
  elements : List α
  columns : Columns S

namespace AliasSampler

variable {α : Type}

def build (elements : List α) (weights : List S) : Outcome S (AliasSampler α S) :=
  if elements.length ≠ weights.length then
    .error (.elementCount elements.length weights.length)
  else if elements.isEmpty then .error .noWeights
  else if weights.any (· < 0) then .error (.negativeWeight weights)
  else
    let total := weights.foldl (· + ·) 0
    if total ≤ 0 then .error .zeroWeights
    else .ok ⟨elements, .ofWeights weights total⟩

def size (s : AliasSampler α S) : Nat :=
  s.elements.length

/-- The element for two numbers from [0, 1): one picks the column, one its part. -/
def pick? (s : AliasSampler α S) (u v : S) : Option α :=
  s.elements[s.columns.choose (Scalar.index u s.size) v]?

end AliasSampler

end ChanceGraph
