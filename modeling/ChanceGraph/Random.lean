import ChanceGraph.Traversal

/-!
The stream of numbers that everything is drawn from: first those given, then a generator's.
-/

set_option autoImplicit false

namespace ChanceGraph

def mixBits (z : UInt64) : UInt64 :=
  let z := (z ^^^ (z >>> 30)) * 0xBF58476D1CE4E5B9
  let z := (z ^^^ (z >>> 27)) * 0x94D049BB133111EB
  z ^^^ (z >>> 31)

structure Stream (S : Type) where
  given : List S := []
  state : UInt64 := 0
  limit : Int := 100000
  used : Nat := 0

variable {S : Type} [Scalar S]

namespace Stream

/-- The top 53 bits of a word, as a fraction. -/
def fraction (z : UInt64) : S :=
  Scalar.ratio (z >>> 11).toNat (1 <<< 53)

def next (s : Stream S) : Outcome S S × Stream S :=
  if s.limit ≤ s.used then (.error .outOfRandomness, s)
  else
    let s := { s with used := s.used + 1 }
    match s.given with
    | u :: rest => (.ok u, { s with given := rest })
    | [] =>
      let state := s.state + 0x9E3779B97F4A7C15
      (.ok (fraction (mixBits state)), { s with state })

def nextMany (s : Stream S) : Nat → Outcome S (List S) × Stream S
  | 0 => (.ok [], s)
  | n + 1 =>
    match s.next with
    | (.error e, s) => (.error e, s)
    | (.ok u, s) =>
      let (rest, s) := s.nextMany n
      (rest.map (u :: ·), s)

end Stream

structure World (S : Type) where
  stream : Stream S := {}
  draws : Std.HashMap ObjectId Nat := ∅
  stamps : Nat := 0

namespace World

def uniform (w : World S) : Outcome S S × World S :=
  let (u, stream) := w.stream.next
  (u, { w with stream })

def uniforms (n : Nat) (w : World S) : Outcome S (List S) × World S :=
  let (us, stream) := w.stream.nextMany n
  (us, { w with stream })

def stamp (w : World S) : Nat × World S :=
  (w.stamps, { w with stamps := w.stamps + 1 })

/-- A point mass takes nothing from the world. -/
def draw (leaf : Leaf S) (w : World S) : Outcome S (Value S) × World S :=
  match leaf.distribution with
  | .constant v => (.ok v, w)
  | d =>
    match w.uniforms d.arity with
    | (.error e, w) => (.error e, w)
    | (.ok us, w) =>
      let before := w.draws.getD leaf.id 0
      (d.draw before us, { w with draws := w.draws.insert leaf.id (before + 1) })

def source : Source (StateM (World S)) S where
  draw leaf := fun w => w.draw leaf
  uniform := uniform
  stamp := stamp

end World

namespace AliasSampler

variable {α : Type}

def sample (s : AliasSampler α S) (w : World S) : Outcome S α × World S :=
  match w.uniforms 2 with
  | (.ok [u, v], w) => match s.pick? u v with
    | some x => (.ok x, w)
    | none => (.error .outOfRange, w)
  | (.ok _, w) => (.error .outOfRandomness, w)
  | (.error e, w) => (.error e, w)

/-- All columns are picked before any of their parts. -/
def sampleMany (s : AliasSampler α S) (n : Nat) (w : World S) : Outcome S (List α) × World S :=
  match w.uniforms (2 * n) with
  | (.error e, w) => (.error e, w)
  | (.ok us, w) => (.ok ((us.take n).zip (us.drop n) |>.filterMap fun (u, v) => s.pick? u v), w)

end AliasSampler

end ChanceGraph
