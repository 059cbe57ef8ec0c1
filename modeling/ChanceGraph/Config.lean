import ChanceGraph.Leaf.Build
import ChanceGraph.Sampler

/-!
Options of sampling-based inference, and what each of them may be.
-/

set_option autoImplicit false

namespace ChanceGraph

variable {S : Type} [Scalar S]

inductive SamplerChoice (S : Type) where
  | known (strategy : Strategy)
  | other (v : Value S)

def SamplerChoice.same : SamplerChoice S → SamplerChoice S → Bool
  | .known a, .known b => a == b
  | .other a, .other b => a.equal b
  | _, _ => false

structure Config (S : Type) where
  sampler : SamplerChoice S
  expectedValueSamples : Value S
  maxSamples : Value S
  initialSamples : Value S
  sampleStep : Value S
  alpha : Value S
  epsilon : Value S

inductive ConfigField where
  | expectedValueSamples
  | maxSamples
  | initialSamples
  | sampleStep
  | alpha
  | epsilon
  deriving DecidableEq, Repr

namespace ConfigField

def name : ConfigField → String
  | .expectedValueSamples => "expected_value_sample_size"
  | .maxSamples => "max_sample_size"
  | .initialSamples => "initial_sample_size"
  | .sampleStep => "sample_size_step"
  | .alpha => "alpha"
  | .epsilon => "epsilon"

def all : List ConfigField :=
  [.expectedValueSamples, .maxSamples, .initialSamples, .sampleStep, .alpha, .epsilon]

def ofName? (s : String) : Option ConfigField :=
  all.find? (·.name == s)

def check (f : ConfigField) (v : Value S) : Outcome S Unit := do
  match f with
  | .alpha =>
    unless ← v.within 0 .strict (Scalar.ratio 1 2) .strict do throw (.outsideHalf f.name v)
  | .epsilon => unless ← v.inOpenUnit do throw (.outsideUnit f.name v)
  | _ => unless ← v.isPositive do throw (.notPositive f.name v)

end ConfigField

namespace Config

def standard : Config S where
  sampler := .known .forward
  expectedValueSamples := .int 1000
  maxSamples := .int 10000
  initialSamples := .int 10
  sampleStep := .int 10
  alpha := .real (Scalar.ratio 5 100)
  epsilon := .real (Scalar.ratio 3 100)

def get (c : Config S) : ConfigField → Value S
  | .expectedValueSamples => c.expectedValueSamples
  | .maxSamples => c.maxSamples
  | .initialSamples => c.initialSamples
  | .sampleStep => c.sampleStep
  | .alpha => c.alpha
  | .epsilon => c.epsilon

def set (c : Config S) (v : Value S) : ConfigField → Config S
  | .expectedValueSamples => { c with expectedValueSamples := v }
  | .maxSamples => { c with maxSamples := v }
  | .initialSamples => { c with initialSamples := v }
  | .sampleStep => { c with sampleStep := v }
  | .alpha => { c with alpha := v }
  | .epsilon => { c with epsilon := v }

/-- A setting by name: the sampler, or the value of a field. -/
inductive Setting (S : Type) where
  | sampler (choice : SamplerChoice S)
  | field (name : String) (v : Value S)

def apply (c : Config S) : Setting S → Outcome S (Config S)
  | .sampler choice => .ok { c with sampler := choice }
  | .field name v => match ConfigField.ofName? name with
    | some f => .ok (c.set v f)
    | none => .error .unknownField

/-- All settings are made before any of them is checked. -/
def make (settings : List (Setting S)) : Outcome S (Config S) := do
  let c ← settings.foldlM apply standard
  ConfigField.all.forM fun f => f.check (c.get f)
  return c

def same (a b : Config S) : Bool :=
  a.sampler.same b.sampler && ConfigField.all.all fun f => (a.get f).equal (b.get f)

def strategy (c : Config S) : Outcome S Strategy :=
  match c.sampler with
  | .known s => .ok s
  | .other v => .error (.unknownSampler v)

end Config

end ChanceGraph
