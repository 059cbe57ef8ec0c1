import ChanceGraph.Expr
import ChanceGraph.Value.Bits
import ChanceGraph.Leaf.Scripted
import ChanceGraph.Example.Grades
import ChanceGraph.Example.WalkingSpeed

/-!
Descriptions of graphs.  Building one makes every node anew, but for references to nodes that have
a name; the dependent of a bind is built at every call.
-/

set_option autoImplicit false

namespace ChanceGraph

/-- What a map or a bind computes: a value, and a weight if one is given. -/
structure Body (S : Type) where
  value : Expr S
  weight : Option (Expr S)

inductive Blueprint (S : Type) where
  | constant (v : Expr S)
  | flip (p : Expr S)
  | gaussian (mu sigma : Option (Expr S))
  | exponential (rate : Expr S)
  | uniform (low high : Expr S)
  | geometric (p : Expr S)
  | truncatedGeometric (p a b : Expr S)
  | multivariate (mean : List (Expr S)) (covariance : List (List (Expr S)))
  | multinomial (states : List (Expr S)) (probabilities : Option (List (Expr S)))
  | finite (items : List (Expr S × Option (Expr S))) (key : Option (Expr S))
  | scripted (draws : List (Expr S)) (scores : List (Expr S × Expr S)) (parameters : Expr S)
      (support : Option (List (Expr S × Expr S))) (mode : ScoreMode)
  | fix (x y accuracy : Expr S)
  | speed (first second : Blueprint S) (seconds : Expr S)
  | grades
  | stray
  | undefined
  | plain (v : Expr S)
  | lift (of : Blueprint S)
  | ref (name : String)
  | bindName (name : String) (value body : Blueprint S)
  | choose (c : Expr S) (yes no : Blueprint S)
  | map (source : Blueprint S) (name : String) (body : Body S)
  | bind (source : Blueprint S) (name : String) (dependent : Blueprint S) (name₂ : String)
      (body : Option (Body S))
  | filter (source : Blueprint S) (name : String) (condition : Expr S)
  | operate (op : Operator) (a b : Blueprint S)
  | neg (a : Blueprint S)
  | invert (a : Blueprint S)
  | sequence (items : List (Blueprint S))
  | repeated (source : Blueprint S) (times : Nat) (name : String) (f : Expr S)

variable {S : Type} [Scalar S]

namespace Body

/-- The value is formed before its weight; no weight counts as one. -/
def eval (env : Env S) (b : Body S) : Outcome S (Weighted S) := do
  let value ← b.value.eval env
  match b.weight with
  | none => return ⟨value, .one⟩
  | some w => return ⟨value, ← (← w.eval env).toNumber⟩

def project (env : Env S) (name : String) (b : Body S) (v : Value S) : Outcome S (Weighted S) :=
  b.eval (env.bindValue name v)

def combine (env : Env S) (name₁ name₂ : String) (b : Option (Body S)) (v w : Value S) :
    Outcome S (Weighted S) :=
  match b with
  | none => .ok ⟨w, .one⟩
  | some b => b.eval ((env.bindValue name₁ v).bindValue name₂ w)

end Body

def evalPairs (env : Env S) (pairs : List (Expr S × Expr S)) :
    Outcome S (List (Value S × Value S)) :=
  pairs.mapM fun (v, w) => do return (← v.eval env, ← w.eval env)

def evalWeighted (env : Env S) (pairs : List (Expr S × Expr S)) : Outcome S (List (Weighted S)) :=
  pairs.mapM fun (v, w) => do return ⟨← v.eval env, .real (← (← w.eval env).parseScalar)⟩

def evalItems (env : Env S) (items : List (Expr S × Option (Expr S))) :
    Outcome S (List (TableItem S)) :=
  items.mapM fun (v, w) => do
    let value ← v.eval env
    match w with
    | none => return (value, .real 1)
    | some w => return (value, ← w.eval env)

def evalScript (env : Env S) (draws : List (Expr S)) (scores : List (Expr S × Expr S))
    (parameters : Expr S) (support : Option (List (Expr S × Expr S))) (mode : ScoreMode) :
    Outcome S (Script S) := do
  let draws ← evalAll env draws
  let scores ← evalPairs env scores
  let parameters ← parameters.eval env
  let support ← support.mapM (evalWeighted env)
  return ⟨draws, scores, parameters, support, mode⟩

mutual

def Blueprint.build (env : Env S) : Blueprint S → Build S (Item S)
  | .constant v => Item.ofLeaf do return .constant (← v.eval env)
  | .flip p => Item.ofLeaf do Distribution.makeFlip (← p.eval env)
  | .gaussian mu sigma => Item.ofLeaf do
    let m ← (mu.map (Expr.eval env)).getD (.ok (.real 0))
    let s ← (sigma.map (Expr.eval env)).getD (.ok (.real 1))
    Distribution.makeGaussian m s
  | .exponential rate => Item.ofLeaf do Distribution.makeExponential (← rate.eval env)
  | .uniform low high => Item.ofLeaf do
    Distribution.makeUniform (← low.eval env) (← high.eval env)
  | .geometric p => Item.ofLeaf do Distribution.makeGeometric (← p.eval env)
  | .truncatedGeometric p a b => Item.ofLeaf do
    Distribution.makeTruncatedGeometric (← p.eval env) (← a.eval env) (← b.eval env)
  | .multivariate mean covariance => Item.ofLeaf do
    Distribution.makeMultivariate (← evalAll env mean) (← covariance.mapM (evalAll env))
  | .multinomial states probabilities => Item.ofLeaf do
    Distribution.makeMultinomial (← evalAll env states) (← probabilities.mapM (evalAll env))
  | .finite items key => Item.ofLeaf do
    Distribution.makeEnumeration (← evalItems env items) (Expr.grouping env key)
  | .scripted draws scores parameters support mode => Item.ofLeaf do
    return .client (← evalScript env draws scores parameters support mode).client
  | .fix x y accuracy => do
    let x ← Build.ofOutcome (x.eval env)
    let y ← Build.ofOutcome (y.eval env)
    Item.ofNode (← Example.fix x y (← Build.ofOutcome (accuracy.eval env)))
  | .speed first second seconds => do
    let a ← first.build env
    let b ← second.build env
    let t ← Build.ofOutcome (seconds.eval env)
    let a ← Build.ofOutcome a.asNode
    Item.ofNode (a.bind (fun v _ => Item.asDependent v (.ok b)) (Example.speedOf t))
  | .grades => do Item.ofNode (← Example.grades)
  | .stray => Item.ofNode (.unknown "Stray")
  | .undefined => Item.ofLeaf (.ok (.client abstractClient))
  | .plain v => do return .plain (← Build.ofOutcome (v.eval env))
  | .lift of => do (← of.build env).lift
  | .ref name => Build.ofOutcome (env.find name)
  | .bindName name value body => do
    let item ← value.build env
    body.build ((name, item) :: env)
  | .choose c yes no => do
    if ← Build.ofOutcome (do (← c.eval env).truth) then yes.build env else no.build env
  | .map source name body => do
    let n ← Build.ofOutcome (← source.build env).asNode
    Item.ofNode (n.weightedMap (body.project env name))
  | .bind source name dependent name₂ body => do
    let n ← Build.ofOutcome (← source.build env).asNode
    Item.ofNode (n.weightedBind
      (fun v stamp => Item.asDependent v ((dependent.build (env.bindValue name v)).run stamp))
      (Body.combine env name name₂ body))
  | .filter source name condition => do
    let n ← Build.ofOutcome (← source.build env).asNode
    Item.ofNode (n.filter (condition.predicate env name))
  | .operate op a b => do
    let x ← a.build env
    let y ← b.build env
    Item.operate op x y
  | .neg a => do
    match ← a.build env with
    | .node _ n => Item.ofNode (n.map Value.neg)
    | .plain v => return .plain (← Build.ofOutcome v.neg)
  | .invert a => do
    match ← a.build env with
    | .node _ n => Item.ofNode (n.map Value.negation)
    | .plain v => return .plain (← Build.ofOutcome v.complement)
  | .sequence items => do
    Item.ofNode (← Node.sequenceItems (← buildAll env items))
  | .repeated source times name f => do
    let item ← source.build env
    if times = 0 then return item
    let n ← Build.ofOutcome item.asNode
    Item.ofNode (Nat.repeat (fun n => n.map (f.fn env name)) times n)

def buildAll (env : Env S) : List (Blueprint S) → Build S (List (Item S))
  | [] => pure []
  | b :: rest => do
    let item ← b.build env
    return item :: (← buildAll env rest)

end

end ChanceGraph
