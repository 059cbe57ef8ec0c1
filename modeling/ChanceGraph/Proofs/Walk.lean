import ChanceGraph.Proofs.Outcome
import ChanceGraph.Sampler

/-!
Traversals that keep an account of the leaves they visit.  One recursion serves both samplers, which
differ in how they visit a leaf; without the account it is the traversal that the sampler makes.
-/

set_option autoImplicit false

namespace ChanceGraph

/-- A visit to a leaf, and the generation it was made in.  A value that the generation already had
for the leaf is held. -/
structure Visit (S : Type) where
  leaf : Leaf S
  value : Value S
  generation : Int
  held : Bool

abbrev Predicate (S : Type) := Value S → Outcome S Bool

/-- The outcome of a traversal, with its visits and the values that passed a filter.  What was met
in attempts that a filter discarded is not among them. -/
structure Walked (S : Type) where
  sample : Sample S
  visits : List (Visit S)
  passed : List (Predicate S × Value S)
  here : Progress S

abbrev LeafVisitor (m : Type → Type) (S : Type) :=
  Leaf S → Bool → Progress S → Traversal m S (Visit S × Progress S)

namespace Walked

variable {S : Type} [Scalar S]

def ofVisit (v : Visit S) (here : Progress S) : Walked S :=
  ⟨.ofValue v.value, [v], [], here⟩

def project (a : Walked S) (result : Weighted S) : Outcome S (Walked S) := do
  return { a with sample := ← a.sample.project result }

def combine (a c : Walked S) (result : Weighted S) : Outcome S (Walked S) := do
  return ⟨← a.sample.combine c.sample result, a.visits ++ c.visits, a.passed ++ c.passed, c.here⟩

def pass (predicate : Predicate S) (a : Walked S) : Walked S :=
  { a with passed := a.passed ++ [(predicate, a.sample.value)] }

def outcome (a : Walked S) : Sample S × Progress S :=
  (a.sample, a.here)

theorem project_ok {a b : Walked S} {r : Weighted S} (result : a.project r = .ok b) :
    ∃ s, a.sample.project r = .ok s ∧ b = { a with sample := s } := by
  obtain ⟨s, projects, made⟩ := Outcome.bind_ok.mp result
  cases made
  exact ⟨s, projects, rfl⟩

theorem combine_ok {a b c : Walked S} {r : Weighted S} (result : a.combine c r = .ok b) :
    ∃ s, a.sample.combine c.sample r = .ok s ∧
      b = ⟨s, a.visits ++ c.visits, a.passed ++ c.passed, c.here⟩ := by
  obtain ⟨s, combines, made⟩ := Outcome.bind_ok.mp result
  cases made
  exact ⟨s, combines, rfl⟩

omit [Scalar S] in
theorem pass_outcome (predicate : Predicate S) (a : Walked S) :
    (a.pass predicate).outcome = a.outcome := rfl

end Walked

variable {S : Type} [Scalar S] {m : Type → Type} [Monad m]

def walk (visitor : LeafVisitor m S) (source : Source m S) (patience : Nat) :
    Node S → Bool → Progress S → Traversal m S (Walked S)
  | .leaf l, fresh, here => do
    let (v, here) ← visitor l fresh here
    return .ofVisit v here
  | .weightedMap n project, fresh, here => do
    let a ← walk visitor source patience n fresh (here.advance .map)
    Traversal.ofOutcome do a.project (← project a.sample.value)
  | .weightedBind n dependent combine, fresh, here => do
    let a ← walk visitor source patience n fresh (here.advance .bind)
    let stamp ← Traversal.fresh source
    let c ← walk visitor source patience (dependent a.sample.value stamp) fresh
      (a.here.advance .bind)
    Traversal.ofOutcome do a.combine c (← combine a.sample.value c.sample.value)
  | .filter n predicate, _, here =>
    Walked.pass predicate <$>
      Traversal.retry (walk visitor source patience n true (here.advance .filter))
        (fun a => predicate a.sample.value) patience
  | .unknown name, _, _ => throw (.unknownNode (Node.label name))
  | .broken fault, _, _ => throw fault

def forwardVisitor (source : Source m S) : LeafVisitor m S := fun l _ here => do
  let cache ← get
  let v ← Traversal.sample source l
  return (⟨l, v, cache.generation, cache.contains l.id⟩, here)

def chainVisitor (source : Source m S) (p : Proposal S) : LeafVisitor m S := fun l fresh here => do
  let cache ← get
  let (a, there) ← visitLeaf source p fresh l here
  return (⟨l, a.value, cache.generation, cache.contains l.id⟩, there)

namespace Traversal

variable [LawfulMonad m] {α β : Type}

omit [Scalar S] in
theorem get_bind (t : Traversal m S α) : (do let _ ← get; t) = t := by
  apply ExceptT.ext
  apply StateT.ext
  intro cache
  exact run_get_bind (fun _ => t) cache

omit [Scalar S] in
theorem ofOutcome_map (f : α → β) (r : Outcome S α) :
    (f <$> ofOutcome r : Traversal m S β) = ofOutcome (f <$> r) := by
  apply ExceptT.ext
  cases r <;> simp [ofOutcome]

omit [Scalar S] in
theorem retry_map (f : α → β) (attempt : Traversal m S α) (accept : β → Outcome S Bool)
    (patience : Nat) :
    f <$> retry attempt (fun a => accept (f a)) patience = retry (f <$> attempt) accept patience := by
  induction patience with
  | zero => simp [retry]
  | succ patience ih =>
    simp only [retry, map_bind, bind_map_left]
    refine bind_congr fun a => bind_congr fun accepted => ?_
    cases accepted with
    | true => simp
    | false => simp [ih]

end Traversal

variable [LawfulMonad m]

omit [Scalar S] in
theorem forwardVisitor_value (source : Source m S) (l : Leaf S) (fresh : Bool)
    (here : Progress S) :
    (fun v : Visit S × Progress S => v.1.value) <$> forwardVisitor source l fresh here =
      Traversal.sample source l := by
  simp [forwardVisitor, Traversal.get_bind]

theorem visitLeaf_value (source : Source m S) (p : Proposal S) (l : Leaf S) (fresh : Bool)
    (here : Progress S) :
    (fun a : Sample S × Progress S => (Sample.ofValue a.1.value, a.2)) <$>
      visitLeaf source p fresh l here = visitLeaf source p fresh l here := by
  have record (v : Value S) : (fun a : Sample S × Progress S => (Sample.ofValue a.1.value, a.2)) <$>
      recordFresh (m := m) l v here = recordFresh l v here := by
    simp [recordFresh, Sample.ofValue]
  have drawn : (fun a : Sample S × Progress S => (Sample.ofValue a.1.value, a.2)) <$>
      visitFresh source l here = visitFresh source l here := by
    simp [visitFresh, record]
  unfold visitLeaf
  split
  · simp [Sample.ofValue]
  · unfold visitChoice
    simp only [map_bind]
    refine bind_congr fun cache => ?_
    split_ifs
    · exact drawn
    · simp only [map_bind]
      refine bind_congr fun kept => ?_
      cases kept with
      | none => exact drawn
      | some old => simp [visitKept, Sample.ofValue]

theorem chainVisitor_value (source : Source m S) (p : Proposal S) (l : Leaf S) (fresh : Bool)
    (here : Progress S) :
    (fun v : Visit S × Progress S => (Sample.ofValue v.1.value, v.2)) <$>
      chainVisitor source p l fresh here = visitLeaf source p fresh l here := by
  simp [chainVisitor, Traversal.get_bind, visitLeaf_value]

theorem walk_forward (source : Source m S) (patience : Nat) (n : Node S) (fresh : Bool)
    (here : Progress S) :
    Walked.sample <$> walk (forwardVisitor source) source patience n fresh here =
      forward source patience n := by
  induction n generalizing fresh here with
  | leaf l =>
    rw [forward, ← forwardVisitor_value source l fresh here]
    simp [walk, Walked.ofVisit]
  | weightedMap n project ih =>
    rw [forward, ← ih fresh (here.advance .map)]
    simp only [walk, map_bind, bind_map_left]
    refine bind_congr fun a => ?_
    simp [Traversal.ofOutcome_map, Walked.project]
  | weightedBind n dependent combine ih ihDependent =>
    rw [forward, ← ih fresh (here.advance .bind)]
    simp only [walk, map_bind, bind_map_left]
    refine bind_congr fun a => bind_congr fun stamp => ?_
    rw [← ihDependent a.sample.value stamp fresh (a.here.advance .bind)]
    simp [Traversal.ofOutcome_map, Walked.combine]
  | filter n predicate ih =>
    rw [forward, ← ih true (here.advance .filter), ← Traversal.retry_map]
    simp [walk, Walked.pass]
  | unknown name => simp [walk, forward]
  | broken fault => simp [walk, forward]

theorem walk_visit (source : Source m S) (p : Proposal S) (patience : Nat) (n : Node S)
    (fresh : Bool) (here : Progress S) :
    Walked.outcome <$> walk (chainVisitor source p) source patience n fresh here =
      visit source patience p n fresh here := by
  induction n generalizing fresh here with
  | leaf l =>
    rw [visit, ← chainVisitor_value source p l fresh here]
    simp [walk, Walked.ofVisit, Walked.outcome]
  | weightedMap n project ih =>
    rw [visit, ← ih fresh (here.advance .map)]
    simp only [walk, map_bind, bind_map_left]
    refine bind_congr fun a => ?_
    simp [Traversal.ofOutcome_map, Walked.project, Walked.outcome]
  | weightedBind n dependent combine ih ihDependent =>
    rw [visit, ← ih fresh (here.advance .bind)]
    simp only [walk, map_bind, bind_map_left]
    refine bind_congr fun a => bind_congr fun stamp => ?_
    rw [Walked.outcome, ← ihDependent a.sample.value stamp fresh (a.here.advance .bind)]
    simp [Traversal.ofOutcome_map, Walked.combine, Walked.outcome]
  -- The account of what passed is added outside the retries, and has no part in the outcome.
  | filter n predicate ih =>
    rw [visit, ← ih true (here.advance .filter)]
    refine Eq.trans ?_ (Traversal.retry_map Walked.outcome _ (fun (a, _) => predicate a.value)
      patience)
    simp only [walk, Functor.map_map, Walked.pass_outcome]
    rfl
  | unknown name => simp [walk, visit]
  | broken fault => simp [walk, visit]

/-- A state of a chain with the traversal that produced it. -/
structure WalkedState (S : Type) where
  walked : Walked S
  site : Option Nat

/-- What the readers of a sampler share, and the traversal behind the current state. -/
structure WalkedReading (S : Type) where
  tally : ChainTally S := {}
  current : Option (WalkedState S) := none

def WalkedState.state (s : WalkedState S) : ChainState S :=
  ⟨s.walked.here.trace, s.walked.sample, s.site⟩

def WalkedReading.reading (r : WalkedReading S) : Reading S :=
  ⟨r.tally, r.current.map WalkedState.state⟩

section Chain

omit [LawfulMonad m]

def walkForward (source : Source m S) (patience : Nat) (root : Node S) :
    Traversal m S (Walked S) := do
  Traversal.advance
  walk (forwardVisitor source) source patience root false ⟨{}, .empty⟩

def walkProposal (source : Source m S) (patience : Nat) (root : Node S)
    (current : Option (ChainState S)) : Traversal m S (WalkedState S) := do
  Traversal.advance
  let (p, site) ← pickSite source current
  return ⟨← walk (chainVisitor source p) source patience root false ⟨{}, .empty⟩, site⟩

def walkState (source : Source m S) (patience : Nat) (root : Node S)
    (current : Option (WalkedState S)) : Nat → ChainStep m S (WalkedState S)
  | 0 => throw .endless
  | left + 1 => do
    let old := current.map WalkedState.state
    let candidate ← ChainStep.ofTraversal (walkProposal source patience root old)
    let score ← ChainStep.ofTraversal (Traversal.ofOutcome candidate.state.trace.score)
    if score == Scalar.negInfinity then walkState source patience root current left
    else
      let accept ← ChainStep.ofTraversal (decideMove source candidate.state old)
      modify (ChainTally.count accept)
      return if accept then candidate else current.getD candidate

abbrev WalkedReader (m : Type → Type) (S : Type) := ExceptT (Fault S) (StateT (WalkedReading S) m)

def WalkedReader.ofChain {α : Type} (step : ChainStep m S α) : WalkedReader m S α :=
  ExceptT.mk fun r => do
    let (a, tally) ← step.run.run r.tally
    return (a, { r with tally })

def WalkedReader.next (source : Source m S) (patience : Nat) (strategy : Strategy)
    (root : Node S) : WalkedReader m S (Walked S) :=
  match strategy with
  | .forward => ofChain (ChainStep.ofTraversal (walkForward source patience root))
  | .markov => do
    let current := (← get).current
    let s ← ofChain (walkState source patience root current patience)
    modify fun r => { r with current := some s }
    return s.walked

end Chain

omit [LawfulMonad m] [Scalar S] in
theorem ChainStep.ofTraversal_eq {α : Type} (t : Traversal m S α) :
    ofTraversal t = onPart ChainTally.cache (fun tally cache => { tally with cache }) t :=
  rfl

omit [LawfulMonad m] [Scalar S] in
theorem Reader.ofChain_eq {α : Type} (step : ChainStep m S α) :
    ofChain step = onPart Reading.tally (fun r tally => { r with tally }) step :=
  rfl

omit [LawfulMonad m] in
theorem Reader.next_forward (source : Source m S) (patience : Nat) (n : Node S) :
    next source patience .forward n = onPart Reading.tally (fun r tally => { r with tally })
      (onPart ChainTally.cache (fun tally cache => { tally with cache })
        (ChanceGraph.nextForward source patience n)) :=
  rfl

omit [LawfulMonad m] [Scalar S] in
theorem WalkedReader.ofChain_eq {α : Type} (step : ChainStep m S α) :
    ofChain step = onPart WalkedReading.tally (fun r tally => { r with tally }) step :=
  rfl

omit [Scalar S] in
theorem ChainStep.ofTraversal_map {α β : Type} (f : α → β) (t : Traversal m S α) :
    f <$> ofTraversal t = ofTraversal (f <$> t) := by
  rw [ofTraversal_eq, ofTraversal_eq, onPart_map]

theorem walkForward_sample (source : Source m S) (patience : Nat) (root : Node S) :
    Walked.sample <$> walkForward source patience root = nextForward source patience root := by
  simp [walkForward, nextForward, walk_forward]

theorem walkProposal_state (source : Source m S) (patience : Nat) (root : Node S)
    (current : Option (ChainState S)) :
    WalkedState.state <$> walkProposal source patience root current =
      propose source patience root current := by
  simp only [walkProposal, propose, map_bind]
  refine bind_congr fun _ => bind_congr fun p => ?_
  rw [← walk_visit]
  simp [WalkedState.state, Walked.outcome]

theorem walkState_state (source : Source m S) (patience : Nat) (root : Node S)
    (current : Option (WalkedState S)) (left : Nat) :
    WalkedState.state <$> walkState source patience root current left =
      nextState source patience root (current.map WalkedState.state) left := by
  induction left with
  | zero => simp [walkState, nextState]
  | succ left ih =>
    rw [nextState, ← walkProposal_state, ← ChainStep.ofTraversal_map]
    simp only [walkState, map_bind, bind_map_left]
    refine bind_congr fun candidate => bind_congr fun score => ?_
    split_ifs
    · exact ih
    · simp only [map_bind]
      refine bind_congr fun accept => bind_congr fun _ => ?_
      cases accept <;> cases current <;> simp

namespace WalkedReader

variable {α α' β β' : Type}

/-- Reading with an account gives what reading without one does, and leaves the same behind. -/
def Mirrors (f : α → β) (t : WalkedReader m S α) (u : Reader m S β) : Prop :=
  ∀ r : WalkedReading S,
    u.run.run r.reading = (fun a => (a.1.map f, a.2.reading)) <$> t.run.run r

omit [Scalar S] in
theorem mirrors_pure {f : α → β} (a : α) :
    Mirrors f (pure a : WalkedReader m S α) (pure (f a)) := by
  intro r
  simp [Except.map]

omit [Scalar S] in
theorem mirrors_bind {f : α → β} {g : α' → β'} {t : WalkedReader m S α} {u : Reader m S β}
    {k : α → WalkedReader m S α'} {k' : β → Reader m S β'} (first : Mirrors f t u)
    (rest : ∀ a, Mirrors g (k a) (k' (f a))) : Mirrors g (t >>= k) (u >>= k') := by
  intro r
  simp only [ExceptT.run_bind, StateT.run_bind, first r, map_bind, bind_map_left]
  refine bind_congr fun a => ?_
  rcases a with ⟨_ | a, r⟩
  · simp [Except.map]
  · exact rest a r

omit [Scalar S] in
theorem mirrors_ofChain {f : α → β} {step : ChainStep m S α} {step' : ChainStep m S β}
    (same : f <$> step = step') : Mirrors f (ofChain step) (Reader.ofChain step') := by
  intro r
  subst same
  change (((f <$> step).run.run r.tally) >>= fun a => pure (a.1, { r.reading with tally := a.2 })) =
    _ <$> ((step.run.run r.tally) >>= fun a => pure (a.1, { r with tally := a.2 }))
  rw [ExceptT.run_map, StateT.run_map]
  simp [WalkedReading.reading]

omit [Scalar S] in
theorem mirrors_modify (t : WalkedReading S → WalkedReading S) (u : Reading S → Reading S)
    (same : ∀ r : WalkedReading S, u r.reading = (t r).reading) :
    Mirrors (m := m) id (modify t) (modify u) := by
  intro r
  rw [run_modify, run_modify, same, map_pure]
  rfl

omit [Scalar S] in
theorem mirrors_get {f : α → β} {k : WalkedReading S → WalkedReader m S α}
    {k' : Reading S → Reader m S β} (rest : ∀ r, Mirrors f (k r) (k' r.reading)) :
    Mirrors f (do k (← get)) (do k' (← get)) := by
  intro r
  rw [run_get_bind, run_get_bind]
  exact rest r r

theorem mirrors_next (source : Source m S) (patience : Nat) (strategy : Strategy)
    (root : Node S) :
    Mirrors Walked.sample (next source patience strategy root)
      (Reader.next source patience strategy root) := by
  cases strategy with
  | forward =>
    apply mirrors_ofChain
    rw [ChainStep.ofTraversal_map, walkForward_sample]
  | markov =>
    refine mirrors_get fun r => mirrors_bind (mirrors_ofChain (walkState_state _ _ _ _ _)) fun s => ?_
    exact mirrors_bind (mirrors_modify _ _ fun _ => rfl) fun _ => mirrors_pure s.walked

omit [Scalar S] in
theorem mirrors_takeOnto {f : α → β} {t : WalkedReader m S α} {u : Reader m S β}
    (each : Mirrors f t u) (k : Nat) (taken : List α) :
    Mirrors (List.map f) (takeOnto t k taken) (takeOnto u k (taken.map f)) := by
  induction k generalizing taken with
  | zero =>
    simp only [takeOnto, ← List.map_reverse]
    exact mirrors_pure _
  | succ k ih =>
    exact mirrors_bind each fun a => ih (a :: taken)

end WalkedReader

end ChanceGraph
