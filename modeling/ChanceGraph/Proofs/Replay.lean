import ChanceGraph.Proofs.ExactSum
import ChanceGraph.Proofs.Renaming
import ChanceGraph.Proofs.Sharing
import ChanceGraph.Proofs.Traces

/-!
A trace read back: the program run again on the values of a trace takes the path on which they were
recorded, and ends with the sample that the trace stands for.
-/

set_option autoImplicit false

namespace ChanceGraph

variable {S σ : Type}

/-- What a program does that is given the values of its leaves: its outcome, the leaves it asked for
and where, the address it ends at, and the values it had no use for. -/
structure Replayed (S : Type) where
  sample : Sample S
  visits : List (Address × Distribution S)
  here : Address
  unused : List (Value S)

/-- Runs a program on given values, one for each leaf that is not a point mass.  A filter has one
attempt. -/
def replay [Scalar S] : Node S → Address → List (Value S) → Outcome S (Replayed S)
  | .leaf l, here, values =>
    match l.distribution, values with
    | .constant v, values => .ok ⟨.ofValue v, [], here, values⟩
    | _, [] => .error .finished
    | d, v :: rest => .ok ⟨.ofValue v, [(here, d)], here, rest⟩
  | .weightedMap n project, here, values => do
    let a ← replay n (here.advance .map) values
    return { a with sample := ← a.sample.project (← project a.sample.value) }
  | .weightedBind n dependent combine, here, values => do
    let a ← replay n (here.advance .bind) values
    let c ← replay (dependent a.sample.value 0) (a.here.advance .bind) a.unused
    let sample ← a.sample.combine c.sample (← combine a.sample.value c.sample.value)
    return ⟨sample, a.visits ++ c.visits, c.here, c.unused⟩
  | .filter n predicate, here, values => do
    let a ← replay n (here.advance .filter) values
    if ← predicate a.sample.value then return a else throw .endless
  | .unknown name, _, _ => throw (.unknownNode (Node.label name))
  | .broken fault, _, _ => throw fault

/-- A leaf of the program, whatever values and stamps its dependents are called with. -/
inductive Leaf.Within (l : Leaf S) : Node S → Prop where
  | leaf : l.Within (.leaf l)
  | weightedMap {n : Node S} {project : Value S → Outcome S (Weighted S)} (source : l.Within n) :
    l.Within (.weightedMap n project)
  | source {n : Node S} {dependent : Value S → Nat → Node S}
    {combine : Value S → Value S → Outcome S (Weighted S)} (source : l.Within n) :
    l.Within (.weightedBind n dependent combine)
  | dependent {n : Node S} {dependent : Value S → Nat → Node S}
    {combine : Value S → Value S → Outcome S (Weighted S)} (v : Value S) (stamp : Nat)
    (called : l.Within (dependent v stamp)) : l.Within (.weightedBind n dependent combine)
  | filter {n : Node S} {predicate : Predicate S} (source : l.Within n) :
    l.Within (.filter n predicate)

variable [Scalar S]

theorem Node.Renamed.replay_eq {r : Renaming} {n n' : Node S} (renamed : n.Renamed r n') :
    replay n = replay n' := by
  induction renamed with
  | leaf ids same =>
    funext here values
    simp only [replay, same]
  | weightedMap _ ih =>
    funext here values
    simp only [replay, ih]
  | weightedBind _ _ ihSource ihCalls =>
    funext here values
    simp only [replay, ihSource, ihCalls _ 0 0]
  | filter _ ih =>
    funext here values
    simp only [replay, ih]
  | unknown => rfl
  | broken => rfl

theorem replay_leaf {l : Leaf S} (indirect : ∀ v, l.distribution ≠ .constant v) (here : Address)
    (v : Value S) (rest : List (Value S)) :
    replay (.leaf l) here (v :: rest) =
      .ok ⟨.ofValue v, [(here, l.distribution)], here, rest⟩ := by
  cases form : l.distribution <;> simp_all [replay]

def Choice.visit (c : Choice S) : Address × Distribution S :=
  (c.address, c.leaf.distribution)

/-- The score of a choice is that of its value, or was kept with it. -/
def Choice.Grounded (p : Proposal S) (c : Choice S) : Prop :=
  c.leaf.distribution.logDensity c.value = .ok c.logScore ∨
    ∃ old, p.kept c.address c.leaf = .ok (some old) ∧ old.value = c.value ∧ old.logScore = c.logScore

/-- The choices that a traversal adds to a trace are those that the program replays. -/
structure Recorded (p : Proposal S) (n : Node S) (here : Progress S) (a : Sample S) (there : Progress S)
    (choices : List (Choice S)) : Prop where
  added : there.trace.choices = here.trace.choices ++ choices
  replays : ∀ rest, replay n here.address (choices.map (·.value) ++ rest) =
    .ok ⟨a, choices.map Choice.visit, there.address, rest⟩
  grounded : ∀ c ∈ choices, c.leaf.Within n ∧ c.Grounded p

namespace Recorded

variable {p : Proposal S} {n : Node S} {here there : Progress S} {a b : Sample S}
  {choices : List (Choice S)}

theorem constant {l : Leaf S} {v : Value S} (point : l.distribution = .constant v) :
    Recorded p (.leaf l) here (.ofValue v) here [] where
  added := (List.append_nil _).symm
  replays rest := by simp [replay, point]
  grounded := by simp

theorem choice {l : Leaf S} {v : Value S} {score : Number S} {reused : Bool}
    (indirect : ∀ v, l.distribution ≠ .constant v)
    (grounded : (⟨here.address, l, v, score, reused⟩ : Choice S).Grounded p) :
    Recorded p (.leaf l) here (.ofValue v) (here.record l v score reused)
      [⟨here.address, l, v, score, reused⟩] where
  added := rfl
  replays := replay_leaf indirect here.address v
  grounded := by simpa using ⟨.leaf, grounded⟩

theorem weightedMap {project : Value S → Outcome S (Weighted S)} {r : Weighted S}
    (inner : Recorded p n (here.advance .map) a there choices) (projects : project a.value = .ok r)
    (result : a.project r = .ok b) :
    Recorded p (.weightedMap n project) here b there choices where
  added := inner.added
  replays rest := by
    have inside := inner.replays rest
    simp only [Progress.advance] at inside
    simp [replay, inside, projects, result, pure, Except.pure]
  grounded c member := (inner.grounded c member).imp_left .weightedMap

theorem weightedBind {dependent : Value S → Nat → Node S}
    {combine : Value S → Value S → Outcome S (Weighted S)} {c : Sample S} {r : Weighted S}
    {choices' : List (Choice S)} {there' : Progress S} {stamp : Nat}
    (first : Recorded p n (here.advance .bind) a there choices)
    (second : Recorded p (dependent a.value stamp) (there.advance .bind) c there' choices')
    (steady : replay (dependent a.value stamp) = replay (dependent a.value 0))
    (combines : combine a.value c.value = .ok r) (result : a.combine c r = .ok b) :
    Recorded p (.weightedBind n dependent combine) here b there' (choices ++ choices') where
  added := by
    have before : there.trace.choices = here.trace.choices ++ choices := first.added
    rw [second.added, ← List.append_assoc, ← before]
    rfl
  replays rest := by
    have before := first.replays (choices'.map (·.value) ++ rest)
    have after := steady ▸ second.replays rest
    simp only [Progress.advance] at before after
    simp [replay, before, after, combines, result, pure, Except.pure]
  grounded := by
    refine List.forall_mem_append.mpr ⟨fun c member => ?_, fun c member => ?_⟩
    · exact (first.grounded c member).imp_left .source
    · exact (second.grounded c member).imp_left (.dependent a.value stamp)

theorem filter {predicate : Predicate S} (inner : Recorded p n (here.advance .filter) a there choices)
    (holds : predicate a.value = .ok true) :
    Recorded p (.filter n predicate) here a there choices where
  added := inner.added
  replays rest := by
    have inside := inner.replays rest
    simp only [Progress.advance] at inside
    simp [replay, inside, holds, pure, Except.pure]
  grounded c member := (inner.grounded c member).imp_left .filter

end Recorded

section Visit

variable {source : Source (StateM σ) S} {patience : Nat} {p : Proposal S} {here there : Progress S}
  {cache cache' : Cache S} {a : Sample S}

theorem visitFresh_recorded {l : Leaf S} (indirect : ∀ v, l.distribution ≠ .constant v)
    (run : Yields (visitFresh source l here) cache (a, there) cache') :
    ∃ choices, Recorded p (.leaf l) here a there choices := by
  obtain ⟨v, _, -, recorded⟩ := yields_bind run
  obtain ⟨score, scored, rfl, rfl, -⟩ := recordFresh_yields recorded
  exact ⟨_, .choice indirect (.inl scored)⟩

theorem visitLeaf_recorded {l : Leaf S} {fresh : Bool}
    (run : Yields (visitLeaf source p fresh l here) cache (a, there) cache') :
    ∃ choices, Recorded p (.leaf l) here a there choices := by
  rw [visitLeaf] at run
  split at run
  · next v point =>
    obtain ⟨same, -⟩ := yields_pure run
    cases same
    exact ⟨[], .constant point⟩
  · next indirect =>
    replace run := yields_get run
    split_ifs at run
    · exact visitFresh_recorded indirect run
    · obtain ⟨kept, _, decision, rest⟩ := yields_bind run
      obtain ⟨stays, -⟩ := Traversal.yields_ofOutcome decision
      cases kept with
      | none => exact visitFresh_recorded indirect rest
      | some old =>
        obtain ⟨_, _, -, last⟩ := yields_bind rest
        obtain ⟨same, -⟩ := yields_pure last
        cases same
        exact ⟨_, .choice indirect (.inr ⟨old, stays, rfl, rfl⟩)⟩

omit [Scalar S] in
theorem retry_accepted {α : Type} {attempt : Traversal (StateM σ) S α} {accept : α → Outcome S Bool}
    {a : α} (run : Yields (Traversal.retry attempt accept patience) cache a cache') :
    ∃ cache₁ cache₂, Yields attempt cache₁ a cache₂ ∧ accept a = .ok true := by
  induction patience generalizing cache with
  | zero => exact absurd run yields_throw
  | succ patience ih =>
    obtain ⟨b, _, attempted, rest⟩ := yields_bind run
    obtain ⟨accepted, _, decision, rest⟩ := yields_bind rest
    obtain ⟨judged, rfl⟩ := Traversal.yields_ofOutcome decision
    cases accepted with
    | true =>
      obtain ⟨rfl, -⟩ := yields_pure rest
      exact ⟨_, _, attempted, judged⟩
    | false =>
      -- What the refused attempt recorded is not passed on.
      obtain ⟨_, _, -, again⟩ := yields_bind rest
      exact ih again

theorem visit_recorded {n : Node S} {r : Renaming} (renamed : n.Renamed r n) {fresh : Bool}
    (run : Yields (visit source patience p n fresh here) cache (a, there) cache') :
    ∃ choices, Recorded p n here a there choices := by
  -- Replay calls dependents with one stamp for all; `renamed` makes up for the difference.
  induction n generalizing r fresh here there cache a cache' with
  | leaf l => exact visitLeaf_recorded run
  | weightedMap n project ih =>
    obtain ⟨⟨b, _⟩, _, inner, rest⟩ := yields_bind run
    obtain ⟨c, _, projected, last⟩ := yields_bind rest
    obtain ⟨result, -⟩ := Traversal.yields_ofOutcome projected
    obtain ⟨_, projects, result⟩ := Outcome.bind_ok.mp result
    obtain ⟨same, -⟩ := yields_pure last
    cases same
    cases renamed with
    | weightedMap renamed =>
      obtain ⟨choices, recorded⟩ := ih renamed inner
      exact ⟨choices, recorded.weightedMap projects result⟩
  | weightedBind n dependent combine ih ihDependent =>
    obtain ⟨⟨b, _⟩, _, first, rest⟩ := yields_bind run
    obtain ⟨stamp, _, -, rest⟩ := yields_bind rest
    obtain ⟨⟨c, _⟩, _, second, rest⟩ := yields_bind rest
    obtain ⟨d, _, combined, last⟩ := yields_bind rest
    obtain ⟨result, -⟩ := Traversal.yields_ofOutcome combined
    obtain ⟨_, combines, result⟩ := Outcome.bind_ok.mp result
    obtain ⟨same, -⟩ := yields_pure last
    cases same
    cases renamed with
    | weightedBind renamed calls =>
      obtain ⟨choices, before⟩ := ih renamed first
      obtain ⟨choices', after⟩ := ihDependent _ _ (calls _ stamp stamp) second
      exact ⟨_, before.weightedBind after (calls _ stamp 0).replay_eq combines result⟩
  | filter n predicate ih =>
    obtain ⟨_, _, attempted, holds⟩ := retry_accepted run
    cases renamed with
    | filter renamed =>
      obtain ⟨choices, recorded⟩ := ih renamed attempted
      exact ⟨choices, recorded.filter holds⟩
  | unknown name => exact absurd run yields_throw
  | broken fault => exact absurd run yields_throw

end Visit

/-- Leaves that are taken for one another score every value alike. -/
def Node.ScoresByKey (root : Node S) : Prop :=
  ∀ (l l' : Leaf S) k k', l.Within root → l'.Within root → l.key = .ok k → l'.key = .ok k' →
    k.same k' = true → ∀ v, l.distribution.logDensity v = l'.distribution.logDensity v

def Trace.Scored (root : Node S) (t : Trace S) : Prop :=
  ∀ c ∈ t.choices, c.leaf.Within root ∧ c.leaf.distribution.logDensity c.value = .ok c.logScore

theorem exactSumBy_congr {α : Type} {f g : α → Outcome S S} {items : List α}
    (each : ∀ a ∈ items, f a = g a) : exactSumBy f items = exactSumBy g items := by
  have mapped (f : α → Outcome S S) : exactSumBy f items = exactSumBy id (items.map f) := by
    simp [exactSumBy, List.foldlM_map]
  rw [mapped f, mapped g, List.map_congr_left each]

namespace Trace

def values (t : Trace S) : List (Value S) :=
  t.choices.map (·.value)

def visits (t : Trace S) : List (Address × Distribution S) :=
  t.choices.map Choice.visit

/-- The score that a trace has by the leaves and values in it, whatever scores it holds. -/
def trueScore (t : Trace S) : Outcome S S :=
  exactSumBy (fun c => do (← c.leaf.distribution.logDensity c.value).toScalar) t.choices

theorem Scored.score_eq {root : Node S} {t : Trace S} (scored : t.Scored root) :
    t.score = t.trueScore := by
  refine exactSumBy_congr fun c member => ?_
  rw [(scored c member).2, Outcome.ok_bind]

end Trace

def ChainState.Replays (root : Node S) (s : ChainState S) : Prop :=
  ∃ there, replay root {} s.trace.values = .ok ⟨s.sample, s.trace.visits, there, []⟩

section Chain

variable {source : Source (StateM σ) S} {patience : Nat} {root : Node S}
  {current : Option (ChainState S)}

theorem Choice.Grounded.scored {p : Proposal S} {c : Choice S} (grounded : c.Grounded p)
    (byKey : root.ScoresByKey) (within : c.leaf.Within root) (previous : p.previous.Scored root) :
    c.leaf.distribution.logDensity c.value = .ok c.logScore := by
  rcases grounded with scored | ⟨old, kept, value, score⟩
  · exact scored
  · -- The score was kept with a value of an older leaf, whose key is the same.
    obtain ⟨member, -, k, k', key, key', same⟩ := Trace.find?_ok (Proposal.kept_ok kept)
    obtain ⟨oldWithin, oldScored⟩ := previous old member
    rw [← value, ← score, ← byKey _ _ k k' oldWithin within key key' same]
    exact oldScored

theorem propose_replays (steady : root.Steady) {cache cache' : Cache S} {s : ChainState S}
    (run : Yields (propose source patience root current) cache s cache') :
    s.Replays root ∧ (root.ScoresByKey → (traceOf current).Scored root → s.trace.Scored root) := by
  obtain ⟨p, a, there, site, previous, visited, rfl⟩ := propose_yields run
  obtain ⟨choices, added, replays, grounded⟩ := visit_recorded steady visited
  have trace : there.trace.choices = choices := added
  constructor
  · have whole := replays []
    rw [List.append_nil, ← trace] at whole
    exact ⟨there.address, whole⟩
  · intro byKey before c member
    rw [trace] at member
    obtain ⟨within, grounded⟩ := grounded c member
    exact ⟨within, grounded.scored byKey within (previous ▸ before)⟩

/-- A step of a chain either stays or moves to a candidate that is possible. -/
theorem nextState_yields {left : Nat} {tally tally' : ChainTally S} {s : ChainState S}
    (run : Yields (nextState source patience root current left) tally s tally') :
    current = some s ∨ ∃ cache cache' x, Yields (propose source patience root current) cache s cache' ∧
      s.trace.score = .ok x ∧ (x == Scalar.negInfinity) = false := by
  -- An impossible candidate is dropped, and the step goes on with what is left of the attempts.
  induction left generalizing tally with
  | zero => exact absurd run yields_throw
  | succ left ih =>
    obtain ⟨candidate, _, proposed, rest⟩ := yields_bind run
    obtain ⟨x, _, scored, rest⟩ := yields_bind rest
    obtain ⟨score, -⟩ := Traversal.yields_ofOutcome (ChainStep.yields_ofTraversal scored)
    by_cases impossible : (x == Scalar.negInfinity) = true
    · rw [if_pos impossible] at rest
      exact ih rest
    · rw [if_neg impossible] at rest
      obtain ⟨accept, _, -, rest⟩ := yields_bind rest
      obtain ⟨_, _, -, rest⟩ := yields_bind rest
      obtain ⟨rfl, -⟩ := yields_pure rest
      have moved := ChainStep.yields_ofTraversal proposed
      cases accept with
      | true => exact .inr ⟨_, _, x, moved, score, by simpa using impossible⟩
      | false =>
        cases current with
        | none => exact .inr ⟨_, _, x, moved, score, by simpa using impossible⟩
        | some old => exact .inl rfl

structure ChainState.Faithful (root : Node S) (s : ChainState S) : Prop where
  replays : s.Replays root
  possible : ∃ x, s.trace.score = .ok x ∧ (x == Scalar.negInfinity) = false
  scored : root.ScoresByKey → s.trace.Scored root

theorem nextState_faithful (steady : root.Steady) (known : ∀ s, current = some s → s.Faithful root)
    {left : Nat} {tally tally' : ChainTally S} {s : ChainState S}
    (run : Yields (nextState source patience root current left) tally s tally') : s.Faithful root := by
  rcases nextState_yields run with stays | ⟨_, _, x, proposed, score, possible⟩
  · exact known s stays
  · obtain ⟨replays, scored⟩ := propose_replays steady proposed
    refine ⟨replays, ⟨x, score, possible⟩, fun byKey => scored byKey ?_⟩
    cases current with
    | none => simp [traceOf, Trace.empty, Trace.Scored]
    | some old => exact (known old rfl).scored byKey

omit [Scalar S] in
theorem Reader.yields_ofChain {α : Type} {step : ChainStep (StateM σ) S α} {r r' : Reading S} {a : α}
    (run : Yields (ofChain step) r a r') : Yields step r.tally a r'.tally := by
  rw [ofChain_eq] at run
  obtain ⟨tally, inner, rfl⟩ := yields_onPart run
  exact inner

/-- The step of a chain leads from states with a property to one that has it. -/
def ChainState.Kept (source : Source (StateM σ) S) (patience : Nat) (root : Node S)
    (P : ChainState S → Prop) : Prop :=
  ∀ current left tally s tally', (∀ c, current = some c → P c) →
    Yields (nextState source patience root current left) tally s tally' → P s

theorem nextMarkov_keeps {P : ChainState S → Prop} (keeps : ChainState.Kept source patience root P)
    {r r' : Reading S} {a : Sample S} (known : ∀ s, r.current = some s → P s)
    (run : Yields (Reader.nextMarkov source patience root) r a r') :
    ∃ s, r'.current = some s ∧ s.sample = a ∧ P s := by
  obtain ⟨s, _, step, rest⟩ := yields_bind (yields_get run)
  obtain ⟨_, _, stored, last⟩ := yields_bind rest
  obtain rfl := yields_modify stored
  obtain ⟨rfl, rfl⟩ := yields_pure last
  exact ⟨s, rfl, rfl, keeps _ _ _ _ _ known (Reader.yields_ofChain step)⟩

theorem takeOnto_keeps {P : ChainState S → Prop} (keeps : ChainState.Kept source patience root P)
    {k : Nat} {r r' : Reading S} {before samples : List (Sample S)}
    (known : ∀ s, r.current = some s → P s) (shown : before.head? = r.current.map (·.sample))
    (run : Yields (takeOnto (Reader.nextMarkov source patience root) k before) r samples r') :
    samples.getLast? = r'.current.map (·.sample) ∧ ∀ s, r'.current = some s → P s := by
  -- The samples are gathered with the last one in front, which is why `shown` speaks of the head.
  induction k generalizing r before with
  | zero =>
    obtain ⟨rfl, rfl⟩ := yields_pure run
    rw [List.getLast?_reverse]
    exact ⟨shown, known⟩
  | succ k ih =>
    obtain ⟨a, _, step, rest⟩ := yields_bind run
    obtain ⟨s, current, rfl, holds⟩ := nextMarkov_keeps keeps known step
    refine ih ?_ ?_ rest
    · intro s' current'
      cases current.symm.trans current'
      exact holds
    · rw [current]
      rfl

theorem takeOnto_faithful (steady : root.Steady) {k : Nat} {r r' : Reading S}
    {before samples : List (Sample S)} (known : ∀ s, r.current = some s → s.Faithful root)
    (shown : before.head? = r.current.map (·.sample))
    (run : Yields (takeOnto (Reader.nextMarkov source patience root) k before) r samples r') :
    samples.getLast? = r'.current.map (·.sample) ∧ ∀ s, r'.current = some s → s.Faithful root :=
  takeOnto_keeps (fun _ _ _ _ _ known run => nextState_faithful steady known run) known shown run

/-- Whatever a chain has done, its state is one whose trace gives its sample back: the values of the
trace are all that the program asks for, where it asks for them, no filter refuses them, and the scores
are those of the values. -/
theorem trace_replays_sample (steady : root.Steady) {k : Nat} {tally : ChainTally S} {w w' : σ}
    {samples : List (Sample S)} {reading : Reading S}
    (run : (takeSamples (Reader.next source patience .markov root) k).run.run ⟨tally, none⟩ w =
      ((.ok samples, reading), w')) :
    samples.getLast? = reading.current.map (·.sample) ∧
    ∀ s, reading.current = some s →
      (∃ there, replay root {} s.trace.values = .ok ⟨s.sample, s.trace.visits, there, []⟩) ∧
      (∃ x, s.trace.score = .ok x ∧ (x == Scalar.negInfinity) = false) ∧
      (root.ScoresByKey →
        (∀ c ∈ s.trace.choices, c.leaf.distribution.logDensity c.value = .ok c.logScore) ∧
        s.trace.score = s.trace.trueScore) := by
  have taken : Yields (takeOnto (Reader.nextMarkov source patience root) k []) ⟨tally, none⟩ samples
      reading := ⟨w, w', run⟩
  have fresh : ∀ s, (⟨tally, none⟩ : Reading S).current = some s → s.Faithful root := by
    intro s current
    cases current
  obtain ⟨last, faithful⟩ := takeOnto_faithful steady fresh rfl taken
  refine ⟨last, fun s current => ?_⟩
  obtain ⟨replays, possible, scored⟩ := faithful s current
  refine ⟨replays, possible, fun byKey => ⟨fun c member => ?_, (scored byKey).score_eq⟩⟩
  exact (scored byKey c member).2

end Chain

section Example

variable {source : Source (StateM σ) Exact} {patience : Nat} {fresh : Bool} {here : Progress Exact}
  {cache cache' : Cache Exact} {w w' : σ}

noncomputable def fairScore : Number Exact :=
  .real (Scalar.log (Scalar.ratio 1 2))

theorem fairScore_eq : fairScore = .real (.finite (Real.log (1 / 2))) := by
  rw [fairScore, Exact.ratio_eq, Exact.finite_log (by norm_num)]
  norm_num

theorem fairFlip_logDensity (index : Nat) (b : Bool) :
    (fairFlip index : Leaf Exact).distribution.logDensity (.bool b) = .ok fairScore := by
  have density : (fairFlip index : Leaf Exact).distribution.density (.bool b) =
      .ok (.real (.finite (1 / 2))) := by
    cases b with
    | true => simp [fairFlip, Distribution.density, Value.truth, pure, Except.pure]
    | false =>
      change Number.sub .one (.real (Scalar.ratio 1 2)) = _
      simp only [Number.sub, Number.combine, Number.one, Number.toScalar, Outcome.ok_bind,
        Exact.one_eq, Exact.ratio_eq, Exact.finite_sub, pure, Except.pure]
      norm_num
  have scored : (fairFlip index : Leaf Exact).distribution.logDensity (.bool b) = (do
      return .real (logOfDensity (← (fairFlip index : Leaf Exact).distribution.density (.bool b)))) := rfl
  have above : (Number.real (.finite (1 / 2) : Exact)).le (.int 0) = false := by
    rw [Bool.eq_false_iff, ne_eq, Number.le_exact, Number.toExact_int, Number.toExact_real, Exact.finite_le]
    norm_num
  rw [scored, density, Outcome.ok_bind, logOfDensity, above]
  simp only [Number.log, fairScore_eq, Bool.false_eq_true, if_false, pure, Except.pure]
  rw [Exact.finite_log (by norm_num)]

theorem runs_visit_biased_anew {p : Proposal Exact} {id : ObjectId} {x v : Value Exact} {y : Number Exact}
    {score : Number Exact} (scored : (Distribution.flip x y).logDensity v = .ok score)
    (anew : (fresh || cache.contains id) = true ∨ p.kept here.address ⟨id, .flip x y⟩ = .ok none)
    (sampled : Runs (Traversal.sample source ⟨id, .flip x y⟩) cache w v cache' w') :
    Runs (visit source patience p (.leaf ⟨id, .flip x y⟩) fresh here) cache w
      (.ofValue v, here.record ⟨id, .flip x y⟩ v score false) cache' w' := by
  have visited : Runs (visitFresh source ⟨id, .flip x y⟩ here) cache w
      (.ofValue v, here.record ⟨id, .flip x y⟩ v score false) cache' w' :=
    sampled.bind (Runs.bind (Traversal.runs_ofOutcome.mpr ⟨scored, rfl, rfl⟩) Runs.of_pure)
  apply Runs.get_bind
  split_ifs with drawn
  · exact visited
  · exact Runs.bind (Traversal.runs_ofOutcome.mpr ⟨anew.resolve_left drawn, rfl, rfl⟩) visited

theorem runs_visit_flip_anew {p : Proposal Exact} {id : ObjectId} {b : Bool}
    (anew : (fresh || cache.contains id) = true ∨
      p.kept here.address ⟨id, (fairFlip 0).distribution⟩ = .ok none)
    (sampled : Runs (Traversal.sample source ⟨id, (fairFlip 0).distribution⟩) cache w (.bool b) cache' w') :
    Runs (visit source patience p (.leaf ⟨id, (fairFlip 0).distribution⟩) fresh here) cache w
      (.ofValue (.bool b), here.record ⟨id, (fairFlip 0).distribution⟩ (.bool b) fairScore false)
      cache' w' :=
  runs_visit_biased_anew (fairFlip_logDensity 0 b) anew sampled

theorem runs_visit_fairFlip_anew {p : Proposal Exact} {index : Nat} {b : Bool}
    (anew : (fresh || cache.contains (fairFlip (S := Exact) index).id) = true ∨
      p.kept here.address (fairFlip index) = .ok none)
    (sampled : Runs (Traversal.sample source (fairFlip index)) cache w (.bool b) cache' w') :
    Runs (visit source patience p (.leaf (fairFlip index)) fresh here) cache w
      (.ofValue (.bool b), here.record (fairFlip index) (.bool b) fairScore false) cache' w' :=
  runs_visit_flip_anew anew sampled

theorem runs_visit_fairFlip {index : Nat} {b : Bool}
    (sampled : Runs (Traversal.sample source (fairFlip index)) cache w (.bool b) cache' w') :
    Runs (visit source patience ⟨.empty, none⟩ (.leaf (fairFlip index)) fresh here) cache w
      (.ofValue (.bool b), here.record (fairFlip index) (.bool b) fairScore false) cache' w' :=
  runs_visit_fairFlip_anew (.inr rfl) sampled

theorem acrossFilter_visits : ∃ a there cache',
    Runs (visit tosses 2 ⟨.empty, none⟩ (acrossFilter : Node Exact) false ⟨{}, .empty⟩)
      (Cache.advance {}) [true, false, true, false] (a, there) cache' [] ∧
    a.value = .tuple [.bool true, .bool false] ∧
    there.trace.choices.map (·.logScore) = [fairScore, fairScore, fairScore] := by
  have past : (Cache.advance ({} : Cache Exact)).Past := Cache.past_new.advance
  have apart : (fairFlip 1 : Leaf Exact).id ≠ (fairFlip 0 : Leaf Exact).id := by simp [fairFlip]
  have first := Cache.get?_advance (S := Exact) Cache.past_new
  refine ⟨_, _, _, runs_visit_weightedBind
    (runs_visit_fairFlip (Traversal.runs_sample_absent (first _) rfl)) rfl
    (runs_visit_weightedBind (runs_retry_reject
      (runs_visit_fairFlip (Traversal.runs_sample_absent ?_ rfl)) rfl
      (runs_retry_accept (runs_visit_fairFlip (Traversal.runs_sample_absent ?_ rfl)) rfl)) rfl
      (runs_visit_fairFlip (Traversal.runs_sample_absent ?_ rfl)) rfl rfl) rfl rfl, rfl, rfl⟩
  · rw [Cache.get?_put_of_ne apart.symm]
    exact first _
  · exact Cache.get?_advance ((past.put _ _).put _ _) _
  · rw [Cache.get?_put_of_ne apart]
    exact Cache.get?_advance ((past.put _ _).put _ _) _

theorem acrossFilter_steady : (acrossFilter : Node Exact).Steady := by
  refine .weightedBind (.leaf rfl rfl) fun v k k' => ?_
  exact .weightedBind (.filter (.leaf (.inl rfl) rfl)) fun v k k' => .leaf (.inl (.inl rfl)) rfl

theorem within_acrossFilter {l : Leaf Exact} (within : l.Within acrossFilter) :
    l.distribution = (fairFlip 0).distribution := by
  cases within with
  | source inner =>
    cases inner
    rfl
  | dependent _ _ called =>
    cases called with
    | source inner =>
      rcases inner with _ | _ | _ | _ | ⟨inner⟩
      cases inner
      rfl
    | dependent _ _ inner =>
      cases inner
      rfl

/-- The first candidate of a chain is its next state where its score is finite. -/
theorem runs_nextState_first {root : Node Exact} {tally : ChainTally Exact} {s : ChainState Exact} {x : ℝ}
    {left : Nat} (proposed : Runs (propose source patience root none) tally.cache w s cache' w')
    (scored : s.trace.score = .ok (.finite x)) :
    Runs (nextState source patience root none (left + 1)) tally w s
      ⟨cache', tally.steps + 1, tally.accepted + 1⟩ w' := by
  refine Runs.bind (ChainStep.runs_ofTraversal proposed) (Runs.bind
    (ChainStep.runs_ofTraversal (Traversal.runs_ofOutcome.mpr ⟨scored, rfl, rfl⟩)) ?_)
  rw [Exact.finite_beq_negInfinity]
  exact Runs.bind (ChainStep.runs_ofTraversal Runs.of_pure)
    (Runs.bind (a := ⟨⟩) (runs_modify.mpr ⟨rfl, rfl⟩) Runs.of_pure)

theorem runs_next_markov {root : Node Exact} {r : Reading Exact} {s : ChainState Exact} {tally : ChainTally Exact}
    (stepped : Runs (nextState source patience root r.current patience) r.tally w s tally w') :
    Runs (Reader.next source patience .markov root) r w s.sample ⟨tally, some s⟩ w' :=
  Runs.get_bind (Runs.bind (Reader.runs_ofChain stepped)
    (Runs.bind (a := ⟨⟩) (runs_modify.mpr ⟨rfl, rfl⟩) Runs.of_pure))

theorem acrossFilter_runs_chain : ∃ s tally,
    Runs (takeSamples (Reader.next tosses 2 .markov (acrossFilter : Node Exact)) 1) {}
      [true, false, true, false] [s.sample] ⟨tally, some s⟩ [] ∧
    s.sample.value = .tuple [.bool true, .bool false] ∧ s.trace.size = 3 := by
  obtain ⟨a, there, cache', visited, value, scores⟩ := acrossFilter_visits
  have three : there.trace.size = 3 := by
    rw [Trace.size, ← List.length_map, scores]
    rfl
  have each : ∀ c ∈ there.trace.choices, c.logScore.toScalar = .ok (.finite (Real.log (1 / 2))) := by
    intro c member
    have listed := List.mem_map_of_mem (f := Choice.logScore) member
    rw [scores] at listed
    have fair : c.logScore = fairScore := by simpa using listed
    rw [fair, fairScore_eq]
    rfl
  have score := exactSumBy_finite each
  have proposed : Runs (propose tosses 2 (acrossFilter : Node Exact) none) {} [true, false, true, false]
      ⟨there.trace, a, none⟩ cache' [] := runs_propose_first visited
  exact ⟨⟨there.trace, a, none⟩, _,
    Runs.bind (runs_next_markov (r := {}) (runs_nextState_first proposed score)) Runs.of_pure, value, three⟩

theorem trace_replays_sample_acrossFilter : ∃ samples reading,
    (takeSamples (Reader.next tosses 2 .markov (acrossFilter : Node Exact)) 1).run.run {}
      [true, false, true, false] = ((.ok samples, reading), []) ∧
    ∃ s, reading.current = some s ∧ s.sample.value = .tuple [.bool true, .bool false] ∧
      s.trace.size = 3 ∧
      (∃ there, replay acrossFilter {} s.trace.values = .ok ⟨s.sample, s.trace.visits, there, []⟩) ∧
      (∃ x, s.trace.score = .ok x ∧ (x == Scalar.negInfinity) = false) ∧
      (∀ c ∈ s.trace.choices, c.leaf.distribution.logDensity c.value = .ok c.logScore) ∧
      s.trace.score = s.trace.trueScore := by
  obtain ⟨s, tally, run, value, three⟩ := acrossFilter_runs_chain
  obtain ⟨-, faithful⟩ := trace_replays_sample acrossFilter_steady run
  obtain ⟨replays, possible, scored⟩ := faithful s rfl
  refine ⟨_, _, run, s, rfl, value, three, replays, possible, scored ?_⟩
  intro l l' _ _ within within' _ _ _ v
  rw [within_acrossFilter within, within_acrossFilter within']

end Example

end ChanceGraph
