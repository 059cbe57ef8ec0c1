import ChanceGraph.Proofs.Checkpoints
import ChanceGraph.Proofs.Hypotheses
import ChanceGraph.Proofs.Runs
import ChanceGraph.Session.Answers

/-!
Asking how probable falsehood is.  The test of the opposite hypotheses, on samples with every truth value
negated, takes the same steps as the test itself and comes to the opposite conclusion.
-/

set_option autoImplicit false

namespace ChanceGraph

section Gives

variable {m : Type → Type} [Monad m] {α β ε : Type} {p q : α → Prop}

/-- Whatever a computation results in has a property. -/
def Gives (p : α → Prop) (t : m α) : Prop :=
  ∃ u : m {a // p a}, Subtype.val <$> u = t

variable [LawfulMonad m]

theorem gives_pure {a : α} (holds : p a) : Gives p (pure a : m α) :=
  ⟨pure ⟨a, holds⟩, map_pure _ _⟩

theorem gives_any (t : m α) : Gives (fun _ => True) t :=
  ⟨(fun a => ⟨a, trivial⟩) <$> t, by simp⟩

theorem Gives.bind {r : β → Prop} {t : m α} {f : α → m β} (first : Gives p t)
    (rest : ∀ a, p a → Gives r (f a)) : Gives r (t >>= f) := by
  obtain ⟨u, rfl⟩ := first
  choose next same using rest
  refine ⟨u >>= fun a => next a.1 a.2, ?_⟩
  simp [same]

theorem Gives.map {r : β → Prop} {t : m α} {f : α → β} (first : Gives p t) (kept : ∀ a, p a → r (f a)) :
    Gives r (f <$> t) := by
  obtain ⟨u, rfl⟩ := first
  exact ⟨(fun a => ⟨f a.1, kept a.1 a.2⟩) <$> u, by simp⟩

theorem gives_throw (fault : ε) : Gives p (throw fault : ExceptT ε m α) :=
  ⟨throw fault, ExceptT.ext (by simp)⟩

theorem Gives.holds {σ : Type} {t : ExceptT ε (StateM σ) α} (gives : Gives p t) {s s' : σ} {a : α}
    (run : t.run.run s = (.ok a, s')) : p a := by
  obtain ⟨u, rfl⟩ := gives
  rw [ExceptT.run_map, StateT.run_map] at run
  cases result : u.run.run s with
  | mk r s₁ =>
    rw [result] at run
    cases r with
    | error fault => cases run
    | ok b =>
      cases run
      exact b.2

theorem gives_outcome {r : Except ε α} (holds : ∀ a, r = .ok a → p a) :
    Gives p (ExceptT.mk (pure r) : ExceptT ε m α) := by
  cases r with
  | error fault => exact gives_throw fault
  | ok a => exact gives_pure (holds a rfl)

end Gives

section Weights

variable {m : Type → Type} [Monad m] [LawfulMonad m]

def Sample.Weighs (s : Sample Exact) : Prop :=
  s.weight.IsFinite

/-- Whether all weights that a node attaches are real numbers. -/
def Node.Weighs : Node Exact → Prop
  | .leaf _ => True
  | .weightedMap n project => n.Weighs ∧ ∀ v w, project v = .ok w → w.weight.toExact.IsFinite
  | .weightedBind n dependent combine => n.Weighs ∧ (∀ v stamp, (dependent v stamp).Weighs) ∧
      ∀ v v' w, combine v v' = .ok w → w.weight.toExact.IsFinite
  | .filter n _ => n.Weighs
  | .unknown _ => True
  | .broken _ => True

theorem Exact.IsFinite.mul {x y : Exact} (first : x.IsFinite) (second : y.IsFinite) : (x * y).IsFinite := by
  obtain ⟨a, rfl⟩ := first
  obtain ⟨b, rfl⟩ := second
  exact ⟨a * b, rfl⟩

theorem Traversal.gives_retry {α : Type} {p : α → Prop} {attempt : Traversal m Exact α}
    (each : Gives p attempt) (accept : α → Outcome Exact Bool) (patience : ℕ) :
    Gives p (retry attempt accept patience) := by
  induction patience with
  | zero => exact gives_throw _
  | succ patience ih =>
    refine each.bind fun a holds => (gives_any _).bind fun accepted _ => ?_
    cases accepted with
    | true => exact gives_pure holds
    | false => exact (gives_any _).bind fun _ _ => ih

theorem forward_weighs (source : Source m Exact) (patience : ℕ) (n : Node Exact) (weighs : n.Weighs) :
    Gives Sample.Weighs (forward source patience n) := by
  induction n with
  | leaf l => exact (gives_any _).bind fun v _ => gives_pure ⟨1, rfl⟩
  | weightedMap n project ih =>
    refine (ih weighs.1).bind fun a first => gives_outcome fun b made => ?_
    obtain ⟨w, projected, made⟩ := Outcome.bind_ok.mp made
    simp only [Sample.project, Number.toScalar_exact, Outcome.ok_bind, Outcome.pure_ok] at made
    subst made
    exact first.mul (weighs.2 _ _ projected)
  | weightedBind n dependent combine ih ihDependent =>
    refine (ih weighs.1).bind fun a first => (gives_any _).bind fun stamp _ =>
      (ihDependent a.value stamp (weighs.2.1 _ _)).bind fun c second => gives_outcome fun b made => ?_
    obtain ⟨w, combined, made⟩ := Outcome.bind_ok.mp made
    simp only [Sample.combine, Number.toScalar_exact, Outcome.ok_bind, Outcome.pure_ok] at made
    subst made
    exact ((weighs.2.2 _ _ _ combined).mul first).mul second
  | filter n predicate ih => exact Traversal.gives_retry (ih weighs) _ _
  | unknown name => exact gives_throw _
  | broken fault => exact gives_throw _

end Weights

section Observing

variable {m : Type → Type} [Monad m] [LawfulMonad m]

/-- What a test reads of a sample. -/
def observing {S : Type} [Scalar S] (next : ExceptT (Fault S) m (Sample S)) :
    ExceptT (Fault S) m (Bool × S) := do
  let s ← next
  let holds ← ExceptT.mk (pure s.value.truth)
  return (holds, s.weight)

theorem gather_observing {S : Type} [Scalar S] (next : ExceptT (Fault S) m (Sample S)) (k : ℕ)
    (e : Evidence S) :
    gather next (k + 1) e = observing next >>= fun o => gather next k (e.add o.1 o.2) := by
  simp only [gather, observing, bind_assoc, pure_bind]

/-- Two readers of samples with the same weights, all of them real, and opposite truth values. -/
def Opposed (next next' : ExceptT (Fault Exact) m (Sample Exact)) : Prop :=
  ∃ r : ExceptT (Fault Exact) m (Bool × ℝ), observing next = (fun o => (o.1, .finite o.2)) <$> r ∧
    observing next' = (fun o => (!o.1, .finite o.2)) <$> r

variable {next next' : ExceptT (Fault Exact) m (Sample Exact)}

/-- What a test reads of a sample with a real weight. -/
noncomputable def observingReal (next : ExceptT (Fault Exact) m {s : Sample Exact // s.Weighs}) :
    ExceptT (Fault Exact) m (Bool × ℝ) := do
  let s ← next
  let holds ← ExceptT.mk (pure s.1.value.truth)
  return (holds, s.1.weight.toReal)

theorem opposed_of_weighs (weighs : Gives Sample.Weighs next)
    (negated : observing next' = (fun o => (!o.1, o.2)) <$> observing next) : Opposed next next' := by
  obtain ⟨u, rfl⟩ := weighs
  have read : observing (Subtype.val <$> u) = (fun o => (o.1, .finite o.2)) <$> observingReal u := by
    simp only [observing, observingReal, bind_map_left, map_bind, map_pure]
    refine bind_congr fun s => bind_congr fun holds => ?_
    obtain ⟨x, weight⟩ := s.2
    rw [weight, Exact.toReal_finite]
  refine ⟨_, read, ?_⟩
  rw [negated, read, Functor.map_map]

theorem opposed_throw (fault : Fault Exact) : Opposed (m := m) (throw fault) (throw fault) := by
  have thrown {α β : Type} (f : α → β) :
      f <$> (throw fault : ExceptT (Fault Exact) m α) = throw fault := ExceptT.ext (by simp)
  have read : observing (throw fault) = (throw fault : ExceptT (Fault Exact) m _) :=
    ExceptT.ext (by simp [observing])
  exact ⟨throw fault, read.trans (thrown _).symm, read.trans (thrown _).symm⟩

theorem gather_opposed (opposed : Opposed next next') (k : ℕ) (n t : ℝ) :
    ∃ g : ExceptT (Fault Exact) m (ℝ × ℝ), gather next k (tally n t) = (fun c => tally c.1 c.2) <$> g ∧
      gather next' k (tally n (n - t)) = (fun c => tally c.1 (c.1 - c.2)) <$> g := by
  obtain ⟨r, read, read'⟩ := opposed
  induction k generalizing n t with
  | zero => exact ⟨pure (n, t), by simp [gather], by simp [gather]⟩
  | succ k ih =>
    choose g counted counted' using ih
    refine ⟨r >>= fun o => g (n + o.2) (if o.1 then t + o.2 else t), ?_, ?_⟩
    · rw [gather_observing, read, bind_map_left, map_bind]
      refine bind_congr fun o => ?_
      rw [← counted]
      congr 1
      cases o.1 <;> simp [Evidence.add, tally]
    · rw [gather_observing, read', bind_map_left, map_bind]
      refine bind_congr fun o => ?_
      rw [← counted']
      congr 1
      cases o.1 <;> simp [Evidence.add, tally]
      ring

variable {probability epsilon alpha : Value Exact} {h : Hypotheses Exact}

theorem conclude_opposed (accepted : Hypotheses.around probability epsilon alpha = .ok h)
    (opposed : Opposed next next') (step : ℕ) (budget taken : ℤ) (n t : ℝ) :
    conclude h.opposite next' step budget taken (tally n (n - t)) =
      Verdict.opposite <$> conclude h next step budget taken (tally n t) := by
  -- The tests take the same steps, each of which leaves less of the budget.
  induction size : (budget + 1 - taken).toNat using Nat.strong_induction_on generalizing taken n t with
  | _ length ih =>
    rw [conclude, conclude, conclude?_opposite accepted]
    by_cases beyond : budget < taken
    · simp [beyond, Verdict.opposite, Conclusion.opposite]
    · simp only [dif_neg beyond]
      cases h.conclude? (tally n t) with
      | some c => simp [Verdict.opposite]
      | none =>
        by_cases stays : step = 0
        · simp only [dif_pos stays, Option.map_none]
          exact ExceptT.ext (by simp)
        · obtain ⟨g, counted, counted'⟩ := gather_opposed opposed step n t
          simp only [dif_neg stays, Option.map_none]
          rw [counted, counted', bind_map_left, bind_map_left, map_bind]
          exact bind_congr fun c => ih _ (by omega) _ _ _ rfl

theorem sequentialTest_opposed (accepted : Hypotheses.around probability epsilon alpha = .ok h)
    (opposed : Opposed next next') (plan : TestPlan Exact) (patience : ℕ) :
    sequentialTest h.opposite plan patience next' =
      Verdict.opposite <$> sequentialTest h plan patience next := by
  unfold sequentialTest
  rw [map_bind]
  refine bind_congr fun start => ?_
  obtain ⟨g, counted, counted'⟩ := gather_opposed opposed start.toNat 0 0
  rw [sub_zero] at counted'
  change gather next start.toNat .zero = _ at counted
  change gather next' start.toNat .zero = _ at counted'
  rw [counted, counted', bind_map_left, bind_map_left, map_bind]
  refine bind_congr fun c => ?_
  rw [map_bind]
  refine bind_congr fun bound => ?_
  cases bound with
  | none => simp [Verdict.opposite, Conclusion.opposite]
  | some budget =>
    cases countOf plan.step with
    | ok step => exact conclude_opposed accepted opposed step.toNat budget start c.1 c.2
    | error fault => exact conclude_opposed accepted (opposed_throw fault) 1 budget start c.1 c.2

end Observing

section Nodes

variable {m : Type → Type} [Monad m] [LawfulMonad m]

theorem Gives.onPart {ε σ τ α : Type} {part : τ → σ} {put : τ → σ → τ} {p : α → Prop}
    {t : ExceptT ε (StateT σ m) α} (gives : Gives p t) : Gives p (onPart part put t) := by
  obtain ⟨u, rfl⟩ := gives
  exact ⟨ChanceGraph.onPart part put u, (onPart_map part put u Subtype.val).symm⟩

theorem next_weighs (source : Source m Exact) (patience : ℕ) {n : Node Exact} (weighs : n.Weighs) :
    Gives Sample.Weighs (Reader.next source patience .forward n) := by
  rw [Reader.next_forward]
  exact ((gives_any _).bind fun _ _ => forward_weighs source patience n weighs).onPart.onPart

theorem next_weightedMap {S : Type} [Scalar S] (source : Source m S) (patience : ℕ) (n : Node S)
    (project : Value S → Outcome S (Weighted S)) :
    Reader.next source patience .forward (n.weightedMap project) =
      Reader.next source patience .forward n >>= fun a =>
        ExceptT.mk (pure (project a.value >>= a.project)) := by
  rw [Reader.next_forward, Reader.next_forward, ← onPart_bind, ← onPart_bind]
  simp only [nextForward, forward, bind_assoc]
  rfl

omit [LawfulMonad m] in
theorem project_negation (a : Sample Exact) :
    (a.value.negation >>= fun v => a.project ⟨v, .one⟩) =
      (fun holds => (⟨.bool !holds, a.weight⟩ : Sample Exact)) <$> a.value.truth := by
  unfold Value.negation
  cases a.value.truth with
  | error fault => rfl
  | ok holds =>
    change a.project ⟨.bool !holds, .one⟩ = .ok ⟨.bool !holds, a.weight⟩
    rw [Sample.project, Number.toScalar_exact, Outcome.ok_bind, Number.toExact_one, Exact.mul_comm,
      Exact.one_mul]
    rfl

theorem observing_negation (source : Source m Exact) (patience : ℕ) (n : Node Exact) :
    observing (Reader.next source patience .forward (n.map Value.negation)) =
      (fun o => (!o.1, o.2)) <$> observing (Reader.next source patience .forward n) := by
  simp only [Node.map, next_weightedMap, observing, bind_assoc, pure_bind, map_bind, map_pure]
  refine bind_congr fun a => ?_
  rw [project_negation]
  cases a.value.truth with
  | error fault => exact ExceptT.ext (by simp)
  | ok holds => exact ExceptT.ext (by simp [Value.truth])

theorem opposed_negation (source : Source m Exact) (patience : ℕ) {n : Node Exact} (weighs : n.Weighs) :
    Opposed (Reader.next source patience .forward n)
      (Reader.next source patience .forward (n.map Value.negation)) :=
  opposed_of_weighs (next_weighs source patience weighs) (observing_negation source patience n)

end Nodes

section Verdicts

namespace Verdict

/-- Verdicts after as many samples, which are opposite unless the budget is spent. -/
structure Opposes (limit : ℝ) (v v' : Verdict) : Prop where
  samples : v'.samples = v.samples
  within : v.samples ≤ limit → v'.decision = !v.decision
  beyond : limit < v.samples → v.decision = false ∧ v'.decision = false

/-- Without a conclusion the budget is spent, and only then. -/
def Timely (budget : ℤ) (v : Verdict) : Prop :=
  v.conclusion = .undecided ↔ budget < v.samples

theorem Timely.opposes {limit : ℝ} {v : Verdict} (timely : v.Timely ⌊limit⌋) :
    v.Opposes limit v.opposite where
  samples := rfl
  within inside := by
    have decided : v.conclusion ≠ .undecided := by
      intro spent
      have beyond := Int.floor_lt.mp (timely.mp spent)
      linarith
    obtain ⟨c, samples⟩ := v
    cases c with
    | undecided => exact absurd rfl decided
    | high => rfl
    | low => rfl
  beyond outside := by
    have undecided : v.conclusion = .undecided := timely.mpr (Int.floor_lt.mpr outside)
    simp [decision, opposite, undecided, Conclusion.opposite]

end Verdict

variable {S : Type} [Scalar S] {m : Type → Type} [Monad m] [LawfulMonad m] (h : Hypotheses S)

theorem conclude_timely (next : ExceptT (Fault S) m (Sample S)) (step : ℕ) (budget taken : ℤ)
    (e : Evidence S) :
    Gives (Verdict.Timely budget) (conclude h next step budget taken e) := by
  -- What is left of the budget shrinks with every step that decides nothing.
  induction size : (budget + 1 - taken).toNat using Nat.strong_induction_on generalizing taken e with
  | _ length ih =>
    rw [conclude]
    by_cases beyond : budget < taken
    · rw [dif_pos beyond]
      exact gives_pure (by simp [Verdict.Timely, beyond])
    · rw [dif_neg beyond]
      cases decided : h.conclude? e with
      | some c =>
        have concluded : c ≠ .undecided := by
          rintro rfl
          exact h.conclude?_ne_undecided decided
        exact gives_pure (by simp [Verdict.Timely, beyond, concluded])
      | none =>
        by_cases stays : step = 0
        · simp only [dif_pos stays]
          exact gives_throw _
        · simp only [dif_neg stays]
          exact (gives_any _).bind fun e _ => ih _ (by omega) _ e rfl

theorem sequentialTest_timely {plan : TestPlan S} {patience : ℕ} {budget : ℤ}
    (known : budgetOf patience plan.maxSamples = .ok (some budget)) (next : ExceptT (Fault S) m (Sample S)) :
    Gives (Verdict.Timely budget) (sequentialTest h plan patience next) := by
  unfold sequentialTest
  rw [known]
  refine (gives_any _).bind fun start _ => (gives_any _).bind fun e _ => ?_
  have bound : (ExceptT.mk (pure (.ok (some budget))) : ExceptT (Fault S) m (Option ℤ)) =
      pure (some budget) := rfl
  rw [bound, pure_bind]
  cases countOf plan.step with
  | ok step => exact conclude_timely h _ _ _ _ _
  | error fault => exact conclude_timely h _ _ _ _ _

end Verdicts

section Streams

variable {s s' : WeightedStream}

theorem observing_next (s : WeightedStream) (i : ℕ) :
    (observing s.next).run.run i = (.ok (s.holds i, .finite (s.weight i)), i + 1) := by
  rw [observing, run_bind_of_ok (s.next_run i), run_bind_of_ok (s.truth_run i (i + 1)), s.weighs]
  rfl

theorem opposed_streams (weights : ∀ i, s'.weight i = s.weight i) (negated : ∀ i, s'.holds i = !s.holds i) :
    Opposed s.next s'.next := by
  refine opposed_of_weighs ⟨ExceptT.mk fun i => (.ok ⟨s.sample i, s.weight i, s.weighs i⟩, i + 1), rfl⟩ ?_
  apply ExceptT.ext
  apply StateT.ext
  intro i
  rw [ExceptT.run_map, StateT.run_map, observing_next, observing_next, weights, negated]
  rfl

end Streams

section Sessions

open Session

variable {S : Type} [Scalar S]

omit [Scalar S] in
theorem readOnce_run {α : Type} (r : Reader (StateM (World S)) S α) (s : Session S) :
    (readOnce r).run.run s = match (r.run.run {}).run s.world with
      | ((x, _), world) => (x, { s with world }) := rfl

omit [Scalar S] in
theorem readOnce_runs {α : Type} {r : Reader (StateM (World S)) S α} {s : Session S} {a : α}
    {reading : Reading S} {world : World S} (run : Runs r {} s.world a reading world) :
    (readOnce r).run.run s = (.ok a, { s with world }) := by
  change (match r.run.run {} s.world with | ((x, _), world) => (x, { s with world })) = _
  rw [run]

omit [Scalar S] in
theorem readOnce_map {α β : Type} (f : α → β) (r : Reader (StateM (World S)) S α) :
    readOnce (f <$> r) = f <$> readOnce r := by
  apply ExceptT.ext
  apply StateT.ext
  intro s
  rw [readOnce_run, ExceptT.run_map, StateT.run_map, StateT.run_map, ExceptT.run_map, StateT.run_map,
    readOnce_run]
  rfl

omit [Scalar S] in
theorem ofOutcome_ok {α β : Type} (a : α) (f : α → SessionM S β) : ofOutcome (.ok a) >>= f = f a :=
  rfl

theorem testItem_forward {c : Config S} (forward : c.sampler = .known .forward) {r : TestRequest S}
    {h : Hypotheses S} (accepted : r.hypotheses c = .ok h) (id : ObjectId) (root : Node S) :
    testItem (.node id root) r c = (fun v => ⟨h, r.plan c, v⟩) <$>
      readOnce (sequentialTest h (r.plan c) patience (Reader.next World.source patience .forward root)) := by
  have strategy : c.strategy = .ok .forward := by rw [Config.strategy, forward]
  simp only [testItem, openSampler, accepted, strategy, Item.node?, ofOutcome_ok, pure_bind, reader,
    map_eq_pure_bind]

def Session.TestResult.opposite (t : TestResult S) : TestResult S :=
  ⟨t.hypotheses.opposite, t.plan, t.verdict.opposite⟩

theorem testItem_negation {c : Config Exact} (forward : c.sampler = .known .forward) {r : TestRequest Exact}
    {h : Hypotheses Exact} (accepted : r.hypotheses c = .ok h) {q : Value Exact}
    (accepted' : ({ r with probability := q } : TestRequest Exact).hypotheses c = .ok h.opposite)
    {root : Node Exact} (weighs : root.Weighs) (id id' : ObjectId) :
    testItem (.node id' (root.map Value.negation)) { r with probability := q } c =
      TestResult.opposite <$> testItem (.node id root) r c := by
  rw [testItem_forward forward accepted, testItem_forward forward accepted', sequentialTest_opposed accepted
    (opposed_negation World.source Session.patience weighs), readOnce_map, Functor.map_map, Functor.map_map]
  rfl

theorem testItem_timely {c : Config Exact} (forward : c.sampler = .known .forward) {r : TestRequest Exact}
    {h : Hypotheses Exact} (accepted : r.hypotheses c = .ok h) {budget : ℤ}
    (known : budgetOf Session.patience (r.plan c).maxSamples = .ok (some budget)) (id : ObjectId)
    (root : Node Exact) :
    Gives (fun t => t.verdict.Timely budget) (testItem (.node id root) r c) := by
  rw [testItem_forward forward accepted]
  obtain ⟨u, same⟩ := sequentialTest_timely h known (Reader.next World.source Session.patience .forward root)
  have read : Gives (Verdict.Timely budget) (readOnce (sequentialTest h (r.plan c) Session.patience
      (Reader.next World.source Session.patience .forward root))) :=
    ⟨readOnce u, by rw [← readOnce_map, same]⟩
  exact read.map fun v timely => timely

variable {probability epsilon alpha : Value Exact} {h : Hypotheses Exact}

/-- The test of the opposite hypotheses, on samples with every truth value negated, is accepted where the test
is, takes as many samples, and within the budget says the opposite.  So it is with a graph and its negation,
asked with the same numbers from the stream. -/
theorem sequentialTest_negation (accepted : Hypotheses.around probability epsilon alpha = .ok h) :
    ∃ q, (Value.int 1).sub probability = .ok q ∧ Hypotheses.around q epsilon alpha = .ok h.opposite ∧
      (∀ (plan : TestPlan Exact) (patience initial step : ℕ) (limit : ℝ),
        countOf plan.initialSamples = .ok (initial : ℤ) → countOf plan.step = .ok (step : ℤ) → 0 < step →
        plan.maxSamples.number?.map Number.toExact = some (.finite limit) →
        ∀ s s' : WeightedStream, (∀ i, s'.weight i = s.weight i) → (∀ i, s'.holds i = !s.holds i) →
          ∃ v v' n, (sequentialTest h plan patience s.next).run.run 0 = (.ok v, n) ∧
            (sequentialTest h.opposite plan patience s'.next).run.run 0 = (.ok v', n) ∧
            v.samples = n ∧ v.Opposes limit v') ∧
      (∀ (c : Config Exact) (r : TestRequest Exact) (limit : ℝ), c.sampler = .known .forward →
        r.probability = probability → r.epsilon.getD c.epsilon = epsilon → r.alpha.getD c.alpha = alpha →
        (r.plan c).maxSamples.number?.map Number.toExact = some (.finite limit) →
        ∀ (root : Node Exact) (id id' : ObjectId), root.Weighs →
        ∀ (s s' : Session Exact) (t : TestResult Exact),
          (testItem (.node id root) r c).run.run s = (.ok t, s') →
          ∃ t', (testItem (.node id' (root.map Value.negation)) { r with probability := q } c).run.run s =
              (.ok t', s') ∧ t.verdict.Opposes limit t'.verdict) := by
  obtain ⟨q, made, accepted'⟩ := Hypotheses.around_opposite accepted
  refine ⟨q, made, accepted', ?_, ?_⟩
  · intro plan patience initial step limit initialCount stepCount positive bounded s s' weights negated
    obtain ⟨j, c, run, -⟩ := s.sequentialTest_ends (h := h) initialCount stepCount positive
      (budgetOf_real bounded patience)
    have timely := (sequentialTest_timely h (budgetOf_real bounded patience) s.next).holds run
    rw [Int.toNat_natCast] at run
    refine ⟨_, _, _, run, ?_, by simp, timely.opposes⟩
    rw [sequentialTest_opposed accepted (opposed_streams weights negated), ExceptT.run_map, StateT.run_map,
      run]
    rfl
  · rintro c r limit forward rfl rfl rfl bounded root id id' weighs s s' t run
    have timely := (testItem_timely forward accepted (budgetOf_real bounded _) id root).holds run
    refine ⟨t.opposite, ?_, timely.opposes⟩
    rw [testItem_negation forward accepted accepted' weighs id id', ExceptT.run_map, StateT.run_map, run]
    rfl

/-- A node that is always true. -/
def alwaysTrue : Node Exact :=
  .constant ⟨0, 0⟩ (.bool true)

def requestOf (probability width : ℝ) : TestRequest Exact where
  probability := .real (.finite probability)
  epsilon := some (.real (.finite width))
  alpha := some (.real (.finite width))
  maxSamples := some (.int 9)
  initialSamples := some (.int 1)
  step := some (.int 1)

theorem runs_alwaysTrue {w : World Exact} {r : Reading Exact}
    (absent : r.tally.cache.advance.get? ⟨0, 0⟩ = none) :
    ∃ r', Runs (Reader.next World.source Session.patience .forward alwaysTrue) r w ⟨.bool true, 1⟩ r' w := by
  have drawn : Runs (nextForward World.source Session.patience alwaysTrue) r.tally.cache w ⟨.bool true, 1⟩
      (r.tally.cache.advance.put ⟨0, 0⟩ (.bool true)) w :=
    Runs.bind (a := ⟨⟩) (runs_modify.mpr ⟨rfl, rfl⟩)
      ((Traversal.runs_sample_absent absent rfl).bind Runs.of_pure)
  exact ⟨_, Reader.runs_ofChain (ChainStep.runs_ofTraversal drawn)⟩

theorem testItem_alwaysTrue : ∃ s',
    (testItem (.node ⟨0, 0⟩ alwaysTrue) (requestOf (1 / 2) (1 / 4)) .standard).run.run (.start {}) =
      (.ok ⟨halves, ⟨.int 9, .int 1, .int 1⟩, ⟨.high, 1⟩⟩, s') := by
  have accepted : (requestOf (1 / 2) (1 / 4)).hypotheses .standard = .ok halves := around_half
  obtain ⟨r, read⟩ := @runs_alwaysTrue {} {} (by simp [Cache.get?, Cache.advance])
  have first : (Evidence.zero : Evidence Exact).add true 1 = tally 1 1 := by
    simp [Evidence.zero, Evidence.add, tally, Exact.zero_eq, Exact.one_eq]
  have gathered : Runs (gather (Reader.next World.source Session.patience .forward alwaysTrue) 1 .zero) {} {}
      (Evidence.zero.add true 1) r {} := read.bind (Runs.bind (a := true) Runs.of_pure Runs.of_pure)
  have tested : Runs (sequentialTest halves ⟨.int 9, .int 1, .int 1⟩ Session.patience
      (Reader.next World.source Session.patience .forward alwaysTrue)) {} {} ⟨.high, 1⟩ r {} := by
    refine Runs.bind (a := 1) Runs.of_pure (gathered.bind (Runs.bind (a := some 9) Runs.of_pure ?_))
    change Runs (conclude halves _ 1 9 1 _) _ _ _ _ _
    rw [conclude, first, conclude?_halves, if_pos le_rfl]
    exact Runs.of_pure
  have once := @readOnce_runs _ _ _ (.start {}) _ _ _ tested
  refine ⟨.start {}, ?_⟩
  rw [testItem_forward rfl accepted, ExceptT.run_map, StateT.run_map]
  exact congrArg _ once

/-- What is true in every sample is more probable than a half, and its negation is not. -/
theorem sequentialTest_negation_certain :
    Hypotheses.around (.real (.finite (1 / 2))) (.real (.finite (1 / 4))) (.real (.finite (1 / 4))) =
        .ok halves ∧
      (∃ v v' n, (sequentialTest halves ⟨.int 9, .int 1, .int 1⟩ 0
          (streamOf 1 fun _ => true).next).run.run 0 = (.ok v, n) ∧
        (sequentialTest halves.opposite ⟨.int 9, .int 1, .int 1⟩ 0
          (streamOf 1 fun _ => false).next).run.run 0 = (.ok v', n) ∧
        v.samples = n ∧ v.Opposes 9 v') ∧
      ∃ q s' t t', (Value.int 1).sub (.real (.finite (1 / 2))) = .ok q ∧
        (testItem (.node ⟨0, 0⟩ alwaysTrue) (requestOf (1 / 2) (1 / 4)) .standard).run.run (.start {}) =
          (.ok t, s') ∧
        (testItem (.node ⟨0, 1⟩ (alwaysTrue.map Value.negation))
          { requestOf (1 / 2) (1 / 4) with probability := q } .standard).run.run (.start {}) = (.ok t', s') ∧
        t.verdict.decision = true ∧ t'.verdict.decision = false := by
  have accepted : Hypotheses.around _ _ _ = .ok halves := around_half
  obtain ⟨q, made, -, streams, nodes⟩ := sequentialTest_negation accepted
  obtain ⟨s', run⟩ := testItem_alwaysTrue
  obtain ⟨t', run', opposes⟩ := nodes .standard (requestOf (1 / 2) (1 / 4)) 9 rfl rfl rfl rfl
    (by simp [requestOf, TestRequest.plan, Value.number?]) alwaysTrue ⟨0, 0⟩ ⟨0, 1⟩ trivial _ _ _ run
  refine ⟨accepted, ?_, q, s', _, t', made, run, run', rfl, ?_⟩
  · exact streams ⟨.int 9, .int 1, .int 1⟩ 0 1 1 9 rfl rfl (by decide) (by simp [Value.number?])
      (streamOf 1 fun _ => true) (streamOf 1 fun _ => false) (fun _ => rfl) fun _ => rfl
  · exact opposes.within (by norm_num)

end Sessions

end ChanceGraph
