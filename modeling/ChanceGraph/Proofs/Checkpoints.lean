import ChanceGraph.Proofs.Proportions
import ChanceGraph.Scalar.Binary64

/-!
A sequential test on samples that never end.  It stops at the first checkpoint that is decisive or beyond
the budget, so what it says can be read off the log likelihoods at its checkpoints, and more of the samples
being true can only bring its yes forward.
-/

set_option autoImplicit false

namespace ChanceGraph

theorem run_bind_of_ok {ε τ α β : Type} {t : ExceptT ε (StateM τ) α} {f : α → ExceptT ε (StateM τ) β}
    {s s' : τ} {a : α} (run : t.run.run s = (.ok a, s')) : (t >>= f).run.run s = (f a).run.run s' := by
  rw [run_bind_stateM, run]

theorem Verdict.decision_iff {v : Verdict} : v.decision = true ↔ v.conclusion = .high := by
  simp [Verdict.decision]

theorem Hypotheses.conclude?_ne_undecided {S : Type} [Scalar S] (h : Hypotheses S) {e : Evidence S} :
    h.conclude? e ≠ some .undecided := by
  rw [Hypotheses.conclude?]
  split_ifs <;> simp

section Conclusions

variable {S : Type} [Scalar S] {h : Hypotheses S} {e : Evidence S}

theorem Hypotheses.conclude?_none :
    h.conclude? e = none ↔ ¬ h.upperThreshold ≤ e.logLikelihood h ∧ ¬ e.logLikelihood h ≤ h.lowerThreshold := by
  rw [conclude?]
  split_ifs with high low <;> simp [*]

theorem Hypotheses.conclude?_high : h.conclude? e = some .high ↔ h.upperThreshold ≤ e.logLikelihood h := by
  rw [conclude?]
  split_ifs with high low <;> simp [high]

theorem Hypotheses.conclude?_low (decided : h.conclude? e = some .low) :
    e.logLikelihood h ≤ h.lowerThreshold := by
  rw [conclude?] at decided
  split_ifs at decided with above below
  · cases decided
  · exact below

end Conclusions

/-- Samples that never end, each of them true or false. -/
structure SampleStream (S : Type) [Scalar S] where
  sample : ℕ → Sample S
  holds : ℕ → Bool
  truth : ∀ i, (sample i).value.truth = .ok (holds i)

/-- A test that looks at the evidence every `step` samples ends with a conclusion at its checkpoint `j`, the
first one that is decisive or beyond the budget.  It counts from `taken`, whatever has been drawn before. -/
structure EndsAt {S : Type} [Scalar S] (h : Hypotheses S) (evidence : ℕ → Evidence S) (step : ℕ) (budget : ℤ)
    (taken : ℤ) (drawn j : ℕ) (c : Conclusion) : Prop where
  before : ∀ i < j, taken + (i * step : ℕ) ≤ budget ∧ h.conclude? (evidence (drawn + i * step)) = none
  ends : if budget < taken + (j * step : ℕ) then c = .undecided
    else h.conclude? (evidence (drawn + j * step)) = some c

/-- A test that looks at the evidence every `step` samples stops at its checkpoint `j`: it reaches no
threshold before, and one there unless it is beyond the budget, as it is by one step at most. -/
structure StopsAt {S : Type} [Scalar S] (h : Hypotheses S) (evidence : ℕ → Evidence S) (initial step : ℕ)
    (budget : ℤ) (j : ℕ) (v : Verdict) : Prop where
  counted : v.samples = (initial + j * step : ℕ)
  before : ∀ i < j, ¬ h.upperThreshold ≤ (evidence (initial + i * step)).logLikelihood h ∧
    ¬ (evidence (initial + i * step)).logLikelihood h ≤ h.lowerThreshold
  within : (initial + j * step : ℕ) ≤ budget →
    (v.decision = true ↔ h.upperThreshold ≤ (evidence (initial + j * step)).logLikelihood h) ∧
      (v.decision = false → (evidence (initial + j * step)).logLikelihood h ≤ h.lowerThreshold)
  beyond : budget < (initial + j * step : ℕ) → v.decision = false ∧
    (∀ i < j, (initial + i * step : ℕ) ≤ budget) ∧ (initial + j * step : ℕ) ≤ max (initial : ℤ) (budget + step)

section Sooner

variable {S : Type} [Scalar S] {h : Hypotheses S} {e e' : ℕ → Evidence S} {step drawn j j' : ℕ}
  {taken budget : ℤ} {c d : Conclusion}

theorem EndsAt.within (ends : EndsAt h e step budget taken drawn j d) (decisive : d ≠ .undecided) :
    taken + (j * step : ℕ) ≤ budget ∧ h.conclude? (e (drawn + j * step)) = some d := by
  have last := ends.ends
  split_ifs at last with beyond
  · exact absurd last decisive
  · exact ⟨not_lt.mp beyond, last⟩

/-- The checkpoint before the last was within the budget. -/
theorem EndsAt.overshoot (ends : EndsAt h e step budget taken drawn j d) :
    taken + (j * step : ℕ) ≤ max taken (budget + step) := by
  cases j with
  | zero => simp
  | succ i =>
    have before := (ends.before i (Nat.lt_succ_self i)).1
    rw [Nat.succ_mul]
    omega

theorem EndsAt.stopsAt {initial : ℕ} (ends : EndsAt h e step budget initial initial j c) :
    StopsAt h e initial step budget j ⟨c, initial + (j * step : ℕ)⟩ := by
  have last := ends.ends
  refine ⟨by simp, fun i less => Hypotheses.conclude?_none.mp (ends.before i less).2, fun inside => ?_,
    fun beyond => ?_⟩
  · rw [if_neg (by push_cast at inside ⊢; omega)] at last
    rw [← Hypotheses.conclude?_high, last]
    cases c with
    | high => simp [Verdict.decision]
    | low => exact ⟨by simp [Verdict.decision], fun _ => Hypotheses.conclude?_low last⟩
    | undecided => exact absurd last h.conclude?_ne_undecided
  · rw [if_pos (by push_cast at beyond ⊢; omega)] at last
    subst last
    exact ⟨rfl, fun i less => by exact_mod_cast (ends.before i less).1, by exact_mod_cast ends.overshoot⟩

/-- Where other evidence gives the conclusion whenever this does, and another one only when this does too, it
gives the conclusion no later. -/
theorem EndsAt.sooner (decisive : d ≠ .undecided) (ends : EndsAt h e step budget taken drawn j d)
    (follows : ∀ n, h.conclude? (e n) = some d → h.conclude? (e' n) = some d)
    (only : ∀ n c, h.conclude? (e' n) = some c → c = d ∨ h.conclude? (e n) = some c)
    (ends' : EndsAt h e' step budget taken drawn j' c) : c = d ∧ j' * step ≤ j * step := by
  have decided := ends.within decisive
  -- At checkpoint `j` the other evidence is decisive too.
  have noLater : j' ≤ j := by
    by_contra later
    have looked := (ends'.before j (not_le.mp later)).2
    rw [follows _ decided.2] at looked
    cases looked
  have fewer : j' * step ≤ j * step := Nat.mul_le_mul_right step noLater
  have decided' := ends'.ends
  rw [if_neg (by omega)] at decided'
  cases only _ _ decided' with
  | inl same => exact ⟨same, fewer⟩
  | inr before =>
    cases noLater.lt_or_eq with
    | inl less =>
      rw [(ends.before j' less).2] at before
      cases before
    | inr last =>
      rw [last, decided.2] at before
      exact ⟨(Option.some.inj before).symm, fewer⟩

end Sooner

namespace SampleStream

variable {S : Type} [Scalar S] (s : SampleStream S)

/-- Reads the stream, and counts what has been read. -/
def next : ExceptT (Fault S) (StateM ℕ) (Sample S) :=
  ExceptT.mk fun i => (.ok (s.sample i), i + 1)

/-- What the first samples are evidence of. -/
def evidence : ℕ → Evidence S
  | 0 => .zero
  | n + 1 => (evidence n).add (s.holds n) (s.sample n).weight

theorem next_run (i : ℕ) : s.next.run.run i = (.ok (s.sample i), i + 1) :=
  rfl

theorem truth_run (i n : ℕ) :
    (ExceptT.mk (pure (s.sample i).value.truth) : ExceptT (Fault S) (StateM ℕ) Bool).run.run n =
      (.ok (s.holds i), n) := by
  rw [s.truth]
  rfl

theorem gather_evidence (k n : ℕ) :
    (gather s.next k (s.evidence n)).run.run n = (.ok (s.evidence (n + k)), n + k) := by
  induction k generalizing n with
  | zero => rfl
  | succ k ih =>
    rw [gather, run_bind_of_ok (s.next_run n), run_bind_of_ok (s.truth_run n (n + 1))]
    exact (ih (n + 1)).trans (by rw [Nat.add_right_comm, Nat.add_assoc])

variable {h : Hypotheses S} {step : ℕ}

theorem conclude_ends (positive : 0 < step) (budget taken : ℤ) (drawn : ℕ) :
    ∃ j c, (conclude h s.next step budget taken (s.evidence drawn)).run.run drawn =
        (.ok ⟨c, taken + (j * step : ℕ)⟩, drawn + j * step) ∧
      EndsAt h s.evidence step budget taken drawn j c := by
  -- A checkpoint that is not decisive leaves less of the budget.
  induction size : (budget + 1 - taken).toNat using Nat.strong_induction_on generalizing taken drawn with
  | _ length ih =>
    by_cases beyond : budget < taken
    · refine ⟨0, .undecided, ?_, ?_, ?_⟩
      · rw [conclude, dif_pos beyond]
        simp
        rfl
      · simp
      · simp [beyond]
    · cases decided : h.conclude? (s.evidence drawn) with
      | some c =>
        refine ⟨0, c, ?_, ?_, ?_⟩
        · rw [conclude, dif_neg beyond, decided]
          simp
          rfl
        · simp
        · simp [beyond, decided]
      | none =>
        obtain ⟨j, c, run, ends⟩ := ih _ (by omega) (taken + step) (drawn + step) rfl
        have later (i : ℕ) : drawn + (i + 1) * step = drawn + step + i * step := by ring
        have counted (i : ℕ) : taken + ((i + 1) * step : ℕ) = taken + step + (i * step : ℕ) := by
          push_cast
          ring
        refine ⟨j + 1, c, ?_, ?_, ?_⟩
        · rw [conclude, dif_neg beyond, decided]
          simp only [dif_neg positive.ne']
          rw [run_bind_of_ok (s.gather_evidence step drawn), later, counted]
          exact run
        · rintro (_ | i) less
          · simp [decided, not_lt.mp beyond]
          · rw [later, counted]
            exact ends.before i (Nat.lt_of_succ_lt_succ less)
        · rw [later, counted]
          exact ends.ends

variable {plan : TestPlan S} {patience : ℕ} {initial : ℤ}

theorem sequentialTest_ends (initialCount : countOf plan.initialSamples = .ok initial)
    (stepCount : countOf plan.step = .ok step) (positive : 0 < step) {budget : ℤ}
    (known : budgetOf patience plan.maxSamples = .ok (some budget)) :
    ∃ j c, (sequentialTest h plan patience s.next).run.run 0 =
        (.ok ⟨c, initial + (j * step : ℕ)⟩, initial.toNat + j * step) ∧
      EndsAt h s.evidence step budget initial initial.toNat j c := by
  obtain ⟨j, c, run, ends⟩ := s.conclude_ends (h := h) positive budget initial initial.toNat
  refine ⟨j, c, ?_, ends⟩
  have gathered := s.gather_evidence initial.toNat 0
  rw [Nat.zero_add] at gathered
  rw [sequentialTest, initialCount, known, stepCount]
  exact (run_bind_of_ok gathered).trans run

/-- A bound that is no number is never met: what has been gathered is not looked at. -/
theorem sequentialTest_unbounded (initialCount : countOf plan.initialSamples = .ok initial)
    (known : budgetOf patience plan.maxSamples = .ok none) :
    (sequentialTest h plan patience s.next).run.run 0 = (.ok ⟨.undecided, initial⟩, initial.toNat) := by
  have gathered := s.gather_evidence initial.toNat 0
  rw [Nat.zero_add] at gathered
  rw [sequentialTest, initialCount, known]
  exact run_bind_of_ok gathered

theorem sequentialTest_sooner {s s' : SampleStream S}
    (initialCount : countOf plan.initialSamples = .ok initial) (stepCount : countOf plan.step = .ok step)
    (positive : 0 < step) {bound : Option ℤ} (known : budgetOf patience plan.maxSamples = .ok bound)
    {d : Conclusion} (decisive : d ≠ .undecided)
    (follows : ∀ n, h.conclude? (s.evidence n) = some d → h.conclude? (s'.evidence n) = some d)
    (only : ∀ n c, h.conclude? (s'.evidence n) = some c → c = d ∨ h.conclude? (s.evidence n) = some c)
    {v : Verdict} {n : ℕ} (run : (sequentialTest h plan patience s.next).run.run 0 = (.ok v, n))
    (concludes : v.conclusion = d) :
    ∃ v' n', (sequentialTest h plan patience s'.next).run.run 0 = (.ok v', n') ∧
      v'.conclusion = d ∧ v'.samples ≤ v.samples := by
  cases bound with
  | none =>
    rw [s.sequentialTest_unbounded initialCount known] at run
    cases run
    exact absurd concludes.symm decisive
  | some budget =>
    obtain ⟨j, c, ran, ends⟩ := s.sequentialTest_ends (h := h) initialCount stepCount positive known
    obtain ⟨j', c', run', ends'⟩ := s'.sequentialTest_ends (h := h) initialCount stepCount positive known
    rw [ran] at run
    cases run
    subst concludes
    obtain ⟨same, fewer⟩ := ends.sooner decisive follows only ends'
    exact ⟨_, _, run', same, Int.add_le_add_left (Int.ofNat_le.mpr fewer) _⟩

end SampleStream

/-- Samples with real weights. -/
structure WeightedStream extends SampleStream Exact where
  weight : ℕ → ℝ
  weighs : ∀ i, (sample i).weight = .finite (weight i)

/-- What a sample of weight one says for the upper hypothesis and against the lower one. -/
noncomputable def Hypotheses.favour (h : Hypotheses Exact) (holds : Bool) : ℝ :=
  if holds then Real.log (h.high.toReal / h.low.toReal)
  else Real.log ((1 - h.high.toReal) / (1 - h.low.toReal))

namespace Hypotheses

/-- The log likelihood from which on the upper hypothesis is accepted. -/
noncomputable def upperLog (h : Hypotheses Exact) : ℝ :=
  Real.log ((1 - h.alpha.toReal) / h.alpha.toReal)

/-- The log likelihood up to which the lower hypothesis is accepted. -/
noncomputable def lowerLog (h : Hypotheses Exact) : ℝ :=
  Real.log (h.alpha.toReal / (1 - h.alpha.toReal))

theorem lowerLog_lt_upperLog {probability epsilon alpha : Value Exact} {h : Hypotheses Exact}
    (accepted : around probability epsilon alpha = .ok h) : h.lowerLog < h.upperLog := by
  obtain ⟨low, high, rate, rfl, -, -, -, positive, below⟩ := around_ok accepted
  have rest : 0 < 1 - rate := by linarith
  refine Real.log_lt_log (div_pos positive rest) ?_
  change rate / (1 - rate) < (1 - rate) / rate
  rw [div_lt_div_iff₀ rest positive]
  nlinarith

end Hypotheses

namespace WeightedStream

variable (s : WeightedStream) {h : Hypotheses Exact}

noncomputable def logLikelihood (h : Hypotheses Exact) (n : ℕ) : ℝ :=
  ∑ i ∈ Finset.range n, s.weight i * h.favour (s.holds i)

theorem evidence_tally (n : ℕ) : s.evidence n =
    tally (∑ i ∈ Finset.range n, s.weight i) (∑ i ∈ Finset.range n, if s.holds i then s.weight i else 0) := by
  induction n with
  | zero => rfl
  | succ n ih =>
    rw [SampleStream.evidence, ih, s.weighs, Finset.sum_range_succ, Finset.sum_range_succ]
    cases s.holds n <;> simp [Evidence.add, tally]

theorem drift_evidence {low high rate : ℝ} (n : ℕ) :
    drift high low (∑ i ∈ Finset.range n, s.weight i)
      (∑ i ∈ Finset.range n, if s.holds i then s.weight i else 0) =
      s.logLikelihood ⟨.finite low, .finite high, .finite rate⟩ n := by
  simp only [drift, logLikelihood, Finset.sum_mul, ← Finset.sum_sub_distrib, ← Finset.sum_add_distrib]
  refine Finset.sum_congr rfl fun i _ => ?_
  cases s.holds i <;> simp [Hypotheses.favour]

variable {probability epsilon alpha : Value Exact}

/-- A threshold is reached by the evidence just when the exact log likelihood reaches it. -/
theorem reached_iff (accepted : Hypotheses.around probability epsilon alpha = .ok h) (n : ℕ) :
    (h.upperThreshold ≤ (s.evidence n).logLikelihood h ↔ h.upperLog ≤ s.logLikelihood h n) ∧
      ((s.evidence n).logLikelihood h ≤ h.lowerThreshold ↔ s.logLikelihood h n ≤ h.lowerLog) := by
  obtain ⟨low, high, rate, rfl, lowPositive, apart, highBelow, positive, below⟩ :=
    Hypotheses.around_ok accepted
  rw [evidence_tally, logLikelihood_tally lowPositive apart highBelow, s.drift_evidence,
    upperThreshold_finite positive (by linarith), lowerThreshold_finite positive (by linarith),
    ← Real.log_inv, inv_div, Exact.finite_le, Exact.finite_le]
  exact ⟨Iff.rfl, Iff.rfl⟩

theorem conclude?_eq_high (accepted : Hypotheses.around probability epsilon alpha = .ok h) {n : ℕ} :
    h.conclude? (s.evidence n) = some .high ↔ h.upperLog ≤ s.logLikelihood h n :=
  Hypotheses.conclude?_high.trans (s.reached_iff accepted n).1

theorem conclude?_eq_low (accepted : Hypotheses.around probability epsilon alpha = .ok h) {n : ℕ} :
    h.conclude? (s.evidence n) = some .low ↔ s.logLikelihood h n ≤ h.lowerLog := by
  have apart := Hypotheses.lowerLog_lt_upperLog accepted
  have ⟨upper, lower⟩ := s.reached_iff accepted n
  refine ⟨fun decided => lower.mp (Hypotheses.conclude?_low decided), fun low => ?_⟩
  rw [Hypotheses.conclude?, if_neg (mt upper.mp (by linarith)), if_pos (lower.mpr low)]

end WeightedStream

theorem budgetOf_real {v : Value Exact} {limit : ℝ}
    (bounded : v.number?.map Number.toExact = some (.finite limit)) (patience : ℕ) :
    budgetOf patience v = .ok (some ⌊limit⌋) := by
  obtain ⟨m, number, value⟩ := Option.map_eq_some_iff.mp bounded
  rw [budgetOf, number]
  cases m with
  | int n =>
    cases value
    simp
  | real x =>
    cases value
    rfl

section Stopping

variable {probability epsilon alpha : Value Exact} {h : Hypotheses Exact} {plan : TestPlan Exact}
  {patience initial step : ℕ}

/-- The test looks every `step` samples, and stops where the log likelihood has reached a threshold, and only
there unless the budget is spent: then it says no at the first checkpoint beyond.  The loop does so in any
arithmetic; with real weights its log likelihoods are the exact ones. -/
theorem sequentialTest_stops :
    (∀ (S : Type) [Scalar S] (h : Hypotheses S) (plan : TestPlan S) (patience initial step : ℕ) (budget : ℤ)
      (s : SampleStream S), countOf plan.initialSamples = .ok initial → countOf plan.step = .ok step →
      0 < step → budgetOf patience plan.maxSamples = .ok (some budget) →
      ∃ v j, (sequentialTest h plan patience s.next).run.run 0 = (.ok v, initial + j * step) ∧
        StopsAt h s.evidence initial step budget j v) ∧
    ∀ (probability epsilon alpha : Value Exact) (h : Hypotheses Exact) (plan : TestPlan Exact)
      (patience initial step : ℕ) (limit : ℝ) (s : WeightedStream),
      Hypotheses.around probability epsilon alpha = .ok h → countOf plan.initialSamples = .ok initial →
      countOf plan.step = .ok step → 0 < step →
      plan.maxSamples.number?.map Number.toExact = some (.finite limit) →
      ∃ v j n, n = initial + j * step ∧
        (sequentialTest h plan patience s.next).run.run 0 = (.ok v, n) ∧ v.samples = n ∧
        (∀ i < j, h.lowerLog < s.logLikelihood h (initial + i * step) ∧
          s.logLikelihood h (initial + i * step) < h.upperLog) ∧
        (n ≤ limit → (v.decision = true ↔ h.upperLog ≤ s.logLikelihood h n) ∧
          (v.decision = false → s.logLikelihood h n ≤ h.lowerLog)) ∧
        (limit < n → v.decision = false ∧ (∀ i < j, (initial + i * step : ℕ) ≤ limit) ∧
          n ≤ max (initial : ℝ) (limit + step)) := by
  have stops (S : Type) [Scalar S] (h : Hypotheses S) (plan : TestPlan S) (patience initial step : ℕ)
      (budget : ℤ) (s : SampleStream S) (initialCount : countOf plan.initialSamples = .ok initial)
      (stepCount : countOf plan.step = .ok step) (positive : 0 < step)
      (known : budgetOf patience plan.maxSamples = .ok (some budget)) :
      ∃ v j, (sequentialTest h plan patience s.next).run.run 0 = (.ok v, initial + j * step) ∧
        StopsAt h s.evidence initial step budget j v := by
    obtain ⟨j, c, run, ends⟩ := s.sequentialTest_ends (h := h) initialCount stepCount positive known
    exact ⟨_, j, run, ends.stopsAt⟩
  refine ⟨stops, ?_⟩
  intro _ _ _ h plan patience initial step limit s accepted initialCount stepCount positive bounded
  obtain ⟨v, j, run, stop⟩ := stops Exact h plan patience initial step ⌊limit⌋ s.toSampleStream initialCount
    stepCount positive (budgetOf_real bounded patience)
  have reached (i : ℕ) := s.reached_iff accepted i
  have inBudget (i : ℕ) : (i : ℤ) ≤ ⌊limit⌋ ↔ (i : ℝ) ≤ limit := by
    rw [Int.le_floor, Int.cast_natCast]
  refine ⟨v, j, _, rfl, run, stop.counted, fun i less => ?_, fun inside => ?_, fun outside => ?_⟩
  · have between := stop.before i less
    rw [(reached _).1, (reached _).2, not_le, not_le] at between
    exact between.symm
  · rw [← (reached _).1, ← (reached _).2]
    exact stop.within ((inBudget _).mpr inside)
  · obtain ⟨no, before, atMost⟩ := stop.beyond (not_le.mp (mt (inBudget _).mp (not_le.mpr outside)))
    refine ⟨no, fun i less => (inBudget _).mp (before i less), ?_⟩
    have last : ((initial + j * step : ℕ) : ℝ) ≤ max (initial : ℝ) (⌊limit⌋ + step) := by exact_mod_cast atMost
    exact last.trans (max_le_max le_rfl (by linarith [Int.floor_le limit]))

/-- Samples of one weight. -/
noncomputable def streamOf (weight : ℝ) (holds : ℕ → Bool) : WeightedStream where
  sample i := ⟨.bool (holds i), .finite weight⟩
  holds
  truth _ := rfl
  weight _ := weight
  weighs _ := rfl

theorem halves_upperLog : halves.upperLog = Real.log 3 := by
  norm_num [halves, Hypotheses.upperLog]

theorem halves_lowerLog : halves.lowerLog = -Real.log 3 := by
  norm_num [halves, Hypotheses.lowerLog, ← Real.log_inv]

theorem halves_favour : halves.favour true = Real.log 3 := by
  norm_num [halves, Hypotheses.favour]

/-- Doubles of weight one, all of them true. -/
def onesOfDoubles : SampleStream Float where
  sample _ := ⟨.bool true, 1⟩
  holds _ := true
  truth _ := rfl

/-- Three fifths of a sample decide nothing, five do; a test on doubles stops like any other. -/
theorem sequentialTest_stops_fifths : (∃ v j,
    (sequentialTest ⟨0.25, 0.75, 0.25⟩ ⟨.int 10, .int 3, .int 2⟩ 0 onesOfDoubles.next).run.run 0 =
        (.ok v, 3 + j * 2) ∧
      StopsAt ⟨0.25, 0.75, 0.25⟩ onesOfDoubles.evidence 3 2 10 j v) ∧ ∃ v : Verdict,
    Hypotheses.around (.real (.finite (1 / 2))) (.real (.finite (1 / 4))) (.real (.finite (1 / 4))) =
        .ok halves ∧
      (sequentialTest halves ⟨.int 10, .int 3, .int 2⟩ 0 (streamOf (1 / 5) fun _ => true).next).run.run 0 =
        (.ok v, 5) ∧
      v.samples = 5 ∧ v.decision = true := by
  have accepted : Hypotheses.around _ _ _ = .ok halves := around_half
  refine ⟨sequentialTest_stops.1 Float _ ⟨.int 10, .int 3, .int 2⟩ 0 3 2 10 onesOfDoubles rfl rfl (by decide)
    rfl, ?_⟩
  obtain ⟨v, j, n, checkpoint, run, samples, before, inside, -⟩ :=
    sequentialTest_stops.2 _ _ _ _ ⟨.int 10, .int 3, .int 2⟩ 0 3 2 10 (streamOf (1 / 5) fun _ => true)
      accepted rfl rfl (by decide) (by simp [Value.number?])
  have positive : 0 < Real.log 3 := Real.log_pos (by norm_num)
  have likelihood (k : ℕ) : (streamOf (1 / 5) fun _ => true).logLikelihood halves k =
      k * (1 / 5 * Real.log 3) := by
    simp [WeightedStream.logLikelihood, streamOf, halves_favour]
  simp only [likelihood, halves_upperLog, halves_lowerLog] at before inside
  -- Three fifths of a sample are too little, and five fifths are enough.
  obtain rfl : j = 1 := by
    rcases j with _ | _ | j
    · subst checkpoint
      obtain ⟨yes, no⟩ := inside (by norm_num)
      cases decision : v.decision with
      | true =>
        have reached := yes.mp decision
        push_cast at reached
        linarith
      | false =>
        have reached := no decision
        push_cast at reached
        linarith
    · rfl
    · have between := (before 1 (by omega)).2
      push_cast at between
      linarith
  subst checkpoint
  refine ⟨v, accepted, run, samples, (inside (by norm_num)).1.mpr ?_⟩
  push_cast
  linarith

section More

variable {s s' : WeightedStream}

theorem logLikelihood_mono (accepted : Hypotheses.around probability epsilon alpha = .ok h)
    (weights : ∀ i, s.weight i = s'.weight i) (nonneg : ∀ i, 0 ≤ s.weight i)
    (more : ∀ i, s.holds i = true → s'.holds i = true) (n : ℕ) :
    s.logLikelihood h n ≤ s'.logLikelihood h n := by
  obtain ⟨low, high, rate, rfl, lowPositive, apart, highBelow, -, -⟩ := Hypotheses.around_ok accepted
  have holding : 0 ≤ Real.log (high / low) :=
    Real.log_nonneg ((one_le_div lowPositive).mpr apart.le)
  have failing : Real.log ((1 - high) / (1 - low)) ≤ 0 :=
    Real.log_nonpos (div_nonneg (by linarith) (by linarith)) ((div_le_one (by linarith)).mpr (by linarith))
  refine Finset.sum_le_sum fun i _ => ?_
  rw [← weights]
  refine mul_le_mul_of_nonneg_left ?_ (nonneg i)
  cases first : s.holds i with
  | true => rw [more i first]
  | false =>
    cases s'.holds i with
    | true => exact failing.trans holding
    | false => rfl

/-- With more of the samples true, a yes comes no later, and where the lower hypothesis is accepted even so,
it is no later accepted without them. -/
theorem sequentialTest_mono {start : ℤ} (accepted : Hypotheses.around probability epsilon alpha = .ok h)
    (initialCount : countOf plan.initialSamples = .ok start) (stepCount : countOf plan.step = .ok step)
    (positive : 0 < step) {bound : Option ℤ} (known : budgetOf patience plan.maxSamples = .ok bound)
    (weights : ∀ i, s.weight i = s'.weight i) (nonneg : ∀ i, 0 ≤ s.weight i)
    (more : ∀ i, s.holds i = true → s'.holds i = true) :
    (∀ v n, (sequentialTest h plan patience s.next).run.run 0 = (.ok v, n) → v.decision = true →
      ∃ v' n', (sequentialTest h plan patience s'.next).run.run 0 = (.ok v', n') ∧
        v'.decision = true ∧ v'.samples ≤ v.samples) ∧
    (∀ v' n', (sequentialTest h plan patience s'.next).run.run 0 = (.ok v', n') → v'.conclusion = .low →
      ∃ v n, (sequentialTest h plan patience s.next).run.run 0 = (.ok v, n) ∧
        v.conclusion = .low ∧ v.samples ≤ v'.samples) := by
  have grows := logLikelihood_mono accepted weights nonneg more
  -- The upper threshold is crossed whenever it was before, the lower one only where it was before.
  have high (k : ℕ) (before : h.conclude? (s.evidence k) = some .high) :
      h.conclude? (s'.evidence k) = some .high :=
    (s'.conclude?_eq_high accepted).mpr (((s.conclude?_eq_high accepted).mp before).trans (grows k))
  have low (k : ℕ) (after : h.conclude? (s'.evidence k) = some .low) :
      h.conclude? (s.evidence k) = some .low :=
    (s.conclude?_eq_low accepted).mpr ((grows k).trans ((s'.conclude?_eq_low accepted).mp after))
  have onlyHigh (k : ℕ) (c : Conclusion) (after : h.conclude? (s'.evidence k) = some c) :
      c = .high ∨ h.conclude? (s.evidence k) = some c := by
    cases c with
    | high => exact .inl rfl
    | low => exact .inr (low k after)
    | undecided => exact absurd after h.conclude?_ne_undecided
  have onlyLow (k : ℕ) (c : Conclusion) (before : h.conclude? (s.evidence k) = some c) :
      c = .low ∨ h.conclude? (s'.evidence k) = some c := by
    cases c with
    | high => exact .inr (high k before)
    | low => exact .inl rfl
    | undecided => exact absurd before h.conclude?_ne_undecided
  constructor
  · intro v n run yes
    obtain ⟨v', n', run', yes', sooner⟩ := SampleStream.sequentialTest_sooner initialCount stepCount positive
      known (by decide) high onlyHigh run (Verdict.decision_iff.mp yes)
    exact ⟨v', n', run', Verdict.decision_iff.mpr yes', sooner⟩
  · intro v' n' run' no
    exact SampleStream.sequentialTest_sooner initialCount stepCount positive known (by decide) low onlyLow
      run' no

/-- One true sample is enough for a yes, and still is when no sample is false. -/
theorem sequentialTest_mono_ones : ∃ v' n',
    Hypotheses.around (.real (.finite (1 / 2))) (.real (.finite (1 / 4))) (.real (.finite (1 / 4))) =
        .ok halves ∧
      (sequentialTest halves ⟨.int 9, .int 1, .int 1⟩ 0 (streamOf 1 (· == 0)).next).run.run 0 =
        (.ok ⟨.high, 1⟩, 1) ∧
      (sequentialTest halves ⟨.int 9, .int 1, .int 1⟩ 0 (streamOf 1 fun _ => true).next).run.run 0 =
        (.ok v', n') ∧
      v'.decision = true ∧ v'.samples ≤ 1 := by
  have accepted : Hypotheses.around _ _ _ = .ok halves := around_half
  have decided : halves.conclude? ((streamOf 1 (· == 0)).evidence 1) = some .high := by
    rw [(streamOf 1 (· == 0)).conclude?_eq_high accepted]
    simp [WeightedStream.logLikelihood, streamOf, halves_favour, halves_upperLog]
  have run : (sequentialTest halves ⟨.int 9, .int 1, .int 1⟩ 0 (streamOf 1 (· == 0)).next).run.run 0 =
      (.ok ⟨.high, 1⟩, 1) := by
    obtain ⟨j, c, run, ends⟩ := @SampleStream.sequentialTest_ends _ _ (streamOf 1 (· == 0)).toSampleStream
      halves 1 ⟨.int 9, .int 1, .int 1⟩ 0 1 rfl rfl (by decide) 9 rfl
    cases j with
    | zero =>
      have last := ends.ends
      rw [if_neg (by decide)] at last
      cases decided.symm.trans last
      exact run
    | succ j =>
      have looked := (ends.before 0 (Nat.succ_pos j)).2
      cases decided.symm.trans looked
  obtain ⟨v', n', run', yes, sooner⟩ := (@sequentialTest_mono _ _ _ _ ⟨.int 9, .int 1, .int 1⟩ 0 1
    (streamOf 1 (· == 0)) (streamOf 1 fun _ => true) 1 accepted rfl rfl (by decide) (some 9) rfl
    (fun _ => rfl) (fun _ => zero_le_one) (fun _ _ => rfl)).1 ⟨.high, 1⟩ 1 run rfl
  exact ⟨v', n', accepted, run, run', yes, sooner⟩

end More

end Stopping

end ChanceGraph
