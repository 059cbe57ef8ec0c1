import ChanceGraph.Proofs.ExactSum
import ChanceGraph.Proofs.Outcome
import ChanceGraph.SequentialTest

/-!
The error rates of the sequential test on independent tosses of a coin.  The likelihood ratio of
the two hypotheses, and its inverse, do not grow on average where the coin is on one side of the
indifference zone, so a threshold is seldom reached from there, however late it is looked at.
-/

set_option autoImplicit false

namespace ChanceGraph

namespace Value

theorem lt_of_precedes {a b : Value Exact} {m : Number Exact} (number : a.number? = some m)
    (holds : a.precedes .strict b = .ok true) :
    ∃ n, b.number? = some n ∧ m.toExact < n.toExact := by
  obtain ⟨n, known, less⟩ := holds_of_precedes number holds
  exact ⟨n, known, (Number.lt_exact m n).mp less⟩

theorem lt_real_of_precedes {a : Value Exact} {m : Number Exact} {x : Exact}
    (number : a.number? = some m) (holds : a.precedes .strict (.real x) = .ok true) :
    m.toExact < x := by
  obtain ⟨_, known, less⟩ := lt_of_precedes number holds
  cases known
  exact less

end Value

namespace Hypotheses

theorem around_ok {probability epsilon alpha : Value Exact} {h : Hypotheses Exact}
    (accepted : around probability epsilon alpha = .ok h) :
    ∃ low high rate : ℝ, h = ⟨.finite low, .finite high, .finite rate⟩ ∧
      0 < low ∧ low < high ∧ high < 1 ∧ 0 < rate ∧ rate < 1 / 2 := by
  simp only [around, Value.within, Outcome.bind_ok, Outcome.ite_ok, Outcome.pure_ok,
    Outcome.throw_ne_ok, false_and, and_false, exists_false, or_false, exists_eq_left',
    Bool.false_eq_true] at accepted
  obtain ⟨low, -, high, -, _, lowPositive, rfl, _, apart, rfl, _, highBelow, rfl,
    inside, ⟨_, positive, below⟩, rfl, lowScalar, lowReal, highScalar, highReal, rate, rateReal,
    rfl⟩ := accepted
  rcases below with ⟨rfl, below⟩ | ⟨_, _⟩
  · obtain ⟨l, lowNumber, lowPositive⟩ := Value.lt_of_precedes rfl lowPositive
    obtain ⟨u, highNumber, apart⟩ := Value.lt_of_precedes lowNumber apart
    have highBelow := Value.lt_real_of_precedes highNumber highBelow
    obtain ⟨a, rateNumber, positive⟩ := Value.lt_of_precedes rfl positive
    have below := Value.lt_real_of_precedes rateNumber below
    rw [Value.toScalar_number lowNumber, Except.ok.injEq] at lowReal
    rw [Value.toScalar_number highNumber, Except.ok.injEq] at highReal
    rw [Value.toScalar_number rateNumber, Except.ok.injEq] at rateReal
    subst lowReal highReal rateReal
    -- Each is compared with numbers on both sides, so that none is infinite or undefined.
    obtain ⟨a, rate, positive, below⟩ := Exact.finite_of_between positive below
    obtain ⟨u, high, -, highBelow⟩ :=
      Exact.finite_of_between (Exact.lt_trans lowPositive apart) highBelow
    rw [high] at apart
    obtain ⟨l, low, lowPositive, apart⟩ := Exact.finite_of_between lowPositive apart
    exact ⟨l, u, a, by rw [low, high, rate], lowPositive, apart, highBelow, positive,
      by simpa using below⟩
  · contradiction

end Hypotheses

section Average

/-- The mean over `n` independent tosses, each of which shows truth with probability `p`. -/
noncomputable def average (p : ℝ) (n : ℕ) (f : List Bool → ℝ) : ℝ :=
  ∑ tosses : Fin n → Bool, (∏ i, if tosses i then p else 1 - p) * f (List.ofFn tosses)

open Classical in
noncomputable def chance (p : ℝ) (n : ℕ) (event : List Bool → Prop) : ℝ :=
  average p n fun tosses => if event tosses then 1 else 0

variable {p : ℝ}

theorem average_zero (f : List Bool → ℝ) : average p 0 f = f [] := by
  simp [average]

theorem average_succ (n : ℕ) (f : List Bool → ℝ) :
    average p (n + 1) f =
      p * average p n (fun tosses => f (true :: tosses)) +
        (1 - p) * average p n (fun tosses => f (false :: tosses)) := by
  unfold average
  -- A sequence of tosses is its first toss and the rest of them.
  rw [← Fintype.sum_equiv (Fin.consEquiv fun _ => Bool) _ _ (fun _ => rfl),
    Fintype.sum_prod_type, Fintype.sum_bool, Finset.mul_sum, Finset.mul_sum]
  simp [Fin.consEquiv, Fin.prod_univ_succ, List.ofFn_succ, mul_assoc]

theorem average_add (k n : ℕ) (f : List Bool → ℝ) :
    average p (k + n) f = average p k fun first => average p n fun rest => f (first ++ rest) := by
  induction k generalizing f with
  | zero => simp [average_zero]
  | succ k ih =>
    rw [Nat.succ_add, average_succ, average_succ, ih, ih]
    rfl

theorem average_mono (atLeast : 0 ≤ p) (atMost : p ≤ 1) {n : ℕ} {f g : List Bool → ℝ}
    (below : ∀ tosses, tosses.length = n → f tosses ≤ g tosses) : average p n f ≤ average p n g := by
  apply Finset.sum_le_sum
  intro tosses _
  apply mul_le_mul_of_nonneg_left (below _ (List.length_ofFn))
  apply Finset.prod_nonneg
  intro i _
  split_ifs <;> linarith

theorem average_const (n : ℕ) (c : ℝ) : average p n (fun _ => c) = c := by
  induction n with
  | zero => exact average_zero _
  | succ n ih =>
    rw [average_succ, ih]
    ring

theorem chance_add (k n : ℕ) (event : List Bool → Prop) :
    chance p (k + n) event =
      average p k fun first => chance p n fun rest => event (first ++ rest) :=
  average_add k n _

theorem chance_le_one (atLeast : 0 ≤ p) (atMost : p ≤ 1) (n : ℕ) (event : List Bool → Prop) :
    chance p n event ≤ 1 := by
  refine (average_mono atLeast atMost fun tosses _ => ?_).trans_eq (average_const n 1)
  split_ifs <;> norm_num

theorem chance_le_zero (atLeast : 0 ≤ p) (atMost : p ≤ 1) {n : ℕ} {event : List Bool → Prop}
    (never : ∀ tosses, tosses.length = n → ¬ event tosses) : chance p n event ≤ 0 := by
  refine (average_mono atLeast atMost fun tosses size => ?_).trans_eq (average_const n 0)
  simp [never tosses size]

end Average

/-- Samples of weight one, read off a list. -/
noncomputable def nextToss : ExceptT (Fault Exact) (StateM (List Bool)) (Sample Exact) :=
  ExceptT.mk fun
    | [] => (.error .finished, [])
    | toss :: rest => (.ok ⟨.bool toss, 1⟩, rest)

def onTosses {α : Type} (t : ExceptT (Fault Exact) (StateM (List Bool)) α) (tosses : List Bool) :
    Outcome Exact α × List Bool :=
  t.run.run tosses

section OnTosses

variable {α β : Type}

theorem onTosses_bind (t : ExceptT (Fault Exact) (StateM (List Bool)) α)
    (f : α → ExceptT (Fault Exact) (StateM (List Bool)) β) (tosses : List Bool) :
    onTosses (t >>= f) tosses = match onTosses t tosses with
      | (.ok a, rest) => onTosses (f a) rest
      | (.error fault, rest) => (.error fault, rest) := by
  unfold onTosses
  rw [run_bind_stateM]
  rcases t.run.run tosses with ⟨_ | a, rest⟩ <;> rfl

theorem onTosses_pure (a : α) (tosses : List Bool) : onTosses (pure a) tosses = (.ok a, tosses) :=
  rfl

theorem onTosses_mk (r : Outcome Exact α) (tosses : List Bool) :
    onTosses (ExceptT.mk (pure r)) tosses = (r, tosses) := rfl

end OnTosses

/-- What `n` tosses are evidence of, `t` of which showed truth. -/
def tally (n t : ℝ) : Evidence Exact :=
  ⟨.finite n, .finite t⟩

theorem tally_add (n t : ℝ) (toss : Bool) :
    (tally n t).add toss 1 = tally (n + 1) (t + if toss then 1 else 0) := by
  cases toss <;> simp [tally, Evidence.add, Exact.one_eq]

theorem gather_tosses (first rest : List Bool) (n t : ℝ) :
    onTosses (gather nextToss first.length (tally n t)) (first ++ rest) =
      (.ok (tally (n + first.length) (t + first.count true)), rest) := by
  induction first generalizing n t with
  | nil => simp [gather, onTosses_pure]
  | cons toss first ih =>
    have step : onTosses (gather nextToss (first.length + 1) (tally n t)) (toss :: (first ++ rest)) =
        onTosses (gather nextToss first.length ((tally n t).add toss 1)) (first ++ rest) := rfl
    rw [List.length_cons, List.cons_append, step, tally_add, ih]
    cases toss <;> simp <;> ring_nf

theorem gather_short {k : ℕ} {tosses : List Bool} (short : tosses.length < k)
    (e : Evidence Exact) : onTosses (gather nextToss k e) tosses = (.error .finished, []) := by
  induction k generalizing tosses e with
  | zero => simp at short
  | succ k ih =>
    cases tosses with
    | nil => rfl
    | cons toss rest => exact ih (by simpa using short) (e.add toss 1)

def Concludes (c : Conclusion) (r : Outcome Exact Verdict) : Prop :=
  ∃ v, r = .ok v ∧ v.conclusion = c

theorem concludes_ok {c d : Conclusion} {taken : Int} :
    Concludes c (.ok ⟨d, taken⟩) ↔ d = c := by
  simp [Concludes]

section Checkpoints

variable {h : Hypotheses Exact} {step : ℕ} {budget taken : Int} {n t : ℝ}

theorem conclude_beyond (beyond : budget < taken) (tosses : List Bool) :
    onTosses (conclude h nextToss step budget taken (tally n t)) tosses =
      (.ok ⟨.undecided, taken⟩, tosses) := by
  rw [conclude, dif_pos beyond, onTosses_pure]

theorem conclude_decided (within : ¬ budget < taken) {c : Conclusion}
    (decided : h.conclude? (tally n t) = some c) (tosses : List Bool) :
    onTosses (conclude h nextToss step budget taken (tally n t)) tosses =
      (.ok ⟨c, taken⟩, tosses) := by
  rw [conclude, dif_neg within, decided]
  rfl

theorem conclude_open (within : ¬ budget < taken) (undecided : h.conclude? (tally n t) = none)
    (positive : 0 < step) {first : List Bool} (full : first.length = step) (rest : List Bool) :
    onTosses (conclude h nextToss step budget taken (tally n t)) (first ++ rest) =
      onTosses (conclude h nextToss step budget (taken + step)
        (tally (n + step) (t + first.count true))) rest := by
  rw [conclude, dif_neg within, undecided]
  simp only [dif_neg positive.ne', onTosses_bind]
  rw [← full, gather_tosses]

theorem conclude_short (within : ¬ budget < taken) (undecided : h.conclude? (tally n t) = none)
    (positive : 0 < step) {tosses : List Bool} (short : tosses.length < step) :
    onTosses (conclude h nextToss step budget taken (tally n t)) tosses = (.error .finished, []) := by
  rw [conclude, dif_neg within, undecided]
  simp only [dif_neg positive.ne', onTosses_bind]
  rw [gather_short short]

theorem conclude_total (positive : 0 < step) {tosses : List Bool}
    (enough : budget + step ≤ taken + tosses.length) :
    ∃ v, (onTosses (conclude h nextToss step budget taken (tally n t)) tosses).1 = .ok v := by
  -- Every step that is taken brings the number of samples nearer to the end of the budget.
  induction size : tosses.length using Nat.strong_induction_on generalizing tosses taken n t with
  | _ length ih =>
    by_cases beyond : budget < taken
    · exact ⟨_, congrArg Prod.fst (conclude_beyond beyond tosses)⟩
    · cases undecided : h.conclude? (tally n t) with
      | some c => exact ⟨_, congrArg Prod.fst (conclude_decided beyond undecided tosses)⟩
      | none =>
        have full : (tosses.take step).length = step := by
          rw [List.length_take]
          omega
        rw [← List.take_append_drop step tosses, conclude_open beyond undecided positive full]
        refine ih (tosses.drop step).length ?_ ?_ rfl
        · rw [List.length_drop]
          omega
        · rw [List.length_drop]
          omega

end Checkpoints

/-- A measure of the evidence that tosses do not raise on average, and that is at least one where
a checkpoint reaches the conclusion. -/
structure Potential (h : Hypotheses Exact) (p : ℝ) (c : Conclusion) (φ : ℝ → ℝ → ℝ) : Prop where
  nonneg : ∀ n t, 0 ≤ φ n t
  fair : ∀ n t, p * φ (n + 1) (t + 1) + (1 - p) * φ (n + 1) t ≤ φ n t
  reached : ∀ n t, h.conclude? (tally n t) = some c → 1 ≤ φ n t

namespace Potential

variable {h : Hypotheses Exact} {p : ℝ} {c : Conclusion} {φ : ℝ → ℝ → ℝ}

theorem average_le (potential : Potential h p c φ) (atLeast : 0 ≤ p) (atMost : p ≤ 1) (k : ℕ)
    (n t : ℝ) : average p k (fun tosses => φ (n + k) (t + tosses.count true)) ≤ φ n t := by
  -- The tosses after the first raise nothing on average, and neither does the first.
  induction k generalizing n t with
  | zero => simp [average_zero]
  | succ k ih =>
    rw [average_succ]
    have shown : average p k (fun tosses => φ (n + (k + 1 : ℕ)) (t + (true :: tosses).count true)) ≤
        φ (n + 1) (t + 1) := by
      refine le_of_eq_of_le ?_ (ih (n + 1) (t + 1))
      congr 1 with tosses
      rw [List.count_cons_self]
      push_cast
      ring_nf
    have hidden : average p k (fun tosses => φ (n + (k + 1 : ℕ)) (t + (false :: tosses).count true)) ≤
        φ (n + 1) t := by
      refine le_of_eq_of_le ?_ (ih (n + 1) t)
      congr 1 with tosses
      rw [List.count_cons_of_ne (by decide)]
      push_cast
      ring_nf
    calc _ ≤ p * φ (n + 1) (t + 1) + (1 - p) * φ (n + 1) t :=
          add_le_add (mul_le_mul_of_nonneg_left shown atLeast)
            (mul_le_mul_of_nonneg_left hidden (sub_nonneg.mpr atMost))
      _ ≤ φ n t := potential.fair n t

theorem chance_never_le (potential : Potential h p c φ) (atLeast : 0 ≤ p) (atMost : p ≤ 1) {length : ℕ}
    {event : List Bool → Prop} (never : ∀ tosses, tosses.length = length → ¬ event tosses) (n t : ℝ) :
    chance p length event ≤ φ n t :=
  (chance_le_zero atLeast atMost never).trans (potential.nonneg n t)

/-- Tosses raise nothing on average, so that it is enough to look on from where they have led. -/
theorem chance_append_le (potential : Potential h p c φ) (atLeast : 0 ≤ p) (atMost : p ≤ 1) {k rest : ℕ}
    {event : List Bool → Prop} {n t : ℝ}
    (each : ∀ first, first.length = k →
      chance p rest (fun tosses => event (first ++ tosses)) ≤ φ (n + k) (t + first.count true)) :
    chance p (k + rest) event ≤ φ n t := by
  rw [chance_add]
  exact (average_mono atLeast atMost each).trans (potential.average_le atLeast atMost k n t)

theorem chance_conclude_le (potential : Potential h p c φ) (atLeast : 0 ≤ p) (atMost : p ≤ 1)
    (decisive : c ≠ .undecided) {step : ℕ} (positive : 0 < step) (budget taken : Int) (length : ℕ)
    (n t : ℝ) :
    chance p length (fun tosses =>
      Concludes c (onTosses (conclude h nextToss step budget taken (tally n t)) tosses).1) ≤
      φ n t := by
  -- The bound is kept from checkpoint to checkpoint: one that reaches the conclusion has a potential
  -- of at least one, and one that reaches nothing passes the mean of the next on.
  induction length using Nat.strong_induction_on generalizing taken n t with
  | _ length ih =>
    by_cases beyond : budget < taken
    · apply potential.chance_never_le atLeast atMost
      intro tosses _
      rw [conclude_beyond beyond, concludes_ok]
      exact decisive.symm
    · cases decided : h.conclude? (tally n t) with
      | some d =>
        by_cases same : d = c
        · exact (chance_le_one atLeast atMost length _).trans
            (potential.reached n t (same ▸ decided))
        · apply potential.chance_never_le atLeast atMost
          intro tosses _
          rwa [conclude_decided beyond decided, concludes_ok]
      | none =>
        by_cases short : length < step
        · apply potential.chance_never_le atLeast atMost
          intro tosses size
          rw [conclude_short beyond decided positive (size ▸ short)]
          simp [Concludes]
        · obtain ⟨rest, rfl⟩ := Nat.exists_eq_add_of_le (not_lt.mp short)
          refine potential.chance_append_le atLeast atMost fun first full => ?_
          simp only [conclude_open beyond decided positive full]
          exact ih rest (by omega) _ _ _

end Potential

section Test

variable {h : Hypotheses Exact} {plan : TestPlan Exact} {patience initial step : ℕ}
  {bound : Option Int}

theorem test_enough (initialCount : countOf plan.initialSamples = .ok initial)
    (stepCount : countOf plan.step = .ok step)
    (known : budgetOf patience plan.maxSamples = .ok bound) {first : List Bool}
    (full : first.length = initial) (rest : List Bool) :
    onTosses (sequentialTest h plan patience nextToss) (first ++ rest) = match bound with
      | none => (.ok ⟨.undecided, initial⟩, rest)
      | some budget => onTosses
        (conclude h nextToss step budget initial (tally initial (first.count true))) rest := by
  have zero : (Evidence.zero : Evidence Exact) = tally 0 0 := rfl
  simp only [sequentialTest, onTosses_bind, initialCount, known, stepCount, onTosses_mk,
    Int.toNat_natCast, zero]
  rw [← full, gather_tosses]
  cases bound <;> simp [onTosses_pure]

theorem test_short (initialCount : countOf plan.initialSamples = .ok initial)
    {tosses : List Bool} (short : tosses.length < initial) :
    onTosses (sequentialTest h plan patience nextToss) tosses = (.error .finished, []) := by
  simp only [sequentialTest, onTosses_bind, initialCount, onTosses_mk, Int.toNat_natCast]
  rw [gather_short short]

/-- More samples than these are never drawn. -/
def mostSamples (initial step : ℕ) : Option Int → ℕ
  | none => initial
  | some budget => max initial (budget + step).toNat

theorem test_total (initialCount : countOf plan.initialSamples = .ok initial)
    (stepCount : countOf plan.step = .ok step) (positive : 0 < step)
    (known : budgetOf patience plan.maxSamples = .ok bound) {tosses : List Bool}
    (enough : mostSamples initial step bound ≤ tosses.length) :
    ∃ v, (onTosses (sequentialTest h plan patience nextToss) tosses).1 = .ok v := by
  have started : initial ≤ tosses.length := by
    cases bound with
    | none => exact enough
    | some budget => exact (le_max_left _ _).trans enough
  have full : (tosses.take initial).length = initial := by
    rw [List.length_take]
    omega
  rw [← List.take_append_drop initial tosses, test_enough initialCount stepCount known full]
  cases bound with
  | none => exact ⟨_, rfl⟩
  | some budget =>
    apply conclude_total positive
    have within := (le_max_right _ _).trans enough
    rw [List.length_drop]
    omega

theorem Potential.chance_test_le {p : ℝ} {c : Conclusion} {φ : ℝ → ℝ → ℝ}
    (potential : Potential h p c φ) (atLeast : 0 ≤ p) (atMost : p ≤ 1)
    (decisive : c ≠ .undecided) (initialCount : countOf plan.initialSamples = .ok initial)
    (stepCount : countOf plan.step = .ok step) (positive : 0 < step)
    (known : budgetOf patience plan.maxSamples = .ok bound) (length : ℕ) :
    chance p length (fun tosses =>
      Concludes c (onTosses (sequentialTest h plan patience nextToss) tosses).1) ≤ φ 0 0 := by
  -- A test that does not come to its first look concludes nothing.
  by_cases short : length < initial
  · apply potential.chance_never_le atLeast atMost
    intro tosses size
    rw [test_short initialCount (size ▸ short)]
    simp [Concludes]
  · obtain ⟨rest, rfl⟩ := Nat.exists_eq_add_of_le (not_lt.mp short)
    refine potential.chance_append_le atLeast atMost fun first full => ?_
    simp only [test_enough initialCount stepCount known full, zero_add]
    cases bound with
    | none =>
      refine potential.chance_never_le atLeast atMost (fun tosses _ => ?_) _ _
      rw [concludes_ok]
      exact decisive.symm
    | some budget =>
      exact potential.chance_conclude_le atLeast atMost decisive positive budget initial rest _ _

end Test

section Likelihood

/-- How much more likely probability `a` makes `n` tosses, `t` of which showed truth, than `b`. -/
noncomputable def drift (a b n t : ℝ) : ℝ :=
  t * Real.log (a / b) + (n - t) * Real.log ((1 - a) / (1 - b))

theorem drift_neg (a b n t : ℝ) : drift b a n t = -drift a b n t := by
  rw [drift, drift, ← inv_div a b, ← inv_div (1 - a), Real.log_inv, Real.log_inv]
  ring

variable {a b : ℝ}

theorem exp_drift_shown (aPositive : 0 < a) (bPositive : 0 < b) (n t : ℝ) :
    Real.exp (drift a b (n + 1) (t + 1)) = a / b * Real.exp (drift a b n t) := by
  rw [show drift a b (n + 1) (t + 1) = Real.log (a / b) + drift a b n t by unfold drift; ring,
    Real.exp_add, Real.exp_log (div_pos aPositive bPositive)]

theorem exp_drift_hidden (aBelow : a < 1) (bBelow : b < 1) (n t : ℝ) :
    Real.exp (drift a b (n + 1) t) = (1 - a) / (1 - b) * Real.exp (drift a b n t) := by
  rw [show drift a b (n + 1) t = Real.log ((1 - a) / (1 - b)) + drift a b n t by unfold drift; ring,
    Real.exp_add, Real.exp_log (div_pos (sub_pos.mpr aBelow) (sub_pos.mpr bBelow))]

theorem mean_ratio_le {p : ℝ} (positive : 0 < b) (below : b < 1) (side : (p - b) * (a - b) ≤ 0) :
    p * (a / b) + (1 - p) * ((1 - a) / (1 - b)) ≤ 1 := by
  have hidden : 0 < 1 - b := sub_pos.mpr below
  -- The mean is one for a coin of probability `b`, and changes with the distance from `b`.
  have gap : p * (a / b) + (1 - p) * ((1 - a) / (1 - b)) - 1 =
      (p - b) * (a - b) / (b * (1 - b)) := by
    field_simp
    ring
  have atMost := div_nonpos_of_nonpos_of_nonneg side (mul_pos positive hidden).le
  linarith

theorem potential_of_drift {h : Hypotheses Exact} {p rate : ℝ} {c : Conclusion}
    (aPositive : 0 < a) (aBelow : a < 1) (bPositive : 0 < b) (bBelow : b < 1)
    (side : (p - b) * (a - b) ≤ 0) (positive : 0 < rate) (below : rate < 1)
    (reached : ∀ n t, h.conclude? (tally n t) = some c →
      Real.log ((1 - rate) / rate) ≤ drift a b n t) :
    Potential h p c fun n t => rate / (1 - rate) * Real.exp (drift a b n t) where
  nonneg n t := mul_nonneg (div_pos positive (sub_pos.mpr below)).le (Real.exp_nonneg _)
  fair n t := by
    have scale : 0 ≤ rate / (1 - rate) * Real.exp (drift a b n t) :=
      mul_nonneg (div_pos positive (sub_pos.mpr below)).le (Real.exp_nonneg _)
    rw [exp_drift_shown aPositive bPositive, exp_drift_hidden aBelow bBelow]
    calc _ = (p * (a / b) + (1 - p) * ((1 - a) / (1 - b))) *
          (rate / (1 - rate) * Real.exp (drift a b n t)) := by ring
      _ ≤ _ := mul_le_of_le_one_left scale (mean_ratio_le bPositive bBelow side)
  reached n t decided := by
    have odds : 0 < (1 - rate) / rate := div_pos (sub_pos.mpr below) positive
    rw [← inv_div (1 - rate), ← div_eq_inv_mul, one_le_div odds, ← Real.log_le_iff_le_exp odds]
    exact reached n t decided

end Likelihood

section Thresholds

variable {low high rate n t : ℝ}

theorem logLikelihood_tally (lowPositive : 0 < low) (apart : low < high) (highBelow : high < 1) :
    (tally n t).logLikelihood ⟨.finite low, .finite high, .finite rate⟩ =
      .finite (drift high low n t) := by
  have hidden : 0 < 1 - low := by linarith
  have ratioTrue : Hypotheses.ratioTrue ⟨.finite low, .finite high, .finite rate⟩ =
      Exact.finite (Real.log (high / low)) := by
    rw [Hypotheses.ratioTrue, Exact.finite_div lowPositive.ne',
      Exact.finite_log (div_pos (lowPositive.trans apart) lowPositive)]
  have ratioFalse : Hypotheses.ratioFalse ⟨.finite low, .finite high, .finite rate⟩ =
      Exact.finite (Real.log ((1 - high) / (1 - low))) := by
    simp only [Hypotheses.ratioFalse, Exact.one_eq, Exact.finite_sub]
    rw [Exact.finite_div hidden.ne', Exact.finite_log (div_pos (by linarith) hidden)]
  simp [Evidence.logLikelihood, ratioTrue, ratioFalse, tally, drift]

theorem upperThreshold_finite (positive : 0 < rate) (below : rate < 1) :
    Hypotheses.upperThreshold ⟨.finite low, .finite high, .finite rate⟩ =
      Exact.finite (Real.log ((1 - rate) / rate)) := by
  simp only [Hypotheses.upperThreshold, Exact.one_eq, Exact.finite_sub]
  rw [Exact.finite_div positive.ne', Exact.finite_log (div_pos (sub_pos.mpr below) positive)]

theorem lowerThreshold_finite (positive : 0 < rate) (below : rate < 1) :
    Hypotheses.lowerThreshold ⟨.finite low, .finite high, .finite rate⟩ =
      Exact.finite (-Real.log ((1 - rate) / rate)) := by
  simp only [Hypotheses.lowerThreshold, Exact.one_eq, Exact.finite_sub]
  rw [Exact.finite_div (sub_pos.mpr below).ne',
    Exact.finite_log (div_pos positive (sub_pos.mpr below)), ← Real.log_inv, inv_div]

theorem conclude_tally (lowPositive : 0 < low) (apart : low < high) (highBelow : high < 1)
    (positive : 0 < rate) (below : rate < 1) :
    Hypotheses.conclude? ⟨.finite low, .finite high, .finite rate⟩ (tally n t) =
      if Real.log ((1 - rate) / rate) ≤ drift high low n t then some .high
      else if drift high low n t ≤ -Real.log ((1 - rate) / rate) then some .low
      else none := by
  simp only [Hypotheses.conclude?, logLikelihood_tally lowPositive apart highBelow,
    upperThreshold_finite positive below, lowerThreshold_finite positive below, Exact.finite_le]

theorem drift_of_high (lowPositive : 0 < low) (apart : low < high) (highBelow : high < 1)
    (positive : 0 < rate) (below : rate < 1)
    (decided : Hypotheses.conclude? ⟨.finite low, .finite high, .finite rate⟩ (tally n t) =
      some .high) : Real.log ((1 - rate) / rate) ≤ drift high low n t := by
  rw [conclude_tally lowPositive apart highBelow positive below] at decided
  split_ifs at decided with above
  · exact above
  · cases decided

theorem drift_of_low (lowPositive : 0 < low) (apart : low < high) (highBelow : high < 1)
    (positive : 0 < rate) (below : rate < 1)
    (decided : Hypotheses.conclude? ⟨.finite low, .finite high, .finite rate⟩ (tally n t) =
      some .low) : Real.log ((1 - rate) / rate) ≤ drift low high n t := by
  rw [conclude_tally lowPositive apart highBelow positive below] at decided
  split_ifs at decided with above under
  · cases decided
  · rw [drift_neg high low]
    linarith

end Thresholds

def Accepts (r : Outcome Exact Verdict) : Prop :=
  ∃ v, r = .ok v ∧ v.decision = true

theorem accepts_iff_concludes (r : Outcome Exact Verdict) : Accepts r ↔ Concludes .high r := by
  simp [Accepts, Concludes, Verdict.decision]

/-- Where the coin shows truth at most as often as the lower hypothesis says, the test seldom says
yes; where at least as often as the upper one says, it seldom finds for the lower. -/
theorem sequentialTest_error_rate {probability epsilon alpha : Value Exact} {h : Hypotheses Exact}
    (accepted : Hypotheses.around probability epsilon alpha = .ok h) {plan : TestPlan Exact}
    {patience initial step : ℕ} {bound : Option Int}
    (initialCount : countOf plan.initialSamples = .ok initial)
    (stepCount : countOf plan.step = .ok step) (positive : 0 < step)
    (known : budgetOf patience plan.maxSamples = .ok bound) {length : ℕ}
    (enough : mostSamples initial step bound ≤ length) {p : ℝ} (atLeast : 0 ≤ p) (atMost : p ≤ 1) :
    (∀ tosses : List Bool, tosses.length = length →
      ∃ v, (onTosses (sequentialTest h plan patience nextToss) tosses).1 = .ok v) ∧
    (p ≤ h.low.toReal →
      chance p length (fun tosses =>
        Accepts (onTosses (sequentialTest h plan patience nextToss) tosses).1) ≤
        h.alpha.toReal / (1 - h.alpha.toReal)) ∧
    (h.high.toReal ≤ p →
      chance p length (fun tosses =>
        Concludes .low (onTosses (sequentialTest h plan patience nextToss) tosses).1) ≤
        h.alpha.toReal / (1 - h.alpha.toReal)) := by
  obtain ⟨low, high, rate, rfl, lowPositive, apart, highBelow, ratePositive, rateBelow⟩ :=
    Hypotheses.around_ok accepted
  -- The drift from `low` to `high` is what the test weighs, and its opposite for the other answer.
  have rateBelow : rate < 1 := by linarith
  have lowBelow : low < 1 := apart.trans highBelow
  have highPositive : 0 < high := lowPositive.trans apart
  simp only [Exact.toReal_finite]
  refine ⟨fun tosses size => ?_, fun side => ?_, fun side => ?_⟩
  · exact test_total initialCount stepCount positive known (size ▸ enough)
  · have potential := potential_of_drift (p := p) highPositive highBelow lowPositive lowBelow
      (mul_nonpos_of_nonpos_of_nonneg (by linarith) (by linarith)) ratePositive rateBelow
      fun n t => drift_of_high (n := n) (t := t) lowPositive apart highBelow ratePositive rateBelow
    simp only [accepts_iff_concludes]
    refine (potential.chance_test_le atLeast atMost (by decide) initialCount stepCount positive
      known length).trans_eq ?_
    simp [drift]
  · have potential := potential_of_drift (p := p) lowPositive lowBelow highPositive highBelow
      (mul_nonpos_of_nonneg_of_nonpos (by linarith) (by linarith)) ratePositive rateBelow
      fun n t => drift_of_low (n := n) (t := t) lowPositive apart highBelow ratePositive rateBelow
    refine (potential.chance_test_le atLeast atMost (by decide) initialCount stepCount positive
      known length).trans_eq ?_
    simp [drift]

theorem around_half :
    Hypotheses.around (.real (.finite (1 / 2))) (.real (.finite (1 / 4))) (.real (.finite (1 / 4))) =
      .ok (⟨.finite (1 / 4), .finite (3 / 4), .finite (1 / 4)⟩ : Hypotheses Exact) := by
  have positive : (0 : Exact) < .finite (1 / 4) := by
    rw [Exact.zero_eq, Exact.finite_lt]
    norm_num
  have below : Exact.finite (3 / 4) < 1 := by
    rw [Exact.one_eq, Exact.finite_lt]
    norm_num
  norm_num [Hypotheses.around, Value.sub, Value.add, Value.numeric, Value.number?, Number.sub,
    Number.add, Number.combine, Number.toScalar, Value.ofNumber, Value.within, Value.lt,
    Value.precedes, numberPrecedes, Bound.holds, Number.lt, Value.toScalar, Value.toNumber,
    positive, below, bind, Except.bind, pure, Except.pure]

theorem sequentialTest_error_rate_half :
    ∃ h : Hypotheses Exact,
      Hypotheses.around (.real (.finite (1 / 2))) (.real (.finite (1 / 4)))
        (.real (.finite (1 / 4))) = .ok h ∧
      chance (1 / 4) 12 (fun tosses => Accepts (onTosses
        (sequentialTest h ⟨.int 10, .int 3, .int 2⟩ 0 nextToss) tosses).1) ≤ 1 / 3 ∧
      chance (3 / 4) 12 (fun tosses => Concludes .low (onTosses
        (sequentialTest h ⟨.int 10, .int 3, .int 2⟩ 0 nextToss) tosses).1) ≤ 1 / 3 := by
  refine ⟨_, around_half, ?_, ?_⟩
  · have yes := (@sequentialTest_error_rate _ _ _ _ around_half ⟨.int 10, .int 3, .int 2⟩ 0 3 2 (some 10)
      rfl rfl (by decide) rfl 12 (by decide) (1 / 4) (by norm_num) (by norm_num)).2.1 (by simp)
    norm_num at yes ⊢
    exact yes
  · have lower := (@sequentialTest_error_rate _ _ _ _ around_half ⟨.int 10, .int 3, .int 2⟩ 0 3 2 (some 10)
      rfl rfl (by decide) rfl 12 (by decide) (3 / 4) (by norm_num) (by norm_num)).2.2 (by simp)
    norm_num at lower ⊢
    exact lower

end ChanceGraph
