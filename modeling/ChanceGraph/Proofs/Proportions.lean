import ChanceGraph.Proofs.Coarsening
import ChanceGraph.Proofs.ErrorRate
import ChanceGraph.Proofs.Scaling
import ChanceGraph.Sampler

/-!
What weights mean to those that read weighted samples.  To posteriors and to weighted means only their
proportions matter; a sequential test counts them, so that a factor in all weights is another error rate.
-/

set_option autoImplicit false

namespace ChanceGraph

section Posterior

variable {k : Grouping Exact} {items items' : List (Weighted Exact)}

/-- Also where nothing has weight a factor changes nothing. -/
theorem posterior_proportional {c : ℝ} (above : 0 < c) (rescaled : Rescaled c items items')
    (masses : ∀ w ∈ items, w.weight.toExact.IsMass) : posterior k items' = posterior k items := by
  by_cases positive : 0 < mass items fun _ => 1
  · exact posterior_rescaled above rescaled masses positive
  · -- Without weight both are refused, and for the same reason.
    rcases eq_or_ne items [] with rfl | some
    · rw [List.forall₂_nil_left_iff.mp rescaled]
    · have some' : items' ≠ [] := by
        rintro rfl
        exact some (List.forall₂_nil_right_iff.mp rescaled)
      have weightless : ¬ 0 < mass items' fun _ => 1 := by
        rwa [rescaled.total, mul_pos_iff_of_pos_left above]
      rcases keyed_or_fault k items with keys | ⟨fault, fails⟩
      · rw [posterior_grouped masses keys some, if_neg positive,
          posterior_grouped (rescaled.masses above.le masses) (rescaled.keyed keys) some', if_neg weightless]
      · rw [posterior_fault fails, posterior_fault ((rescaled.formed k).trans fails)]

theorem rescaled_weighted (c : ℝ) {samples : List (Sample Exact)}
    (masses : ∀ s ∈ samples, s.weight.IsMass) :
    Rescaled c (samples.map Sample.weighted) ((samples.map (Sample.scaled c)).map Sample.weighted) := by
  induction samples with
  | nil => exact .nil
  | cons s rest ih =>
    have ⟨first, later⟩ := List.forall_mem_cons.mp masses
    obtain ⟨x, weight, -⟩ := first
    refine .cons ⟨rfl, ?_⟩ (ih later)
    simp [Sample.weighted, Sample.scaled, weight]

end Posterior

section Taking

variable {n : Type → Type} [Monad n] [LawfulMonad n] {α β : Type}

theorem takeOnto_map (f : α → β) (next : n α) (k : Nat) (taken : List α) :
    takeOnto (f <$> next) k (taken.map f) = List.map f <$> takeOnto next k taken := by
  induction k generalizing taken with
  | zero => simp [takeOnto]
  | succ k ih =>
    simp only [takeOnto, bind_map_left, map_bind]
    exact bind_congr fun a => ih (a :: taken)

theorem takeSamples_map (f : α → β) (next : n α) (k : Nat) :
    takeSamples (f <$> next) k = List.map f <$> takeSamples next k :=
  takeOnto_map f next k []

end Taking

section Streams

noncomputable def Evidence.scaled (c : ℝ) (e : Evidence Exact) : Evidence Exact :=
  ⟨e.total.scale c, e.holding.scale c⟩

variable {m : Type → Type} [Monad m] [LawfulMonad m] {c : ℝ} (above : 0 < c) {h h' : Hypotheses Exact}

include above

theorem Evidence.add_scaled (e : Evidence Exact) (holds : Bool) (weight : Exact) :
    (e.scaled c).add holds (weight.scale c) = (e.add holds weight).scaled c := by
  cases holds <;> simp [Evidence.add, Evidence.scaled, Exact.scale_add above]

theorem Evidence.logLikelihood_scaled (e : Evidence Exact) :
    (e.scaled c).logLikelihood h = (e.logLikelihood h).scale c := by
  simp only [Evidence.logLikelihood, Evidence.scaled, ← Exact.scale_sub above, ← Exact.scale_mul,
    ← Exact.scale_add above]

theorem gather_scaled (next : ExceptT (Fault Exact) m (Sample Exact)) (k : Nat) (e : Evidence Exact) :
    gather (Sample.scaled c <$> next) k (e.scaled c) = Evidence.scaled c <$> gather next k e := by
  induction k generalizing e with
  | zero => simp [gather]
  | succ k ih =>
    simp only [gather, bind_map_left, map_bind]
    refine bind_congr fun s => bind_congr fun holds => ?_
    rw [← ih, ← Evidence.add_scaled above]
    rfl

/-- Two tests that agree on proportional evidence agree at every checkpoint of proportional streams. -/
theorem conclude_scaled (alike : ∀ e, h.conclude? (e.scaled c) = h'.conclude? e)
    (next : ExceptT (Fault Exact) m (Sample Exact)) (step : Nat) (budget taken : Int) (e : Evidence Exact) :
    conclude h (Sample.scaled c <$> next) step budget taken (e.scaled c) =
      conclude h' next step budget taken e := by
  -- The tests take the same steps, each of which leaves less of the budget.
  induction size : (budget + 1 - taken).toNat using Nat.strong_induction_on generalizing taken e with
  | _ length ih =>
    rw [conclude, conclude, alike]
    split
    · rfl
    · split
      · rfl
      · split
        · rfl
        · rw [gather_scaled above, bind_map_left]
          exact bind_congr fun e => ih _ (by omega) _ _ rfl

end Streams

namespace Hypotheses

/-- An error rate whose logarithmic odds are those of the first, divided. -/
noncomputable def tempered (c : ℝ) (h : Hypotheses Exact) : Hypotheses Exact :=
  { h with alpha := .finite (1 / (1 + ((1 - h.alpha.toReal) / h.alpha.toReal) ^ (1 / c))) }

theorem around_rate {probability epsilon alpha : Value Exact} {h : Hypotheses Exact} {rate : ℝ}
    (accepted : around probability epsilon alpha = .ok h) (positive : 0 < rate) (below : rate < 1 / 2) :
    around probability epsilon (.real (.finite rate)) = .ok { h with alpha := .finite rate } := by
  have above : (0 : Exact) < .finite rate := positive
  have within : (Value.real (.finite rate)).within 0 .strict (Scalar.ratio 1 2) .strict =
      (.ok true : Outcome Exact Bool) := by
    have half : Exact.finite rate < Scalar.ratio 1 2 := by simpa using below
    simp only [Value.within, Value.precedes, numberPrecedes, Value.number?, Bound.holds, Number.lt, above,
      half, decide_true, Outcome.ok_bind, if_true]
  simp only [around, Outcome.bind_ok, Outcome.ite_ok, Outcome.pure_ok, Outcome.throw_ne_ok, false_and,
    and_false, exists_false, or_false, exists_eq_left', Bool.false_eq_true] at accepted
  obtain ⟨low, lowMade, high, highMade, _, lowPositive, rfl, _, apart, rfl, _, highBelow, rfl, _, -, -,
    lowScalar, lowReal, highScalar, highReal, _, -, rfl⟩ := accepted
  have real : (Value.real (.finite rate)).toScalar = (.ok (.finite rate) : Outcome Exact Exact) := rfl
  simp only [around, lowMade, highMade, lowPositive, apart, highBelow, within, lowReal, highReal, real,
    Outcome.ok_bind, if_true]
  rfl

variable {low high rate c : ℝ}

theorem tempered_rate (above : 0 < c) (positive : 0 < rate) (below : rate < 1 / 2) :
    ∃ rate' : ℝ, tempered c ⟨.finite low, .finite high, .finite rate⟩ =
        ⟨.finite low, .finite high, .finite rate'⟩ ∧ 0 < rate' ∧ rate' < 1 / 2 ∧
      Real.log ((1 - rate) / rate) = c * Real.log ((1 - rate') / rate') := by
  have odds : 1 < (1 - rate) / rate := by
    rw [one_lt_div positive]
    linarith
  have odds' : 1 < ((1 - rate) / rate) ^ (1 / c) := Real.one_lt_rpow odds (one_div_pos.mpr above)
  refine ⟨_, rfl, ?_, ?_, ?_⟩
  · rw [Exact.toReal_finite]
    positivity
  · rw [Exact.toReal_finite, div_lt_div_iff₀ (by linarith) two_pos]
    linarith
  · rw [Exact.toReal_finite, one_sub_div (by linarith), add_sub_cancel_left,
      div_div_div_cancel_right₀ (by linarith), div_one, Real.log_rpow (by linarith)]
    field_simp

variable {probability epsilon alpha : Value Exact} {h : Hypotheses Exact}

theorem around_tempered (above : 0 < c) (accepted : around probability epsilon alpha = .ok h) :
    around probability epsilon (.real (h.tempered c).alpha) = .ok (h.tempered c) := by
  obtain ⟨low, high, rate, rfl, -, -, -, positive, below⟩ := around_ok accepted
  obtain ⟨rate', same, positive', below', -⟩ := @tempered_rate low high rate c above positive below
  rw [same]
  exact around_rate accepted positive' below'

theorem thresholds_tempered (above : 0 < c) (accepted : around probability epsilon alpha = .ok h) :
    h.upperThreshold = (h.tempered c).upperThreshold.scale c ∧
      h.lowerThreshold = (h.tempered c).lowerThreshold.scale c := by
  obtain ⟨low, high, rate, rfl, -, -, -, positive, below⟩ := around_ok accepted
  obtain ⟨rate', same, positive', below', odds⟩ := @tempered_rate low high rate c above positive below
  rw [same, upperThreshold_finite positive (by linarith), lowerThreshold_finite positive (by linarith),
    upperThreshold_finite positive' (by linarith), lowerThreshold_finite positive' (by linarith), odds]
  simp

theorem conclude?_tempered (above : 0 < c) (accepted : around probability epsilon alpha = .ok h)
    (e : Evidence Exact) : h.conclude? (e.scaled c) = (h.tempered c).conclude? e := by
  obtain ⟨upper, lower⟩ := thresholds_tempered above accepted
  have likelihood : e.logLikelihood (h.tempered c) = e.logLikelihood h := rfl
  simp only [conclude?, Evidence.logLikelihood_scaled above, upper, lower, Exact.scale_le above, likelihood]

theorem sequentialTest_tempered {m : Type → Type} [Monad m] [LawfulMonad m] (above : 0 < c)
    (accepted : around probability epsilon alpha = .ok h) (plan : TestPlan Exact) (patience : Nat)
    (next : ExceptT (Fault Exact) m (Sample Exact)) :
    sequentialTest h plan patience (Sample.scaled c <$> next) =
      sequentialTest (h.tempered c) plan patience next := by
  have zero : Evidence.scaled c .zero = .zero := by
    simp [Evidence.zero, Evidence.scaled]
  have refused (fault : Fault Exact) :
      Sample.scaled c <$> (throw fault : ExceptT (Fault Exact) m (Sample Exact)) = throw fault :=
    ExceptT.ext (by simp)
  have concludes (next : ExceptT (Fault Exact) m (Sample Exact)) :=
    conclude_scaled above (conclude?_tempered above accepted) next
  unfold sequentialTest
  refine bind_congr fun start => ?_
  have gathered := gather_scaled above next start.toNat .zero
  rw [zero] at gathered
  rw [gathered, bind_map_left]
  refine bind_congr fun e => bind_congr fun bound => ?_
  cases bound with
  | none => rfl
  | some budget =>
    cases known : countOf plan.step with
    | ok step => exact concludes next step.toNat budget start e
    | error fault =>
      -- A test without a step draws nothing more from either stream.
      have ended := concludes (throw fault) 1 budget start e
      rwa [refused] at ended

end Hypotheses

/-- A factor in all weights changes no posterior, no weighted mean and no interval.  The sequential test reads
weights as counts: with the factor it is the test at the thresholds divided by it, that is at another error
rate, which is accepted as well. -/
theorem proportional_weights {m : Type → Type} [Monad m] [LawfulMonad m] {c : ℝ} (above : 0 < c)
    (next : ExceptT (Fault Exact) m (Sample Exact)) {probability epsilon alpha : Value Exact}
    {h : Hypotheses Exact} (accepted : Hypotheses.around probability epsilon alpha = .ok h) :
    (∀ (k : Grouping Exact) (items items' : List (Weighted Exact)),
      (∀ w ∈ items, w.weight.toExact.IsMass) → Rescaled c items items' →
        posterior k items' = posterior k items) ∧
    (∀ n, takeSamples (Sample.scaled c <$> next) n = List.map (Sample.scaled c) <$> takeSamples next n) ∧
    (∀ samples : List (Sample Exact),
      ((∀ s ∈ samples, s.weight.IsMass) → ∀ k,
        posterior k ((samples.map (Sample.scaled c)).map Sample.weighted) =
          posterior k (samples.map Sample.weighted)) ∧
      weightedMean (samples.map (Sample.scaled c)) = weightedMean samples ∧
      meanInterval (samples.map (Sample.scaled c)) = meanInterval samples) ∧
    Hypotheses.around probability epsilon (.real (h.tempered c).alpha) = .ok (h.tempered c) ∧
    h.upperThreshold = (h.tempered c).upperThreshold.scale c ∧
    h.lowerThreshold = (h.tempered c).lowerThreshold.scale c ∧
    ∀ plan patience, sequentialTest h plan patience (Sample.scaled c <$> next) =
      sequentialTest (h.tempered c) plan patience next := by
  obtain ⟨upper, lower⟩ := Hypotheses.thresholds_tempered above accepted
  refine ⟨fun k items items' masses rescaled => posterior_proportional above rescaled masses,
    takeSamples_map (Sample.scaled c) next, fun samples => ⟨fun masses k => ?_,
    weightedMean_scaled above samples, meanInterval_scaled above samples⟩,
    Hypotheses.around_tempered above accepted, upper, lower, fun plan patience =>
    Hypotheses.sequentialTest_tempered above accepted plan patience next⟩
  refine posterior_proportional above (rescaled_weighted c masses) fun w listed => ?_
  obtain ⟨s, member, rfl⟩ := List.mem_map.mp listed
  exact masses s member

section Halves

noncomputable def halves : Hypotheses Exact :=
  ⟨.finite (1 / 4), .finite (3 / 4), .finite (1 / 4)⟩

/-- Truth alone, each sample with weight one. -/
noncomputable def trueSamples : ExceptT (Fault Exact) Id (Sample Exact) :=
  pure ⟨.bool true, 1⟩

theorem proportional_weights_halved :
    posterior .ok [⟨.int 1, .int 3⟩, ⟨.int 2, .int 1⟩] =
      posterior .ok ([⟨.int 1, .int 6⟩, ⟨.int 2, .int 2⟩] : List (Weighted Exact)) ∧
    weightedMean ([⟨.int 1, .finite 3⟩, ⟨.int 2, .finite 1⟩] : List (Sample Exact)) =
      weightedMean [⟨.int 1, .finite 6⟩, ⟨.int 2, .finite 2⟩] ∧
    sequentialTest halves ⟨.int 1, .int 1, .int 1⟩ 0 (Sample.scaled (1 / 2) <$> trueSamples) =
      sequentialTest ⟨.finite (1 / 4), .finite (3 / 4), .finite (1 / 10)⟩ ⟨.int 1, .int 1, .int 1⟩ 0
        trueSamples := by
  obtain ⟨table, -, estimates, -, -, -, test⟩ :=
    proportional_weights (c := 1 / 2) (by norm_num) trueSamples around_half
  refine ⟨table .ok [⟨.int 1, .int 6⟩, ⟨.int 2, .int 2⟩] _ ?_ (.cons ?_ (.cons ?_ .nil)), ?_, ?_⟩
  · simp [Exact.IsMass]
  · norm_num
  · norm_num
  · have means := (estimates [⟨.int 1, .finite 6⟩, ⟨.int 2, .finite 2⟩]).2.1
    norm_num [Sample.scaled] at means
    exact means
  · have tempered : halves.tempered (1 / 2) = ⟨.finite (1 / 4), .finite (3 / 4), .finite (1 / 10)⟩ := by
      norm_num [Hypotheses.tempered, halves]
    rw [← tempered]
    exact test _ _

theorem conclude?_halves (w : ℝ) : halves.conclude? (tally w w) =
    if 1 ≤ w then some .high else if w ≤ -1 then some .low else none := by
  have positive : 0 < Real.log 3 := Real.log_pos (by norm_num)
  have likelihood : drift (3 / 4) (1 / 4) w w = w * Real.log 3 := by
    norm_num [drift]
  have odds : Real.log ((1 - 1 / 4) / (1 / 4)) = Real.log 3 := by
    norm_num
  have upper : Real.log 3 ≤ w * Real.log 3 ↔ 1 ≤ w := le_mul_iff_one_le_left positive
  have lower : w * Real.log 3 ≤ -Real.log 3 ↔ w ≤ -1 := by
    rw [← neg_one_mul, mul_le_mul_iff_left₀ positive]
  rw [halves, conclude_tally (by norm_num) (by norm_num) (by norm_num) (by norm_num) (by norm_num),
    likelihood, odds]
  simp only [upper, lower]

/-- Half the weight is half the evidence: where one sample decides, it no longer does. -/
theorem trueSamples_halved :
    Hypotheses.around (.real (.finite (1 / 2))) (.real (.finite (1 / 4))) (.real (.finite (1 / 4))) =
      .ok halves ∧
    sequentialTest halves ⟨.int 1, .int 1, .int 1⟩ 0 trueSamples = pure ⟨.high, 1⟩ ∧
    sequentialTest halves ⟨.int 1, .int 1, .int 1⟩ 0 (Sample.scaled (1 / 2) <$> trueSamples) =
      pure ⟨.undecided, 2⟩ := by
  have first : (Evidence.zero : Evidence Exact).add true 1 = tally 1 1 := by
    simp [Evidence.zero, Evidence.add, tally, Exact.zero_eq, Exact.one_eq]
  have half : (Evidence.zero : Evidence Exact).add true (Exact.scale (1 / 2) 1) = tally (1 / 2) (1 / 2) := by
    simp [Evidence.zero, Evidence.add, tally, Exact.zero_eq, Exact.one_eq]
  refine ⟨around_half, ?_, ?_⟩
  · change conclude halves trueSamples 1 1 1 (Evidence.zero.add true 1) = _
    rw [first, conclude, dif_neg (by norm_num), conclude?_halves, if_pos le_rfl]
  · change conclude halves _ 1 1 1 (Evidence.zero.add true (Exact.scale (1 / 2) 1)) = _
    rw [half, conclude, dif_neg (by norm_num), conclude?_halves, if_neg (by norm_num), if_neg (by norm_num)]
    change conclude halves _ 1 1 2 _ = _
    rw [conclude, dif_pos (by norm_num)]

end Halves

end ChanceGraph
