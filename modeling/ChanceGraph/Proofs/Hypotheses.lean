import ChanceGraph.Proofs.ErrorRate
import ChanceGraph.Proofs.Inference

/-!
Which hypotheses a sequential test accepts, and their opposites.
-/

set_option autoImplicit false

namespace ChanceGraph

theorem Exact.isFinite_sub (x y : Exact) : (x - y).IsFinite ↔ x.IsFinite ∧ y.IsFinite := by
  have sign : (-y).IsFinite ↔ y.IsFinite := by
    cases y with
    | finite y => exact ⟨fun _ => ⟨y, rfl⟩, fun _ => ⟨-y, rfl⟩⟩
    | infinite positive => exact ⟨nofun, nofun⟩
    | undefined => exact ⟨nofun, nofun⟩
  rw [← sign]
  exact Exact.isFinite_add x (-y)

theorem Number.sub_exact (a b : Number Exact) :
    ∃ x, a.sub b = .ok x ∧ x.toExact = a.toExact - b.toExact := by
  cases a with
  | int m =>
    cases b with
    | int n => exact ⟨_, rfl, by simp⟩
    | real y => exact ⟨.real (.finite m - y), by simp [sub, combine, pure, Except.pure], by simp⟩
  | real x => exact ⟨.real (x - b.toExact), by cases b <;> simp [sub, combine, pure, Except.pure], by simp⟩

namespace Value

variable {a b v : Value Exact} {x y low high : ℝ}

theorem IsReal.precedes (first : a.IsReal x) (second : b.IsReal y) :
    a.precedes .strict b = .ok (decide (x < y)) := by
  obtain ⟨m, number, value⟩ := first.number
  obtain ⟨n, number', value'⟩ := second.number
  rw [precedes_number number, numberPrecedes, number']
  have less : m.lt n = decide (x < y) := by
    rw [Bool.eq_iff_iff, Number.lt_exact, value, value', Exact.finite_lt, decide_eq_true_iff]
  simp [Bound.holds, less]

theorem IsReal.within (real : v.IsReal x) :
    v.within (.finite low) .strict (.finite high) .strict = .ok (decide (low < x ∧ x < high)) := by
  rw [Value.within, (isReal_real low).precedes real, Outcome.ok_bind, real.precedes (isReal_real high)]
  by_cases above : low < x <;> simp [above, pure, Except.pure]

theorem within_reals :
    v.within (.finite low) .strict (.finite high) .strict = .ok true ↔ ∃ x, v.IsReal x ∧ low < x ∧ x < high := by
  constructor
  · intro inside
    simp only [Value.within, Outcome.bind_ok, Outcome.ite_ok, Outcome.pure_ok] at inside
    obtain ⟨_, compared, ⟨rfl, below⟩ | ⟨_, absurd⟩⟩ := inside
    · obtain ⟨n, number, above⟩ := lt_of_precedes rfl compared
      obtain ⟨x, value, above, below⟩ := Exact.finite_of_between above (lt_real_of_precedes number below)
      exact ⟨x, by simp [IsReal, number, value], above, below⟩
    · cases absurd
  · rintro ⟨x, real, above, below⟩
    rw [real.within, decide_eq_true ⟨above, below⟩]

theorem IsReal.sub (first : a.IsReal x) (second : b.IsReal y) : ∃ s, a.sub b = .ok s ∧ s.IsReal (x - y) := by
  obtain ⟨m, number, value⟩ := first.number
  obtain ⟨n, number', value'⟩ := second.number
  obtain ⟨k, difference, value''⟩ := Number.sub_exact m n
  refine ⟨.ofNumber k, by simp [Value.sub, numeric, number, number', difference, pure, Except.pure], ?_⟩
  simp [IsReal, value, value', value'']

theorem numeric_number {onNumbers : Number Exact → Number Exact → Outcome Exact (Number Exact)}
    {otherwise : Value Exact → Value Exact → Outcome Exact (Value Exact)} {k : Number Exact}
    (others : ∀ v, otherwise a b = .ok v → v.number? = none)
    (result : numeric onNumbers otherwise a b = .ok v) (number : v.number? = some k) :
    ∃ m n, a.number? = some m ∧ b.number? = some n ∧ onNumbers m n = .ok k := by
  unfold numeric at result
  split at result
  · obtain ⟨k', made, built⟩ := Outcome.bind_ok.mp result
    obtain rfl := Outcome.pure_ok.mp built
    rw [number?_ofNumber, Option.some.injEq] at number
    subst number
    exact ⟨_, _, ‹_›, ‹_›, made⟩
  · rw [others v result] at number
    cases number

theorem entrywise_number {f : Exact → Exact → Exact} (result : entrywise f a b = .ok v) :
    v.number? = none := by
  unfold entrywise at result
  split at result
  · split_ifs at result
    · cases result
      rfl
    · split at result <;> cases result <;> rfl
  · obtain ⟨y, -, made⟩ := Outcome.bind_ok.mp result
    cases made
    rfl
  · obtain ⟨x, -, made⟩ := Outcome.bind_ok.mp result
    cases made
    rfl
  · cases result

theorem isReal_of_sub (difference : a.sub b = .ok v) {z : ℝ} (real : v.IsReal z) :
    ∃ x y, a.IsReal x ∧ b.IsReal y ∧ z = x - y := by
  obtain ⟨k, number, value⟩ := real.number
  obtain ⟨m, n, first, second, made⟩ := numeric_number (fun _ => entrywise_number) difference number
  obtain ⟨k', made', value'⟩ := Number.sub_exact m n
  cases made.symm.trans made'
  rw [value] at value'
  obtain ⟨⟨x, hx⟩, y, hy⟩ := (Exact.isFinite_sub _ _).mp ⟨z, value'.symm⟩
  rw [hx, hy, Exact.finite_sub, Exact.finite.injEq] at value'
  exact ⟨x, y, by simp [IsReal, first, hx], by simp [IsReal, second, hy], value'⟩

end Value

namespace Hypotheses

variable {probability epsilon alpha : Value Exact} {h : Hypotheses Exact}

/-- Around a real there are two hypotheses, which are what is checked first. -/
theorem around_centered {x w : ℝ} (center : probability.IsReal x) (width : epsilon.IsReal w)
    (alpha : Value Exact) :
    ∃ low high : Value Exact, low.IsReal (x - w) ∧ high.IsReal (x + w) ∧ around probability epsilon alpha =
      if 0 < x - w ∧ x - w < x + w ∧ x + w < 1 then do
        unless ← alpha.within 0 .strict (Scalar.ratio 1 2) .strict do throw (.errorRate alpha)
        return ⟨.finite (x - w), .finite (x + w), ← alpha.toScalar⟩
      else .error (.hypotheses low high) := by
  obtain ⟨low, lowMade, low'⟩ := center.sub width
  obtain ⟨high, highMade, high'⟩ := center.add width
  refine ⟨low, high, low', high', ?_⟩
  have zero : (Value.real 0 : Value Exact).IsReal 0 := Value.isReal_real 0
  have one : (Value.real 1 : Value Exact).IsReal 1 := Value.isReal_real 1
  simp only [around, lowMade, highMade, Value.lt, zero.precedes low', low'.precedes high', high'.precedes one,
    low'.toScalar, high'.toScalar, Outcome.ok_bind]
  by_cases inside : 0 < x - w ∧ x - w < x + w ∧ x + w < 1
  · simp only [inside.1, inside.2.1, inside.2.2, decide_true, if_true, and_self]
  · rw [if_neg inside]
    -- The comparisons are made in turn, and none after one that fails.
    by_cases lowPositive : 0 < x - w
    · by_cases apart : x - w < x + w
      · have highAbove : ¬ x + w < 1 := fun highBelow => inside ⟨lowPositive, apart, highBelow⟩
        rw [decide_eq_true lowPositive, decide_eq_true apart, decide_eq_false highAbove]
        rfl
      · rw [decide_eq_true lowPositive, decide_eq_false apart]
        rfl
    · rw [decide_eq_false lowPositive]
      rfl

theorem around_reals {x w r : ℝ} (center : probability.IsReal x) (width : epsilon.IsReal w)
    (rate : alpha.IsReal r) (lowPositive : 0 < x - w) (apart : x - w < x + w) (highBelow : x + w < 1)
    (positive : 0 < r) (below : r < 1 / 2) :
    around probability epsilon alpha = .ok ⟨.finite (x - w), .finite (x + w), .finite r⟩ := by
  obtain ⟨low, high, -, -, made⟩ := around_centered center width alpha
  have half : (Scalar.ratio 1 2 : Exact) = .finite (1 / 2) := by simp
  rw [made, if_pos ⟨lowPositive, apart, highBelow⟩, half, Exact.zero_eq,
    Value.within_reals.mpr ⟨r, rate, positive, below⟩, rate.toScalar]
  rfl

/-- The hypotheses around a probability are accepted where it and the other two are real numbers, and all that
the test divides by or takes logarithms of is positive. -/
theorem around_iff : around probability epsilon alpha = .ok h ↔
    ∃ x w r : ℝ, probability.IsReal x ∧ epsilon.IsReal w ∧ alpha.IsReal r ∧
      0 < x - w ∧ x - w < x + w ∧ x + w < 1 ∧ 0 < r ∧ r < 1 / 2 ∧
      h = ⟨.finite (x - w), .finite (x + w), .finite r⟩ := by
  constructor
  · intro accepted
    obtain ⟨low, high, rate, rfl, lowPositive, apart, highBelow, positive, below⟩ := around_ok accepted
    simp only [around, Value.within, Outcome.bind_ok, Outcome.ite_ok, Outcome.pure_ok, Outcome.throw_ne_ok,
      false_and, and_false, exists_false, or_false, exists_eq_left', Bool.false_eq_true] at accepted
    obtain ⟨l, lowMade, u, highMade', _, lowCompared, rfl, _, apart', rfl, _, -, rfl, _,
      ⟨_, rateCompared, within⟩, rfl, l', lowReal, u', highReal, r', rateReal, same⟩ := accepted
    cases same
    obtain rfl := by simpa using within.imp And.left And.right
    have real {v : Value Exact} {x : ℝ} {y : Exact} (compared : (Value.real y).precedes .strict v = .ok true)
        (scalar : v.toScalar = .ok (.finite x)) : v.IsReal x := by
      obtain ⟨n, number, -⟩ := Value.lt_of_precedes rfl compared
      rw [Value.toScalar_number number, Except.ok.injEq] at scalar
      rw [Value.IsReal, number, Option.map_some, scalar]
    -- The bounds were accepted as reals, and a difference is a real only of two reals.
    obtain ⟨x, w, center, width, rfl⟩ := Value.isReal_of_sub lowMade (real lowCompared lowReal)
    obtain ⟨sum, highMade, sumReal⟩ := center.add width
    cases highMade'.symm.trans highMade
    cases highReal.symm.trans sumReal.toScalar
    exact ⟨x, w, rate, center, width, real rateCompared rateReal, lowPositive, apart, highBelow, positive,
      below, rfl⟩
  · rintro ⟨x, w, r, center, width, rate, lowPositive, apart, highBelow, positive, below, rfl⟩
    exact around_reals center width rate lowPositive apart highBelow positive below

/-- The hypotheses about falsehood in place of truth. -/
def opposite {S : Type} [Scalar S] (h : Hypotheses S) : Hypotheses S :=
  ⟨1 - h.high, 1 - h.low, h.alpha⟩

theorem around_opposite (accepted : around probability epsilon alpha = .ok h) :
    ∃ q, (Value.int 1).sub probability = .ok q ∧ around q epsilon alpha = .ok h.opposite := by
  obtain ⟨x, w, r, center, width, rate, lowPositive, apart, highBelow, positive, below, rfl⟩ :=
    around_iff.mp accepted
  obtain ⟨q, made, center'⟩ := (Value.isReal_int 1).sub center
  rw [Int.cast_one] at center'
  refine ⟨q, made, around_iff.mpr ⟨1 - x, w, r, center', width, rate, by linarith, by linarith, by linarith,
    positive, below, ?_⟩⟩
  simp only [opposite, Exact.one_eq, Exact.finite_sub, Hypotheses.mk.injEq, Exact.finite.injEq, and_true]
  constructor <;> ring

end Hypotheses

def Conclusion.opposite : Conclusion → Conclusion
  | .high => .low
  | .low => .high
  | .undecided => .undecided

def Verdict.opposite (v : Verdict) : Verdict :=
  { v with conclusion := v.conclusion.opposite }

theorem drift_opposite (low high n t : ℝ) : drift (1 - low) (1 - high) n (n - t) = -drift high low n t := by
  have holding := Real.log_inv (high / low)
  have failing := Real.log_inv ((1 - high) / (1 - low))
  rw [inv_div] at holding failing
  rw [drift, drift, sub_sub_cancel, sub_sub_cancel, sub_sub_cancel, holding, failing]
  ring

/-- What supports a hypothesis supports as much its opposite once what was true is false. -/
theorem conclude?_opposite {probability epsilon alpha : Value Exact} {h : Hypotheses Exact}
    (accepted : Hypotheses.around probability epsilon alpha = .ok h) (n t : ℝ) :
    h.opposite.conclude? (tally n (n - t)) = (h.conclude? (tally n t)).map Conclusion.opposite := by
  obtain ⟨low, high, rate, rfl, lowPositive, apart, highBelow, positive, below⟩ :=
    Hypotheses.around_ok accepted
  have mirrored : (⟨.finite low, .finite high, .finite rate⟩ : Hypotheses Exact).opposite =
      ⟨.finite (1 - high), .finite (1 - low), .finite rate⟩ := by
    simp [Hypotheses.opposite, Exact.one_eq]
  have odds : 0 < Real.log ((1 - rate) / rate) := by
    refine Real.log_pos ?_
    rw [one_lt_div positive]
    linarith
  rw [mirrored, conclude_tally (by linarith) (by linarith) (by linarith) positive (by linarith),
    conclude_tally lowPositive apart highBelow positive (by linarith), drift_opposite]
  -- The thresholds are as far from zero, and no likelihood is beyond both.
  by_cases above : Real.log ((1 - rate) / rate) ≤ drift high low n t
  · rw [if_pos above, if_neg (by linarith), if_pos (by linarith)]
    rfl
  · by_cases under : drift high low n t ≤ -Real.log ((1 - rate) / rate)
    · rw [if_neg above, if_pos under, if_pos (by linarith)]
      rfl
    · rw [if_neg above, if_neg under, if_neg (by linarith), if_neg (by linarith)]
      rfl

end ChanceGraph
