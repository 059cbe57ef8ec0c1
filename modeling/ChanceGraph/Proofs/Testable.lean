import ChanceGraph.Session.Answers
import ChanceGraph.Proofs.Hypotheses
import ChanceGraph.Scalar.Binary64

/-!
Which configurations can run the sequential test.  A configuration has the half-width of the indifference
region checked by itself; a test has it checked again, with the probability in the middle of the region.
-/

set_option autoImplicit false

namespace ChanceGraph

open Session (TestRequest)

namespace ConfigField

variable {v : Value Exact}

theorem check_alpha : check .alpha v = .ok () ↔ ∃ r, v.IsReal r ∧ 0 < r ∧ r < 1 / 2 := by
  rw [← Value.within_reals]
  have half : (Scalar.ratio 1 2 : Exact) = .finite (1 / 2) := by simp
  simp [check, half, Exact.zero_eq, Outcome.bind_ok, pure, Except.pure]

theorem check_epsilon : check .epsilon v = .ok () ↔ ∃ w, v.IsReal w ∧ 0 < w ∧ w < 1 := by
  rw [← Value.within_reals]
  simp [check, Value.inOpenUnit, Exact.zero_eq, Exact.one_eq, Outcome.bind_ok, pure, Except.pure]

end ConfigField

namespace Config

variable {settings : List (Setting Exact)} {c : Config Exact}

theorem make_ok :
    make settings = .ok c ↔
      settings.foldlM apply standard = .ok c ∧ ∀ f, ConfigField.check f (c.get f) = .ok () := by
  have all (f : ConfigField) : f ∈ ConfigField.all := by cases f <;> decide
  simp only [make, Outcome.bind_ok, Outcome.pure_ok]
  constructor
  · rintro ⟨_, made, _, checked, rfl⟩
    exact ⟨made, fun f => Outcome.forM_ok.mp checked f (all f)⟩
  · rintro ⟨made, checked⟩
    exact ⟨c, made, (), Outcome.forM_ok.mpr fun f _ => checked f, rfl⟩

theorem make_epsilon {w : ℝ} (positive : 0 < w) (below : w < 1) :
    make [.field "epsilon" (Value.real (Exact.finite w))] =
      .ok { standard with epsilon := .real (.finite w) } := by
  refine make_ok.mpr ⟨rfl, fun f => ?_⟩
  cases f with
  | alpha =>
    have rate : (standard : Config Exact).alpha.IsReal (5 / 100) := by simp [standard, Value.IsReal, Value.number?]
    exact ConfigField.check_alpha.mpr ⟨5 / 100, rate, by norm_num, by norm_num⟩
  | epsilon => exact ConfigField.check_epsilon.mpr ⟨w, Value.isReal_real w, positive, below⟩
  | _ => rfl

end Config

namespace Hypotheses

variable {probability epsilon alpha : Value Exact} {x w : ℝ}

theorem around_refused (center : probability.IsReal x) (width : epsilon.IsReal w)
    (outside : ¬ (w < x ∧ x < 1 - w)) :
    ∃ low high, around probability epsilon alpha = .error (.hypotheses low high) ∧ low.IsReal (x - w) ∧
      high.IsReal (x + w) := by
  obtain ⟨low, high, low', high', made⟩ := around_centered center width alpha
  have refused : ¬ (0 < x - w ∧ x - w < x + w ∧ x + w < 1) := fun ⟨above, _, under⟩ =>
    outside ⟨by linarith, by linarith⟩
  exact ⟨low, high, made.trans (if_neg refused), low', high'⟩

end Hypotheses

/-- A test for which the configuration fills in all but the probability. -/
def Session.TestRequest.ofProbability {S : Type} (p : Value S) : TestRequest S :=
  { probability := p }

namespace Config

/-- What the checks of a configuration let through as half-width of the indifference region and as rate of
errors. -/
structure Bounds (c : Config Exact) (w r : ℝ) : Prop where
  width : c.epsilon.IsReal w
  widthPositive : 0 < w
  widthBelow : w < 1
  rate : c.alpha.IsReal r
  ratePositive : 0 < r
  rateBelow : r < 1 / 2

variable {settings : List (Setting Exact)} {c : Config Exact} {w r : ℝ}

theorem bounds_of_make (valid : make settings = .ok c) : ∃ w r, c.Bounds w r := by
  have checked := (make_ok.mp valid).2
  obtain ⟨r, rate, ratePositive, rateBelow⟩ := ConfigField.check_alpha.mp (checked .alpha)
  obtain ⟨w, width, widthPositive, widthBelow⟩ := ConfigField.check_epsilon.mp (checked .epsilon)
  exact ⟨w, r, width, widthPositive, widthBelow, rate, ratePositive, rateBelow⟩

theorem Bounds.accepts_iff (bounds : c.Bounds w r) (p : Value Exact) (h : Hypotheses Exact) :
    (TestRequest.ofProbability p).hypotheses c = .ok h ↔
      ∃ x : ℝ, p.IsReal x ∧ w < x ∧ x < 1 - w ∧ h = ⟨.finite (x - w), .finite (x + w), .finite r⟩ := by
  have widthPositive := bounds.widthPositive
  change Hypotheses.around p c.epsilon c.alpha = .ok h ↔ _
  constructor
  · intro made
    obtain ⟨x, w', r', center, width, rate, low, -, high, -, -, rfl⟩ := Hypotheses.around_iff.mp made
    obtain rfl := bounds.width.unique width
    obtain rfl := bounds.rate.unique rate
    exact ⟨x, center, by linarith, by linarith, rfl⟩
  · rintro ⟨x, center, low, high, rfl⟩
    exact Hypotheses.around_reals center bounds.width bounds.rate (by linarith) (by linarith) (by linarith)
      bounds.ratePositive bounds.rateBelow

theorem Bounds.half_iff (bounds : c.Bounds w r) {p : Value Exact} (half : p.IsReal (1 / 2)) :
    (∃ h, (TestRequest.ofProbability p).hypotheses c = .ok h) ↔ w < 1 / 2 := by
  simp only [bounds.accepts_iff]
  constructor
  · rintro ⟨_, x, _, low, high, -⟩
    linarith
  · intro narrow
    exact ⟨_, 1 / 2, half, narrow, by linarith, rfl⟩

/-- No more than a region that is narrower than one fits between zero and one. -/
theorem Bounds.testable_iff (bounds : c.Bounds w r) :
    (∃ p h, (TestRequest.ofProbability p).hypotheses c = .ok h) ↔ w < 1 / 2 := by
  constructor
  · rintro ⟨p, h, made⟩
    obtain ⟨x, -, low, high, -⟩ := (bounds.accepts_iff p h).mp made
    linarith
  · intro narrow
    exact ⟨_, (bounds.half_iff (Value.isReal_real (1 / 2))).mpr narrow⟩

end Config

/-- A configuration that is made accepts a test of just those probabilities that are farther than its
half-width from zero and from one, and refuses others for the hypotheses only.  There are some that it
accepts exactly where the half-width is less than a half, and then a half is one of them; no rate of errors
that was let through keeps a test from running.  This is said of real numbers: among doubles, one half is also
refused with a half-width that rounding loses on both sides of it, or with one that rounding takes up to one. -/
theorem testable_iff_narrow {settings : List (Config.Setting Exact)} {c : Config Exact}
    (valid : Config.make settings = .ok c) :
    ∃ w r : ℝ, c.Bounds w r ∧
      (∀ p h, (TestRequest.ofProbability p).hypotheses c = .ok h ↔
        ∃ x : ℝ, p.IsReal x ∧ w < x ∧ x < 1 - w ∧ h = ⟨.finite (x - w), .finite (x + w), .finite r⟩) ∧
      (∀ p x, p.IsReal x → ¬ (w < x ∧ x < 1 - w) → ∃ low high : Value Exact,
        (TestRequest.ofProbability p).hypotheses c = .error (.hypotheses low high) ∧ low.IsReal (x - w) ∧
          high.IsReal (x + w)) ∧
      ((∃ p h, (TestRequest.ofProbability p).hypotheses c = .ok h) ↔ w < 1 / 2) ∧
      ∀ p, p.IsReal (1 / 2) → ((∃ h, (TestRequest.ofProbability p).hypotheses c = .ok h) ↔ w < 1 / 2) := by
  obtain ⟨w, r, bounds⟩ := Config.bounds_of_make valid
  exact ⟨w, r, bounds, bounds.accepts_iff,
    fun p x center outside => Hypotheses.around_refused center bounds.width outside,
    bounds.testable_iff, fun p half => bounds.half_iff half⟩

theorem testable_iff_narrow_wide : ∃ c : Config Exact,
    Config.make [.field "epsilon" (Value.real (.finite (2 / 5)))] = .ok c ∧
      ∃ h, (TestRequest.ofProbability (.real (.finite (1 / 2)))).hypotheses c = .ok h := by
  have valid := Config.make_epsilon (w := 2 / 5) (by norm_num) (by norm_num)
  obtain ⟨w, r, bounds, -, -, -, half⟩ := testable_iff_narrow valid
  obtain rfl := bounds.width.unique (Value.isReal_real (2 / 5))
  exact ⟨_, valid, (half _ (Value.isReal_real (1 / 2))).mpr (by norm_num)⟩

/-- A half-width of three fifths passes the checks, but no probability can be tested with it. -/
theorem untestable_width : ∃ c : Config Exact,
    Config.make [.field "epsilon" (Value.real (.finite (3 / 5)))] = .ok c ∧
      (∀ p h, (TestRequest.ofProbability p).hypotheses c ≠ .ok h) ∧
      ∃ low high, (TestRequest.ofProbability (.real (.finite (1 / 2)))).hypotheses c =
        .error (.hypotheses low high) := by
  have valid := Config.make_epsilon (w := 3 / 5) (by norm_num) (by norm_num)
  obtain ⟨w, r, bounds⟩ := Config.bounds_of_make valid
  obtain rfl := bounds.width.unique (Value.isReal_real (3 / 5))
  refine ⟨_, valid, fun p h made => ?_, ?_⟩
  · have narrow := bounds.testable_iff.mp ⟨p, h, made⟩
    norm_num at narrow
  · obtain ⟨low, high, refused, -, -⟩ := Hypotheses.around_refused (Value.isReal_real (1 / 2)) bounds.width
      (by norm_num)
    exact ⟨low, high, refused⟩

-- Widths of less than a half with which doubles refuse one half, since a sum or a difference is rounded.
example : ∀ w ∈ [1e-20, 0.49999999999999994], ∃ c : Config Float,
    Config.make [.field "epsilon" (.real w)] = .ok c ∧
      ∃ low high, (TestRequest.ofProbability (.real 0.5)).hypotheses c = .error (.hypotheses low high) := by
  simp only [List.forall_mem_cons, List.not_mem_nil, false_imp_iff, implies_true, and_true]
  exact ⟨⟨_, rfl, _, _, rfl⟩, ⟨_, rfl, _, _, rfl⟩⟩

end ChanceGraph
