import ChanceGraph.Proofs.Hypotheses
import ChanceGraph.Proofs.Interchange

/-!
Truncated geometric distributions.  Their weights are terms of a geometric series, and so is what they are
divided by, wherever the bounds are; but below zero the terms of the series are not what the geometric
distribution has there.
-/

set_option autoImplicit false

namespace ChanceGraph

section Series

variable {x : ℝ}

/-- The term of the series at an integer of either sign. -/
noncomputable def seriesTerm (x : ℝ) (n : ℤ) : ℝ :=
  x * (1 - x) ^ n

/-- How probable it is that so many failures come before the first success. -/
noncomputable def failures (x : ℝ) (n : ℤ) : ℝ :=
  if 0 ≤ n then seriesTerm x n else 0

theorem seriesTerm_pos (positive : 0 < x) (below : x < 1) (n : ℤ) : 0 < seriesTerm x n :=
  mul_pos positive (zpow_pos (sub_pos.mpr below) n)

theorem seriesTerm_eq_sub (below : x < 1) (n : ℤ) : seriesTerm x n = (1 - x) ^ n - (1 - x) ^ (n + 1) := by
  rw [zpow_add_one₀ (sub_pos.mpr below).ne', seriesTerm]
  ring

/-- All terms but the first part of the one and the last part of the other cancel. -/
theorem sum_seriesTerm (below : x < 1) {low high : ℤ} (ordered : low ≤ high) :
    ∑ k ∈ Finset.Ioc low high, seriesTerm x k = (1 - x) ^ (low + 1) - (1 - x) ^ (high + 1) := by
  induction high, ordered using Int.leInduction with
  | base => simp
  | succ high ordered ih =>
    have fresh : high + 1 ∉ Finset.Ioc low high := by simp
    rw [← Finset.insert_Ioc_right_eq_Ioc_add_one ordered, Finset.sum_insert fresh, ih, seriesTerm_eq_sub below]
    ring

theorem sum_seriesTerm_pos (positive : 0 < x) (below : x < 1) {low high : ℤ} (apart : low < high) :
    0 < ∑ k ∈ Finset.Ioc low high, seriesTerm x k :=
  Finset.sum_pos (fun k _ => seriesTerm_pos positive below k) ⟨high, Finset.right_mem_Ioc.mpr apart⟩

theorem failures_le (positive : 0 < x) (below : x < 1) (n : ℤ) : failures x n ≤ seriesTerm x n := by
  unfold failures
  split_ifs
  · exact le_rfl
  · exact (seriesTerm_pos positive below n).le

theorem failures_eq_iff (positive : 0 < x) (below : x < 1) (n : ℤ) : failures x n = seriesTerm x n ↔ 0 ≤ n := by
  unfold failures
  split_ifs with natural
  · simp [natural]
  · simp [natural, (seriesTerm_pos positive below n).ne]

/-- The series sums to what the geometric distribution has between the bounds just where it lists nothing
below zero. -/
theorem sum_failures_eq_iff (positive : 0 < x) (below : x < 1) {low high : ℤ} (apart : low < high) :
    ∑ k ∈ Finset.Ioc low high, seriesTerm x k = ∑ k ∈ Finset.Ioc low high, failures x k ↔ -1 ≤ low := by
  rw [eq_comm, Finset.sum_eq_sum_iff_of_le fun k _ => failures_le positive below k]
  simp only [failures_eq_iff positive below, Finset.mem_Ioc]
  constructor
  · intro natural
    have first := natural (low + 1) ⟨by omega, by omega⟩
    omega
  · intro bound k listed
    omega

end Series

/-- The integers above one bound and up to the other. -/
def integersUpTo (low high : ℤ) : List ℤ :=
  (List.range (high - low).toNat).map fun k => low + 1 + Int.ofNat k

theorem sum_integersUpTo (f : ℤ → ℝ) (low high : ℤ) :
    ((integersUpTo low high).map f).sum = ∑ k ∈ Finset.Ioc low high, f k := by
  rw [Int.Ioc_eq_finset_map, Finset.sum_map, integersUpTo, List.map_map]
  rfl

/-- Each integer between the bounds with its part of the series. -/
noncomputable def seriesParts (x : ℝ) (low high : ℤ) : List (Weighted Exact) :=
  (integersUpTo low high).map fun k =>
    ⟨.int k, .real (.finite (seriesTerm x k / ∑ m ∈ Finset.Ioc low high, seriesTerm x m))⟩

section Parts

variable {x : ℝ} {low high : ℤ}

theorem mass_seriesParts (h : Value Exact → ℝ) : mass (seriesParts x low high) h =
    (∑ k ∈ Finset.Ioc low high, seriesTerm x k * h (.int k)) / ∑ m ∈ Finset.Ioc low high, seriesTerm x m := by
  rw [Finset.sum_div, ← sum_integersUpTo, mass, seriesParts, List.map_map]
  simp only [Function.comp_def, Number.toExact_real, Exact.toReal_finite, div_mul_eq_mul_div]

theorem mass_seriesParts_one (positive : 0 < x) (below : x < 1) (apart : low < high) :
    (mass (seriesParts x low high) fun _ => 1) = 1 := by
  simp only [mass_seriesParts, mul_one]
  exact div_self (sum_seriesTerm_pos positive below apart).ne'

theorem countable_seriesParts (positive : 0 < x) (below : x < 1) : Countable (seriesParts x low high) := by
  intro w listed
  obtain ⟨k, -, rfl⟩ := List.mem_map.mp listed
  refine ⟨Exact.isMass_finite (div_nonneg (seriesTerm_pos positive below k).le ?_), rfl⟩
  exact Finset.sum_nonneg fun m _ => (seriesTerm_pos positive below m).le

theorem mass_seriesParts_likeness (n : ℤ) : mass (seriesParts x low high) (likeness (.int n)) =
    if n ∈ Finset.Ioc low high then seriesTerm x n / ∑ m ∈ Finset.Ioc low high, seriesTerm x m else 0 := by
  have same (k : ℤ) : likeness (.int n) (.int k) = if n = k then 1 else 0 := by
    simp only [likeness]
    refine if_congr ⟨fun alike => (Value.integer_of_alike alike rfl rfl).symm, ?_⟩ rfl rfl
    rintro rfl
    exact Value.alike_refl _
  simp only [mass_seriesParts, same, mul_ite, mul_one, mul_zero, Finset.sum_ite_eq]
  split_ifs
  · rfl
  · exact zero_div _

end Parts

namespace Distribution

variable {x : ℝ}

theorem boundedPower_finite (below : x < 1) (n : ℤ) :
    boundedPower (1 - Exact.finite x) (.finite n) = .ok (.finite ((1 - x) ^ n)) := by
  have base : 0 < 1 - x := sub_pos.mpr below
  have power : Scalar.power (Exact.finite (1 - x)) (Exact.finite n) = .finite ((1 - x) ^ n) := by
    change Exact.power _ _ = _
    simp [Exact.power, base.ne', base.not_gt, Real.rpow_intCast]
  rw [Exact.one_eq, Exact.finite_sub, boundedPower, power]
  rfl

theorem geometricCumulative_finite (below : x < 1) (n : ℤ) :
    geometricCumulative (Exact.finite x) (.int n) = .ok (.finite (1 - (1 - x) ^ (n + 1))) := by
  have exponent := (Value.isReal_int (n + 1)).toScalar
  change (do
    return 1 - (← boundedPower _ (← (Value.int (n + 1) : Value Exact).toScalar)) : Outcome Exact Exact) = _
  rw [exponent, Outcome.ok_bind, boundedPower_finite below]
  rfl

variable {p a b : Value Exact} {m n : ℤ}

/-- What the weights are divided by: how much more the closed form has at the one bound than at the other. -/
noncomputable def truncatedNorm (x : ℝ) (low high : ℤ) : Outcome Exact Exact := do
  let upTo ← geometricCumulative (Exact.finite x) (.int high)
  return upTo - (← geometricCumulative (.finite x) (.int low))

theorem truncatedNorm_eq (below : x < 1) {low high : ℤ} (ordered : low ≤ high) :
    truncatedNorm x low high = .ok (.finite (∑ k ∈ Finset.Ioc low high, seriesTerm x k)) := by
  rw [truncatedNorm, geometricCumulative_finite below, geometricCumulative_finite below,
    sum_seriesTerm below ordered]
  simp [pure, Except.pure]

theorem truncatedItem_finite (below : x < 1) {norm : ℝ} (nonzero : norm ≠ 0) (k : ℤ) :
    truncatedItem (.finite x) (.finite norm) k =
      .ok (Weighted.item ⟨.int k, .real (.finite (seriesTerm x k / norm))⟩) := by
  have exponent : scalarOfInt k = .ok (Exact.finite k) := Number.toScalar_exact (.int k)
  have divides : (Exact.finite norm == 0) = false := by simp [Exact.zero_eq, nonzero]
  rw [truncatedItem, exponent, Outcome.ok_bind, boundedPower_finite below, Outcome.ok_bind, divides]
  simp [Exact.finite_div nonzero, Weighted.item, Value.ofNumber, seriesTerm, pure, Except.pure]

theorem truncatedTable_finite (positive : 0 < x) (below : x < 1) {low high : ℤ} (ordered : low < high) :
    truncatedTable (.finite x) low high = Table.build .ok ((seriesParts x low high).map Weighted.item) := by
  have norm := truncatedNorm_eq below ordered.le
  simp only [truncatedNorm, Outcome.bind_ok, Outcome.pure_ok] at norm
  obtain ⟨upTo, cumulative, before, cumulative', norm⟩ := norm
  have between : integersBetween (.int low) (.int high) = (.ok (integersUpTo low high) : Outcome Exact _) := rfl
  have listed : (integersUpTo low high).mapM (truncatedItem (.finite x) (upTo - before)) =
      .ok ((seriesParts x low high).map Weighted.item) := by
    rw [norm, seriesParts, List.map_map]
    have nonzero := (sum_seriesTerm_pos positive below ordered).ne'
    exact Outcome.mapM_eq_map fun k _ => truncatedItem_finite below nonzero k
  simp only [truncatedTable, cumulative, cumulative', between, listed, Outcome.ok_bind]

/-- The bounds may be given in either order. -/
theorem makeTruncatedGeometric_eq (probability : p.IsReal x) (positive : 0 < x) (below : x < 1)
    (first : a.integer? = some m) (second : b.integer? = some n) (apart : m ≠ n) :
    makeTruncatedGeometric p a b = do
      let t ← truncatedTable (.finite x) (min m n) (max m n)
      return .finite (.truncatedGeometric p a b) t := by
  have inside : p.inOpenUnit = .ok true := Value.within_reals.mpr ⟨x, probability, positive, below⟩
  rw [makeTruncatedGeometric, inside, lt_integers second first, Value.gt, lt_integers first second]
  -- The comparisons find out which bound is the lower one, and from there on only the integers matter.
  rcases lt_or_gt_of_ne apart with ordered | ordered
  · simp only [Outcome.ok_bind, ordered, ordered.not_gt, decide_true, decide_false, if_true, Bool.false_eq_true,
      if_false, equal_integers first second, apart, probability.toScalar, geometricCumulative_integer first,
      geometricCumulative_integer second, integersBetween_integers first second, min_eq_left ordered.le,
      max_eq_right ordered.le, truncatedTable, bind_assoc]
  · simp only [Outcome.ok_bind, ordered, ordered.not_gt, decide_true, decide_false, if_true, Bool.false_eq_true,
      if_false, equal_integers second first, apart.symm, probability.toScalar, geometricCumulative_integer first,
      geometricCumulative_integer second, integersBetween_integers second first, min_eq_right ordered.le,
      max_eq_left ordered.le, truncatedTable, bind_assoc]

theorem log1p_finite {y : ℝ} (positive : 0 < 1 + y) :
    Scalar.log1p (Exact.finite y) = .finite (Real.log (1 + y)) := by
  simp [Scalar.log1p, Exact.one_eq, Exact.finite_log positive]

theorem boundedExp_finite (y : ℝ) : boundedExp (Exact.finite y) = .ok (.finite (Real.exp y)) := rfl

theorem geometric_density (positive : 0 < x) (below : x < 1) (n : ℤ) :
    (Distribution.geometric (Exact.finite x)).density (.int n) = .ok (.real (.finite (failures x n))) := by
  have base : 0 < 1 - x := sub_pos.mpr below
  have natural : (Value.int n : Value Exact).ge (.int 0) = .ok (decide (0 ≤ n)) := rfl
  -- The code takes logarithms: the sum of them is the logarithm of the term.
  by_cases nonnegative : 0 ≤ n
  · have logarithm : geometricLogDensity (Exact.finite x) (.int n) =
        .ok (.finite (n * Real.log (1 - x) + Real.log x)) := by
      have proper : (Exact.finite x == 1) = false := by simp [Exact.one_eq, below.ne]
      have failing : Scalar.log1p (Exact.finite (-x)) = .finite (Real.log (1 - x)) := by
        rw [log1p_finite (by linarith), sub_eq_add_neg]
      simp [geometricLogDensity, natural, nonnegative, Value.toNumber, Value.number?, Number.isInteger, proper,
        failing, Exact.finite_log positive, pure, Except.pure]
    have value : Real.exp (n * Real.log (1 - x) + Real.log x) = failures x n := by
      rw [failures, if_pos nonnegative, seriesTerm, Real.exp_add, Real.exp_log positive, mul_comm (n : ℝ),
        ← Real.rpow_def_of_pos base, Real.rpow_intCast, mul_comm]
    simp only [density, logarithm, Outcome.ok_bind, boundedExp_finite, value]
    rfl
  · have logarithm : geometricLogDensity (Exact.finite x) (.int n) = .ok Scalar.negInfinity := by
      simp [geometricLogDensity, natural, nonnegative, pure, Except.pure]
    have value : boundedExp (Scalar.negInfinity : Exact) = .ok (.finite 0) := rfl
    rw [failures, if_neg nonnegative]
    simp only [density, logarithm, Outcome.ok_bind, value]
    rfl

/-- What is listed between two bounds has its term of the series as a part of their sum. -/
theorem truncatedTable_density (positive : 0 < x) (below : x < 1) {low high : ℤ} (ordered : low < high) :
    ∃ t, truncatedTable (.finite x) low high = .ok t ∧ ∀ k : ℤ, t.density (.int k) = .ok (.finite
      (if k ∈ Finset.Ioc low high then seriesTerm x k / ∑ i ∈ Finset.Ioc low high, seriesTerm x i else 0)) := by
  have countable : Countable (seriesParts x low high) := countable_seriesParts positive below
  have whole := mass_seriesParts_one positive below ordered
  have built :=
    build_keyed (fun w listed => (countable w listed).1) (by rw [whole]; exact one_pos) countable.keyed
  refine ⟨_, (truncatedTable_finite positive below ordered).trans built, fun k => ?_⟩
  rw [Table.density_countable countable rfl, mass_seriesParts_likeness, whole, div_one]

end Distribution

/-- Between any two integers, in either order, the truncated distribution is made; its weights are terms of
the series as parts of their sum, which is the difference of the closed form at the bounds, and come to one
before they are shared out.  It is the geometric distribution, conditioned on what is between the bounds,
just where the lower bound is not below minus one: else integers below zero are listed, and take from what
the others have. -/
theorem truncated_geometric_iff {p a b : Value Exact} {x : ℝ} {m n : ℤ} (probability : p.IsReal x)
    (positive : 0 < x) (below : x < 1) (first : a.integer? = some m) (second : b.integer? = some n)
    (apart : m ≠ n) :
    let low := min m n
    let high := max m n
    ∃ t, Distribution.makeTruncatedGeometric p a b = .ok (.finite (.truncatedGeometric p a b) t) ∧
      Table.build .ok ((seriesParts x low high).map Weighted.item) = .ok t ∧
      (mass (seriesParts x low high) fun _ => 1) = 1 ∧
      Distribution.truncatedNorm x low high = .ok (.finite (∑ i ∈ Finset.Ioc low high, seriesTerm x i)) ∧
      (∀ k : ℤ, t.density (.int k) = .ok (.finite
        (if low < k ∧ k ≤ high then seriesTerm x k / ∑ i ∈ Finset.Ioc low high, seriesTerm x i else 0))) ∧
      (∀ k : ℤ, (Distribution.geometric (Exact.finite x)).density (.int k) =
        .ok (.real (.finite (failures x k)))) ∧
      ((∀ k : ℤ, t.density (.int k) = .ok (.finite
        (if low < k ∧ k ≤ high then failures x k / ∑ i ∈ Finset.Ioc low high, failures x i else 0))) ↔
          -1 ≤ low) ∧
      (Distribution.truncatedNorm x low high = .ok (.finite (∑ i ∈ Finset.Ioc low high, failures x i)) ↔
        -1 ≤ low) := by
  intro low high
  have ordered : low < high := min_lt_max.mpr apart
  have makes : Distribution.makeTruncatedGeometric p a b = do
      let t ← Distribution.truncatedTable (.finite x) low high
      return .finite (.truncatedGeometric p a b) t :=
    Distribution.makeTruncatedGeometric_eq probability positive below first second apart
  clear_value low high
  obtain ⟨t, made, density⟩ := Distribution.truncatedTable_density positive below ordered
  have norm := Distribution.truncatedNorm_eq below ordered.le
  have sums := sum_failures_eq_iff positive below ordered
  simp only [Finset.mem_Ioc] at density
  refine ⟨t, by rw [makes, made]; rfl, ?_, mass_seriesParts_one positive below ordered, norm, density,
    Distribution.geometric_density positive below, ⟨fun conditioned => ?_, fun bound k => ?_⟩, ?_⟩
  · rw [← Distribution.truncatedTable_finite positive below ordered, made]
  · -- The least integer that is listed has some part, but none of the geometric distribution if it is negative.
    by_contra far
    have listed : low < low + 1 ∧ low + 1 ≤ high := ⟨by omega, by omega⟩
    have parts := (density (low + 1)).symm.trans (conditioned (low + 1))
    have negative : ¬ 0 ≤ low + 1 := by omega
    rw [if_pos listed, if_pos listed, failures, if_neg negative, zero_div, Except.ok.injEq,
      Exact.finite.injEq] at parts
    exact (div_pos (seriesTerm_pos positive below _) (sum_seriesTerm_pos positive below ordered)).ne' parts
  · rw [density]
    have natural (i : ℤ) (listed : low < i ∧ i ≤ high) : failures x i = seriesTerm x i :=
      (failures_eq_iff positive below i).mpr (by omega)
    rw [← sums.mpr bound]
    split_ifs with listed
    · rw [natural k listed]
    · rfl
  · rw [norm, Except.ok.injEq, Exact.finite.injEq]
    exact sums

theorem truncated_geometric_iff_swapped : ∃ t : Table Exact,
    Distribution.makeTruncatedGeometric (.real (.finite (1 / 2))) (.int 3) (.int (-1)) =
      .ok (.finite (.truncatedGeometric (.real (.finite (1 / 2))) (.int 3) (.int (-1))) t) ∧
      t.density (.int 0) = .ok (.finite (8 / 15)) := by
  have sum : ∑ i ∈ Finset.Ioc (-1) 3, seriesTerm (1 / 2) i = 15 / 16 := by
    rw [sum_seriesTerm (by norm_num) (by norm_num)]
    norm_num
  obtain ⟨t, made, -, -, -, density, -⟩ := truncated_geometric_iff (a := .int 3) (b := .int (-1))
    (Value.isReal_real (1 / 2)) (by norm_num) (by norm_num) rfl rfl (by norm_num)
  refine ⟨t, made, (density 0).trans ?_⟩
  have low : min (3 : ℤ) (-1) = -1 := rfl
  have high : max (3 : ℤ) (-1) = 3 := rfl
  rw [low, high, sum, if_pos (by norm_num), seriesTerm]
  norm_num

/-- Of the integers from minus two to two, minus one has a part, and zero has less than the geometric
distribution conditioned on them gives it. -/
theorem truncated_below_zero : ∃ t : Table Exact,
    Distribution.makeTruncatedGeometric (.real (.finite (1 / 2))) (.int (-3)) (.int 2) =
      .ok (.finite (.truncatedGeometric (.real (.finite (1 / 2))) (.int (-3)) (.int 2)) t) ∧
      t.density (.int (-1)) = .ok (.finite (8 / 31)) ∧ failures (1 / 2) (-1) = 0 ∧
      t.density (.int 0) = .ok (.finite (4 / 31)) ∧
      failures (1 / 2) 0 / ∑ i ∈ Finset.Ioc (-3) 2, failures (1 / 2) i = 4 / 7 ∧
      Distribution.truncatedNorm (1 / 2) (-3) 2 = .ok (.finite (31 / 8)) ∧
      ∑ i ∈ Finset.Ioc (-3) 2, failures (1 / 2) i = 7 / 8 := by
  have half : (1 / 2 : ℝ) < 1 := by norm_num
  have sum : ∑ i ∈ Finset.Ioc (-3) 2, seriesTerm (1 / 2) i = 31 / 8 := by
    rw [sum_seriesTerm half (by norm_num)]
    norm_num
  -- The terms below zero make up most of the series.
  have listed : Finset.Ioc (-3 : ℤ) 2 = {-2, -1, 0, 1, 2} := by decide
  have rest : ∑ i ∈ Finset.Ioc (-3) 2, failures (1 / 2) i = 7 / 8 := by
    rw [listed]
    norm_num [failures, seriesTerm]
  have positive : (0 : ℝ) < 1 / 2 := by norm_num
  have ordered : (-3 : ℤ) < 2 := by norm_num
  have makes := Distribution.makeTruncatedGeometric_eq (a := .int (-3)) (b := .int 2) (Value.isReal_real (1 / 2))
    positive half rfl rfl (by norm_num)
  have norm := Distribution.truncatedNorm_eq half ordered.le
  obtain ⟨t, made, density⟩ := Distribution.truncatedTable_density positive half ordered
  rw [sum] at norm density
  refine ⟨t, ?_, (density (-1)).trans ?_, by simp [failures], (density 0).trans ?_, ?_, norm, rest⟩
  · exact makes.trans (by rw [min_eq_left ordered.le, max_eq_right ordered.le, made]; rfl)
  · rw [if_pos (by decide), seriesTerm]
    norm_num
  · rw [if_pos (by decide), seriesTerm]
    norm_num
  · rw [rest, failures, if_pos le_rfl, seriesTerm]
    norm_num

end ChanceGraph
