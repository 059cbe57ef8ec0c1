import ChanceGraph.Proofs.Grouping
import ChanceGraph.Proofs.Scaling

/-!
Means and intervals of numbers with weights: they are there as soon as two weights are positive, and move
with their values and not with the unit of their weights.
-/

set_option autoImplicit false

namespace ChanceGraph

/-- Values with their weights. -/
abbrev Readings := List (ℝ × ℝ)

namespace Readings

section Formulas

variable (data : Readings)

noncomputable def weight : ℝ :=
  (data.map (·.2)).sum

noncomputable def mean : ℝ :=
  (data.map fun d => d.1 * d.2).sum / data.weight

noncomputable def normalizer : ℝ :=
  data.weight - (data.map fun d => d.2 * d.2).sum / data.weight

noncomputable def variance : ℝ :=
  (data.map fun d => d.2 * ((d.1 - data.mean) * (d.1 - data.mean))).sum / data.normalizer

noncomputable def radius : ℝ :=
  196 / 100 * √data.variance / √data.length

/-- The values that have some weight. -/
def heavy : Set ℝ :=
  {x | ∃ d ∈ data, 0 < d.2 ∧ d.1 = x}

theorem finite_heavy : data.heavy.Finite :=
  (List.finite_toSet (data.map (·.1))).subset fun _ ⟨_, listed, _, same⟩ => same ▸ List.mem_map_of_mem listed

/-- No weight is negative, and two are positive. -/
structure Weighs : Prop where
  nonneg : ∀ d ∈ data, 0 ≤ d.2
  two : 2 ≤ data.countP (0 < ·.2)

end Formulas

/-- The usual deviation of a sample. -/
noncomputable def deviation (xs : List ℝ) : ℝ :=
  √((xs.map fun x => (x - xs.sum / xs.length) ^ 2).sum / (xs.length - 1))

variable {data : Readings}

theorem weight_nonneg (nonneg : ∀ d ∈ data, 0 ≤ d.2) : 0 ≤ data.weight :=
  List.sum_nonneg (List.forall_mem_map.mpr nonneg)

theorem sum_heavy_pos (nonneg : ∀ d ∈ data, 0 ≤ d.2) (some : ∃ d ∈ data, 0 < d.2) {f : ℝ × ℝ → ℝ}
    (positive : ∀ d ∈ data, 0 < d.2 → 0 < f d) : 0 < (data.map fun d => d.2 * f d).sum := by
  obtain ⟨d, listed, weighty⟩ := some
  have terms : ∀ x ∈ data.map fun d => d.2 * f d, 0 ≤ x := by
    intro x term
    obtain ⟨e, member, rfl⟩ := List.mem_map.mp term
    rcases (nonneg e member).eq_or_lt with none | above
    · simp [← none]
    · exact (mul_pos above (positive e member above)).le
  exact (mul_pos weighty (positive d listed weighty)).trans_le
    (List.single_le_sum terms _ (List.mem_map_of_mem listed))

theorem weight_pos (nonneg : ∀ d ∈ data, 0 ≤ d.2) (some : ∃ d ∈ data, 0 < d.2) : 0 < data.weight := by
  simpa [weight] using sum_heavy_pos nonneg some (f := fun _ => 1) fun _ _ _ => one_pos

theorem exists_of_countP (some : 0 < data.countP (0 < ·.2)) : ∃ d ∈ data, 0 < d.2 := by
  simpa using List.countP_pos_iff.mp some

theorem squares_le (nonneg : ∀ d ∈ data, 0 ≤ d.2) :
    (data.map fun d => d.2 * d.2).sum ≤ data.weight * data.weight := by
  induction data with
  | nil => simp [weight]
  | cons d rest ih =>
    have ⟨first, others⟩ := List.forall_mem_cons.mp nonneg
    have rests := ih others
    have product := mul_nonneg first (weight_nonneg others)
    simp only [weight, List.map_cons, List.sum_cons] at rests product ⊢
    nlinarith only [rests, product]

/-- With a second positive weight the squares do not come up to the square of the sum. -/
theorem squares_lt (nonneg : ∀ d ∈ data, 0 ≤ d.2) (two : 2 ≤ data.countP (0 < ·.2)) :
    (data.map fun d => d.2 * d.2).sum < data.weight * data.weight := by
  induction data with
  | nil => simp at two
  | cons d rest ih =>
    have ⟨first, others⟩ := List.forall_mem_cons.mp nonneg
    rcases first.eq_or_lt with none | above
    · have rests := ih others (by simpa [List.countP_cons, ← none] using two)
      simpa [weight, ← none] using rests
    · have another : ∃ d ∈ rest, 0 < d.2 := exists_of_countP (by simpa [List.countP_cons, above] using two)
      have product := mul_pos above (weight_pos others another)
      have rests := squares_le others
      simp only [weight, List.map_cons, List.sum_cons] at rests product ⊢
      nlinarith only [rests, product]

namespace Weighs

variable (weighs : data.Weighs)

include weighs

theorem some : ∃ d ∈ data, 0 < d.2 :=
  exists_of_countP (Nat.zero_lt_of_lt weighs.two)

theorem weight_pos : 0 < data.weight :=
  Readings.weight_pos weighs.nonneg weighs.some

theorem length_ge : 2 ≤ data.length :=
  weighs.two.trans List.countP_le_length

theorem root_length_ne : (√data.length : ℝ) ≠ 0 := by
  have atLeast := weighs.length_ge
  positivity

theorem normalizer_pos : 0 < data.normalizer := by
  have positive := weighs.weight_pos
  rw [normalizer, sub_pos, div_lt_iff₀ positive]
  exact squares_lt weighs.nonneg weighs.two

theorem terms_nonneg :
    ∀ x ∈ data.map fun d => d.2 * ((d.1 - data.mean) * (d.1 - data.mean)), 0 ≤ x := by
  intro x term
  obtain ⟨d, listed, rfl⟩ := List.mem_map.mp term
  exact mul_nonneg (weighs.nonneg d listed) (mul_self_nonneg _)

theorem variance_nonneg : 0 ≤ data.variance :=
  div_nonneg (List.sum_nonneg weighs.terms_nonneg) weighs.normalizer_pos.le

/-- The weighted deviations from the mean cancel. -/
theorem centered : (data.map fun d => d.2 * (d.1 - data.mean)).sum = 0 := by
  have expand (d : ℝ × ℝ) : d.2 * (d.1 - data.mean) = d.1 * d.2 + -data.mean * d.2 := by ring
  simp only [expand, List.sum_map_add, List.sum_map_mul_left]
  change _ + -data.mean * data.weight = 0
  rw [mean, neg_mul, div_mul_cancel₀ _ weighs.weight_pos.ne', add_neg_cancel]

theorem exists_le_mean : ∃ d ∈ data, 0 < d.2 ∧ d.1 ≤ data.mean := by
  by_contra none
  push Not at none
  have positive := sum_heavy_pos weighs.nonneg weighs.some (f := fun d => d.1 - data.mean)
    fun d listed above => sub_pos.mpr (none d listed above)
  exact positive.ne' weighs.centered

theorem exists_mean_le : ∃ d ∈ data, 0 < d.2 ∧ data.mean ≤ d.1 := by
  by_contra none
  push Not at none
  have positive := sum_heavy_pos weighs.nonneg weighs.some (f := fun d => -(d.1 - data.mean))
    fun d listed above => neg_pos.mpr (sub_neg.mpr (none d listed above))
  have negated (d : ℝ × ℝ) : d.2 * -(d.1 - data.mean) = -1 * (d.2 * (d.1 - data.mean)) := by ring
  simp only [negated, List.sum_map_mul_left, weighs.centered, mul_zero] at positive
  exact positive.false

theorem exists_least : ∃ low, IsLeast data.heavy low ∧ low ≤ data.mean := by
  obtain ⟨d, listed, above, atMost⟩ := weighs.exists_le_mean
  obtain ⟨low, least⟩ := data.finite_heavy.isCompact.exists_isLeast ⟨d.1, d, listed, above, rfl⟩
  exact ⟨low, least, (least.2 ⟨d, listed, above, rfl⟩).trans atMost⟩

theorem exists_greatest : ∃ high, IsGreatest data.heavy high ∧ data.mean ≤ high := by
  obtain ⟨d, listed, above, atLeast⟩ := weighs.exists_mean_le
  obtain ⟨high, greatest⟩ := data.finite_heavy.isCompact.exists_isGreatest ⟨d.1, d, listed, above, rfl⟩
  exact ⟨high, greatest, atLeast.trans (greatest.2 ⟨d, listed, above, rfl⟩)⟩

theorem variance_eq_zero_iff : data.variance = 0 ↔ ∀ d ∈ data, 0 < d.2 → d.1 = data.mean := by
  rw [variance, div_eq_zero_iff, or_iff_left weighs.normalizer_pos.ne']
  constructor
  · intro none d listed above
    have term := List.single_le_sum weighs.terms_nonneg _ (List.mem_map_of_mem listed)
    rw [none] at term
    have square : (d.1 - data.mean) * (d.1 - data.mean) ≤ 0 := by
      by_contra positive
      exact (mul_pos above (not_le.mp positive)).not_ge term
    exact sub_eq_zero.mp (mul_self_eq_zero.mp (square.antisymm (mul_self_nonneg _)))
  · intro same
    refine List.sum_eq_zero fun x term => ?_
    obtain ⟨d, listed, rfl⟩ := List.mem_map.mp term
    rcases (weighs.nonneg d listed).eq_or_lt with none | above
    · rw [← none, zero_mul]
    · rw [same d listed above, sub_self, zero_mul, mul_zero]

theorem radius_eq_zero_iff : data.radius = 0 ↔ ∀ x ∈ data.heavy, ∀ y ∈ data.heavy, x = y := by
  have zero : data.radius = 0 ↔ data.variance = 0 := by
    rw [radius, div_eq_zero_iff, or_iff_left weighs.root_length_ne, mul_eq_zero, or_iff_right (by norm_num),
      Real.sqrt_eq_zero weighs.variance_nonneg]
  rw [zero, weighs.variance_eq_zero_iff]
  constructor
  · rintro same _ ⟨d, listed, above, rfl⟩ _ ⟨e, listed', above', rfl⟩
    rw [same d listed above, same e listed' above']
  · intro same d listed above
    obtain ⟨e, listed', above', atMost⟩ := weighs.exists_le_mean
    obtain ⟨f, listed'', above'', atLeast⟩ := weighs.exists_mean_le
    have low := same _ ⟨d, listed, above, rfl⟩ _ ⟨e, listed', above', rfl⟩
    have high := same _ ⟨d, listed, above, rfl⟩ _ ⟨f, listed'', above'', rfl⟩
    exact le_antisymm (low.trans_le atMost) (atLeast.trans_eq high.symm)

theorem moved (a b : ℝ) : Readings.Weighs (data.map fun d => (a * d.1 + b, d.2)) where
  nonneg := List.forall_mem_map.mpr weighs.nonneg
  two := by simpa [List.countP_map, Function.comp_def] using weighs.two

theorem mean_affine (a b : ℝ) : Readings.mean (data.map fun d => (a * d.1 + b, d.2)) = a * data.mean + b := by
  have expand (d : ℝ × ℝ) : (a * d.1 + b) * d.2 = a * (d.1 * d.2) + b * d.2 := by ring
  simp only [mean, weight, List.map_map, Function.comp_def, expand, List.sum_map_add, List.sum_map_mul_left]
  have positive := weighs.weight_pos
  unfold weight at positive
  field_simp

theorem variance_affine (a b : ℝ) :
    Readings.variance (data.map fun d => (a * d.1 + b, d.2)) = a ^ 2 * data.variance := by
  have expand (d : ℝ × ℝ) : d.2 * ((a * d.1 + b - (a * data.mean + b)) * (a * d.1 + b - (a * data.mean + b))) =
      a ^ 2 * (d.2 * ((d.1 - data.mean) * (d.1 - data.mean))) := by ring
  have normalizers : Readings.normalizer (data.map fun d => (a * d.1 + b, d.2)) = data.normalizer := by
    simp [normalizer, weight, Function.comp_def]
  rw [variance, weighs.mean_affine, normalizers, variance, List.map_map]
  simp only [Function.comp_def, expand, List.sum_map_mul_left, mul_div_assoc]

theorem radius_affine (a b : ℝ) :
    Readings.radius (data.map fun d => (a * d.1 + b, d.2)) = |a| * data.radius := by
  rw [radius, weighs.variance_affine, Real.sqrt_mul (sq_nonneg a), Real.sqrt_sq_eq_abs, List.length_map, radius]
  ring

/-- With equal weights the interval is the usual one. -/
theorem radius_of_equal (equal : ∀ d ∈ data, ∀ e ∈ data, d.2 = e.2) :
    data.radius = 196 / 100 * deviation (data.map (·.1)) / √data.length := by
  obtain ⟨e, listed, above⟩ := weighs.some
  set w := e.2
  have size : (2 : ℝ) ≤ data.length := by exact_mod_cast weighs.length_ge
  have nonzero : (data.length : ℝ) ≠ 0 := by positivity
  have rest : (data.length : ℝ) - 1 ≠ 0 := by linarith
  have constant (f : ℝ × ℝ → ℝ → ℝ) : (data.map fun d => f d d.2).sum = (data.map fun d => f d w).sum :=
    congrArg List.sum (List.map_congr_left fun d member => by rw [equal d member e listed])
  -- The common weight cancels in the mean, and in the variance.
  have weights : data.weight = data.length * w := by
    rw [weight, constant fun _ x => x]
    simp
  have squares : (data.map fun d => d.2 * d.2).sum = data.length * (w * w) := by
    rw [constant fun _ x => x * x]
    simp
  have average : data.mean = (data.map (·.1)).sum / data.length := by
    rw [mean, weights, constant fun d x => d.1 * x, List.sum_map_mul_right, mul_div_mul_right _ _ above.ne']
  have normalized : data.normalizer = (data.length - 1) * w := by
    rw [normalizer, squares, weights]
    field_simp
  have spread : data.variance =
      ((data.map (·.1)).map fun x => (x - (data.map (·.1)).sum / data.length) ^ 2).sum / (data.length - 1) := by
    rw [variance, constant fun d x => x * ((d.1 - data.mean) * (d.1 - data.mean)), List.sum_map_mul_left,
      normalized, average, mul_comm w, mul_div_mul_right _ _ above.ne', List.map_map]
    simp only [Function.comp_def, pow_two]
  rw [radius, spread, deviation, List.length_map]

end Weighs

end Readings

section Finite

theorem sum_finite (xs : List ℝ) : Scalar.sum (xs.map Exact.finite) = .ok (.finite xs.sum) := by
  have known : exactSumBy (fun x => .ok (Exact.finite x)) xs = .ok (.finite (xs.map id).sum) :=
    exactSumBy_finite fun _ _ => rfl
  rw [exactSumBy_eq_sum, List.map_id] at known
  exact ofSumError_ok.mp known

namespace Interval

theorem total_finite (xs : List ℝ) : total (xs.map Exact.finite) = .finite xs.sum := by
  rw [total, sum_finite]

end Interval

namespace Readings

noncomputable def pairs (data : Readings) : List (Exact × Exact) :=
  data.map fun d => (.finite d.1, .finite d.2)

theorem total_pairs (data : Readings) {f : Exact × Exact → Exact} {r : ℝ × ℝ → ℝ}
    (each : ∀ x w : ℝ, f (.finite x, .finite w) = .finite (r (x, w))) :
    Interval.total (data.pairs.map f) = .finite (data.map r).sum := by
  rw [← Interval.total_finite, pairs, List.map_map, List.map_map]
  exact congrArg Interval.total (List.map_congr_left fun d _ => each d.1 d.2)

theorem total_weights (data : Readings) : Interval.total (data.pairs.map (·.2)) = .finite data.weight :=
  data.total_pairs fun _ _ => rfl

variable {data : Readings} (weighs : data.Weighs)

include weighs

theorem meanOf_pairs : Interval.meanOf data.pairs = .finite data.mean := by
  have products := data.total_pairs (f := fun p => p.1 * p.2) (r := fun d => d.1 * d.2) fun _ _ => rfl
  change Interval.total (data.pairs.map fun p => p.1 * p.2) / Interval.total (data.pairs.map (·.2)) = _
  rw [products, total_weights]
  exact Exact.finite_div weighs.weight_pos.ne'

theorem normalizer_pairs : Interval.normalizer (data.pairs.map (·.2)) = .finite data.normalizer := by
  have squares := data.total_pairs (f := fun p => p.2 * p.2) (r := fun d => d.2 * d.2) fun _ _ => rfl
  simp only [Interval.normalizer, total_weights, List.map_map, Function.comp_def, squares]
  rw [Exact.finite_div weighs.weight_pos.ne', Exact.finite_sub]
  rfl

theorem variance_pairs : Interval.variance data.pairs = .finite data.variance := by
  have deviations := data.total_pairs
    (f := fun p => p.2 * ((p.1 - .finite data.mean) * (p.1 - .finite data.mean)))
    (r := fun d => d.2 * ((d.1 - data.mean) * (d.1 - data.mean))) fun _ _ => by simp
  rw [Interval.variance, meanOf_pairs weighs, normalizer_pairs weighs]
  change Interval.total (data.pairs.map fun p =>
    p.2 * ((p.1 - .finite data.mean) * (p.1 - .finite data.mean))) / _ = _
  rw [deviations]
  exact Exact.finite_div weighs.normalizer_pos.ne'

theorem ofSamples_pairs : Interval.ofSamples data.pairs = ⟨.finite data.mean, .finite data.radius⟩ := by
  have root {x : ℝ} (nonneg : 0 ≤ x) : Scalar.sqrt (Exact.finite x) = .finite √x := by
    change Exact.sqrt _ = _
    simp [Exact.sqrt, Exact.lift, nonneg.not_gt]
  have length : data.pairs.length = data.length := List.length_map _
  rw [Interval.ofSamples, meanOf_pairs weighs, variance_pairs weighs, length, Exact.ofNat_eq,
    root weighs.variance_nonneg, root (Nat.cast_nonneg _), Interval.quantile, Exact.ratio_eq, Exact.finite_mul,
    Exact.finite_div weighs.root_length_ne]
  norm_num [radius]

end Readings

end Finite

/-- A sample of a number, which it may show as an integer or a truth value. -/
def Sample.Shows (s : Sample Exact) (d : ℝ × ℝ) : Prop :=
  s.value.IsReal d.1 ∧ s.weight = .finite d.2

section Samples

variable {samples : List (Sample Exact)} {data : Readings}

theorem Value.IsReal.parseScalar {v : Value Exact} {x : ℝ} (real : v.IsReal x) :
    v.parseScalar = .ok (.finite x) := by
  have scalar := real.toScalar
  obtain ⟨m, number, -⟩ := real.number
  cases v <;> cases number <;> exact scalar

theorem Value.IsReal.mul {v w : Value Exact} {x y : ℝ} (first : v.IsReal x) (second : w.IsReal y) :
    ∃ s, v.mul w = .ok s ∧ s.IsReal (x * y) := by
  obtain ⟨m, number, value⟩ := first.number
  obtain ⟨n, number', value'⟩ := second.number
  obtain ⟨k, product, value''⟩ := Number.mul_exact m n
  refine ⟨.ofNumber k, by simp [Value.mul, numeric, number, number', product, pure, Except.pure], ?_⟩
  simp [IsReal, value, value', value'']

theorem Value.IsReal.div_real {v : Value Exact} {x w : ℝ} (real : v.IsReal x) (nonzero : w ≠ 0) :
    v.div (.real (.finite w)) = .ok (.real (.finite (x / w))) := by
  obtain ⟨m, number, value⟩ := real.number
  have known : m.toScalar = .ok (.finite x) := by rw [Number.toScalar_exact, value]
  have nonzero' : (Exact.finite w == 0) = false := by simpa [Exact.zero_eq] using nonzero
  have quotient : Number.div m (.real (.finite w)) = .ok (.real (.finite (x / w))) := by
    cases m <;>
    · rw [Number.div, Number.combine, known, Outcome.ok_bind, Number.toScalar, Outcome.ok_bind, nonzero',
        Exact.finite_div nonzero]
      · rfl
      · intro _ _ _ other
        cases other
  have number' : (Value.real (.finite w) : Value Exact).number? = some (.real (.finite w)) := rfl
  rw [div, numeric, number, number']
  simp only [quotient]
  rfl

theorem parsed_shown (shows : List.Forall₂ Sample.Shows samples data) :
    samples.mapM Sample.parsed = .ok data.pairs := by
  rw [Outcome.mapM_ok, Readings.pairs, List.forall₂_map_right_iff]
  refine shows.imp fun s d ⟨real, weight⟩ => ?_
  rw [Sample.parsed, real.parseScalar, weight]
  rfl

theorem meanInterval_shows (shows : List.Forall₂ Sample.Shows samples data) (weighs : data.Weighs) :
    meanInterval samples = .ok ⟨.finite data.mean, .finite data.radius⟩ := by
  change (do return Interval.ofSamples (← samples.mapM Sample.parsed)) = _
  rw [parsed_shown shows, Outcome.ok_bind, Readings.ofSamples_pairs weighs]
  rfl

theorem weights_shown (shows : List.Forall₂ Sample.Shows samples data) :
    samples.map (·.weight) = data.pairs.map (·.2) := by
  induction shows with
  | nil => rfl
  | cons head _ ih => exact congrArg₂ List.cons head.2 ih

theorem foldl_shown (shows : List.Forall₂ Sample.Shows samples data) {v : Value Exact} {t : ℝ}
    (start : v.IsReal t) :
    ∃ total, samples.foldlM (fun total s => do total.add (← scaledValue s)) v = .ok total ∧
      total.IsReal (t + (data.map fun d => d.1 * d.2).sum) := by
  induction shows generalizing v t with
  | nil => exact ⟨v, rfl, by simpa using start⟩
  | @cons s d rest rest' head _ ih =>
    obtain ⟨product, made, real⟩ := head.1.mul (Value.isReal_real d.2)
    obtain ⟨sum, added, real'⟩ := start.add real
    obtain ⟨total, folded, result⟩ := ih real'
    refine ⟨total, ?_, by simpa [add_assoc] using result⟩
    rw [List.foldlM_cons, scaledValue, head.2, made, Outcome.ok_bind, added, Outcome.ok_bind, folded]

theorem weightedSum_shows (shows : List.Forall₂ Sample.Shows samples data) (some : data ≠ []) :
    ∃ total, weightedSum samples = .ok total ∧ total.IsReal (data.map fun d => d.1 * d.2).sum := by
  cases shows with
  | nil => exact absurd rfl some
  | @cons s d rest rest' head tail =>
    obtain ⟨product, made, real⟩ := head.1.mul (Value.isReal_real d.2)
    obtain ⟨total, folded, result⟩ := foldl_shown tail real
    refine ⟨total, ?_, by simpa using result⟩
    rw [weightedSum, scaledValue, head.2, made, Outcome.ok_bind, folded]

theorem weightedMean_shows (shows : List.Forall₂ Sample.Shows samples data) (weighs : data.Weighs) :
    weightedMean samples = .ok (.real (.finite data.mean)) := by
  have weights : exactSumBy (fun s => .ok s.weight) samples = .ok (.finite data.weight) := by
    have sum := sum_finite (data.map (·.2))
    rw [exactSumBy_eq_sum, weights_shown shows, Readings.pairs, List.map_map]
    rw [List.map_map] at sum
    exact ofSumError_ok.mpr sum
  obtain ⟨total, summed, real⟩ := weightedSum_shows shows (by rintro rfl; exact weighs.weight_pos.ne rfl)
  rw [weightedMean, weights, Outcome.ok_bind, summed, Outcome.ok_bind, real.div_real weighs.weight_pos.ne']
  rfl

end Samples

/-- What the mean of samples and its interval are to the numbers that they show. -/
structure Measures (samples : List (Sample Exact)) (data : Readings) : Prop where
  normalizer : Interval.normalizer (samples.map (·.weight)) = .finite data.normalizer ∧ 0 < data.normalizer
  variance : (∃ pairs, samples.mapM Sample.parsed = .ok pairs ∧
    Interval.variance pairs = .finite data.variance) ∧ 0 ≤ data.variance
  interval : meanInterval samples = .ok ⟨.finite data.mean, .finite data.radius⟩
  expected : weightedMean samples = .ok (.real (.finite data.mean))
  between : ∃ low high, IsLeast data.heavy low ∧ IsGreatest data.heavy high ∧ low ≤ data.mean ∧ data.mean ≤ high
  vanishes : data.radius = 0 ↔ ∀ x ∈ data.heavy, ∀ y ∈ data.heavy, x = y
  rescaled : ∀ c, 0 < c → meanInterval (samples.map (Sample.scaled c)) = meanInterval samples
  moved : ∀ (a b : ℝ) (samples' : List (Sample Exact)),
    List.Forall₂ Sample.Shows samples' (data.map fun d => (a * d.1 + b, d.2)) →
      meanInterval samples' = .ok ⟨.finite (a * data.mean + b), .finite (|a| * data.radius)⟩
  usual : (∀ d ∈ data, ∀ e ∈ data, d.2 = e.2) →
    data.radius = 1.96 * Readings.deviation (data.map (·.1)) / √data.length

/-- Samples of numbers with two positive weights, and none that is negative, have a mean and an interval. -/
theorem meanInterval_measures {samples : List (Sample Exact)} {data : Readings}
    (shows : List.Forall₂ Sample.Shows samples data) (weighs : data.Weighs) : Measures samples data where
  normalizer := by
    rw [weights_shown shows]
    exact ⟨Readings.normalizer_pairs weighs, weighs.normalizer_pos⟩
  variance := ⟨⟨data.pairs, parsed_shown shows, Readings.variance_pairs weighs⟩, weighs.variance_nonneg⟩
  interval := meanInterval_shows shows weighs
  expected := weightedMean_shows shows weighs
  between := by
    obtain ⟨low, least, atMost⟩ := weighs.exists_least
    obtain ⟨high, greatest, atLeast⟩ := weighs.exists_greatest
    exact ⟨low, high, least, greatest, atMost, atLeast⟩
  vanishes := weighs.radius_eq_zero_iff
  rescaled c above := meanInterval_scaled above samples
  moved a b samples' shows' := by
    rw [meanInterval_shows shows' (weighs.moved a b), weighs.mean_affine, weighs.radius_affine]
  usual equal := by
    rw [weighs.radius_of_equal equal]
    norm_num

/-- One, and twice four; what has no weight counts in the number of samples only. -/
theorem meanInterval_measures_weightless :
    meanInterval ([⟨.bool true, .finite 1⟩, ⟨.real (.finite 4), .finite 2⟩, ⟨.int 100, .finite 0⟩] :
        List (Sample Exact)) = .ok ⟨.finite 3, .finite (1.96 * √(9 / 2) / √3)⟩ ∧
      weightedMean ([⟨.bool true, .finite 1⟩, ⟨.real (.finite 4), .finite 2⟩, ⟨.int 100, .finite 0⟩] :
        List (Sample Exact)) = .ok (.real (.finite 3)) := by
  let data : Readings := [(1, 1), (4, 2), (100, 0)]
  have shows : List.Forall₂ Sample.Shows
      [⟨.bool true, .finite 1⟩, ⟨.real (.finite 4), .finite 2⟩, ⟨.int 100, .finite 0⟩] data := by
    simp [data, Sample.Shows, Value.IsReal, Value.number?]
  have weighs : data.Weighs := ⟨by simp [data], by simp [data]⟩
  have measures := meanInterval_measures shows weighs
  have mean : data.mean = 3 := by
    norm_num [data, Readings.mean, Readings.weight]
  have variance : data.variance = 9 / 2 := by
    norm_num [data, Readings.variance, mean, Readings.normalizer, Readings.weight]
  have radius : data.radius = 1.96 * √(9 / 2) / √3 := by
    norm_num [Readings.radius, variance, data]
  refine ⟨?_, ?_⟩
  · rw [measures.interval, mean, radius]
  · rw [measures.expected, mean]

end ChanceGraph
