import ChanceGraph.Estimate
import ChanceGraph.Proofs.ExactSum

/-!
Multiples of exact numbers.  A positive factor commutes with sums, also with those that round once and
those that fail, and cancels in quotients: weighted means and their intervals do not know of it.
-/

set_option autoImplicit false

namespace ChanceGraph

namespace Exact

noncomputable def scale (c : ℝ) (x : Exact) : Exact :=
  .finite c * x

@[simp] theorem scale_finite (c x : ℝ) : scale c (.finite x) = .finite (c * x) := rfl

@[simp] theorem scale_undefined (c : ℝ) : scale c .undefined = .undefined :=
  congrArg ofSign (mul_zero _)

@[simp] theorem scale_zero (c : ℝ) : scale c 0 = 0 :=
  congrArg Exact.finite (mul_zero c)

theorem scale_mul (c : ℝ) (x y : Exact) : scale c (x * y) = scale c x * y :=
  (Exact.mul_assoc _ _ _).symm

theorem mul_scale (c : ℝ) (x y : Exact) : x * scale c y = scale c (x * y) := by
  unfold scale
  ac_rfl

theorem scale_div (c : ℝ) (x y : Exact) : scale c x / y = scale c (x / y) :=
  (scale_mul c x (inv y)).symm

theorem scale_inv_scale {c : ℝ} (nonzero : c ≠ 0) (x : Exact) : scale c⁻¹ (scale c x) = x := by
  rw [scale, scale, ← Exact.mul_assoc, finite_mul, inv_mul_cancel₀ nonzero, ← one_eq, Exact.one_mul]

section Positive

variable {c : ℝ} (above : 0 < c)

include above

theorem scale_infinite (positive : Bool) : scale c (.infinite positive) = .infinite positive := by
  rw [scale, mul_eq_ofSign _ _ (by simp)]
  cases positive <;> simp [sign, ofSign, sign_pos above]

theorem scale_add (x y : Exact) : scale c (x + y) = scale c x + scale c y := by
  change scale c (add x y) = add _ _
  cases x <;> cases y <;> simp only [scale_finite, scale_infinite above, scale_undefined, add, mul_add]
  split <;> simp [scale_infinite above]

theorem scale_neg (x : Exact) : scale c (-x) = -scale c x := by
  change scale c (neg x) = neg _
  cases x <;> simp [neg, scale_infinite above]

theorem scale_sub (x y : Exact) : scale c (x - y) = scale c x - scale c y :=
  (scale_add above x (-y)).trans (congrArg _ (scale_neg above y))

theorem scale_lt (x y : Exact) : scale c x < scale c y ↔ x < y := by
  change Less _ _ ↔ Less x y
  cases x <;> cases y <;> simp [scale_infinite above, Less, above]

theorem scale_le (x y : Exact) : scale c x ≤ scale c y ↔ x ≤ y := by
  change AtMost _ _ ↔ AtMost x y
  cases x <;> cases y <;> simp [scale_infinite above, AtMost, above]

theorem scale_lt_zero (x : Exact) : scale c x < 0 ↔ x < 0 := by
  rw [← scale_lt above x, scale_zero]

theorem zero_lt_scale (x : Exact) : 0 < scale c x ↔ 0 < x := by
  simpa using scale_lt above 0 x

theorem scale_beq (x y : Exact) : (scale c x == scale c y) = (x == y) := by
  change same _ _ = same x y
  cases x <;> cases y <;> simp [scale_infinite above, same, above.ne']

theorem scale_beq_zero (x : Exact) : (scale c x == 0) = (x == 0) := by
  rw [← scale_beq above x, scale_zero]

theorem scale_isFinite (x : Exact) : Scalar.isFinite (scale c x) = Scalar.isFinite x := by
  cases x with
  | finite x => rfl
  | infinite positive => rw [scale_infinite above]
  | undefined => rw [scale_undefined]

theorem scale_isNaN (x : Exact) : Scalar.isNaN (scale c x) = Scalar.isNaN x := by
  cases x with
  | finite x => rfl
  | infinite positive => rw [scale_infinite above]
  | undefined => rw [scale_undefined]

theorem scale_abs (x : Exact) : Scalar.abs (scale c x) = scale c (Scalar.abs x) := by
  simp only [Scalar.abs, scale_lt_zero above]
  split <;> simp [scale_neg above]

theorem inv_scale (y : Exact) : inv (scale c y) = scale c⁻¹ (inv y) := by
  cases y with
  | finite y =>
    by_cases zero : y = 0
    · simp [inv, zero, scale_infinite (inv_pos.mpr above)]
    · simp [inv, zero, above.ne', mul_comm]
  | infinite positive => simp [inv, scale_infinite above]
  | undefined => simp [inv]

theorem scale_div_scale (x y : Exact) : scale c x / scale c y = x / y := by
  change scale c x * inv (scale c y) = x * inv y
  rw [inv_scale above, mul_scale, ← scale_mul, scale_inv_scale above.ne']

end Positive

end Exact

section Sums

open Scalar

/-- Where steps commute with a change of the items and of the states that occur, so does the run. -/
theorem foldlM_commutes {ε σ σ' α α' : Type} {f : σ → α → Except ε σ} {f' : σ' → α' → Except ε σ'}
    (P : σ → Prop) (φ : σ → σ') (ψ : α → α')
    (each : ∀ s a, P s → f' (φ s) (ψ a) = φ <$> f s a)
    (kept : ∀ s a s', P s → f s a = .ok s' → P s') (xs : List α) {s : σ} (holds : P s) :
    (xs.map ψ).foldlM f' (φ s) = φ <$> xs.foldlM f s ∧ ∀ s', xs.foldlM f s = .ok s' → P s' := by
  induction xs generalizing s with
  | nil =>
    refine ⟨rfl, fun s' result => ?_⟩
    cases result
    exact holds
  | cons x rest ih =>
    rw [List.map_cons, List.foldlM_cons, List.foldlM_cons, each s x holds]
    cases step : f s x with
    | error fault => exact ⟨rfl, nofun⟩
    | ok s' => exact ih (kept s x s' holds step)

noncomputable def scaledSum (c : ℝ) (sum : PartialSum Exact) : PartialSum Exact :=
  ⟨sum.parts.map (Exact.scale c), sum.special.scale c, sum.infinities.scale c⟩

variable {c : ℝ} (above : 0 < c)

include above

theorem addExact_scale (x y : Exact) :
    addExact (x.scale c) (y.scale c) = ((addExact x y).1.scale c, (addExact x y).2.scale c) := by
  simp only [addExact, Exact.scale_abs above, Exact.scale_lt above]
  split <;> simp only [Exact.scale_add above, Exact.scale_sub above]

theorem absorb_scale (x : Exact) (parts : List Exact) :
    absorb (x.scale c) (parts.map (Exact.scale c)) =
      ((absorb x parts).1.scale c, (absorb x parts).2.map (Exact.scale c)) := by
  induction parts generalizing x with
  | nil => rfl
  | cons y parts ih =>
    simp only [List.map_cons, absorb, addExact_scale above, ih, Exact.scale_beq_zero above]
    split <;> rfl

theorem add_scaledSum (sum : PartialSum Exact) (x : Exact) :
    (scaledSum c sum).add (x.scale c) = scaledSum c <$> sum.add x := by
  simp only [PartialSum.add, scaledSum, absorb_scale above, Exact.scale_beq_zero above,
    Exact.scale_isFinite above, Exact.scale_isNaN above, ← Exact.scale_add above]
  split_ifs <;> simp [scaledSum, *]

theorem collapse_scale (high : Exact) (parts : List Exact) :
    PartialSum.collapse (high.scale c) (parts.map (Exact.scale c)) =
      match PartialSum.collapse high parts with
      | (sum, low, rest) => (sum.scale c, low.scale c, rest.map (Exact.scale c)) := by
  induction parts generalizing high with
  | nil => simp [PartialSum.collapse]
  | cons y parts ih =>
    simp only [List.map_cons, PartialSum.collapse, ← Exact.scale_add above, ← Exact.scale_sub above,
      Exact.scale_beq_zero above, ih]
    split <;> rfl

theorem settle_scale (sum low : Exact) (rest : List Exact) :
    PartialSum.settle (sum.scale c, low.scale c, rest.map (Exact.scale c)) =
      (PartialSum.settle (sum, low, rest)).scale c := by
  cases rest with
  | nil => rfl
  | cons next rest =>
    simp only [List.map_cons, PartialSum.settle, Exact.scale_lt_zero above, Exact.zero_lt_scale above,
      ← Exact.scale_add above, ← Exact.scale_sub above, Exact.scale_beq above]
    split_ifs <;> rfl

theorem result_scaledSum (sum : PartialSum Exact) :
    (scaledSum c sum).result = Exact.scale c <$> sum.result := by
  simp only [PartialSum.result, scaledSum, Exact.scale_beq_zero above, Exact.scale_isNaN above,
    ← List.map_reverse]
  split
  · cases sum.parts.reverse with
    | nil => exact congrArg Except.ok (Exact.scale_zero c).symm
    | cons high parts =>
      rw [List.map_cons]
      simp only [collapse_scale above, settle_scale above]
      rfl
  · split <;> rfl

theorem sum_scale (xs : List Exact) :
    Scalar.sum (xs.map (Exact.scale c)) = Exact.scale c <$> Scalar.sum xs := by
  have zero : scaledSum c .zero = .zero := by
    simp [PartialSum.zero, scaledSum]
  have folded := (foldlM_commutes (fun _ => True) (scaledSum c) (Exact.scale c)
    (fun sum x _ => add_scaledSum above sum x) (fun _ _ _ _ _ => trivial) xs (s := .zero) trivial).1
  rw [zero] at folded
  rw [Scalar.sum, Scalar.sum, folded, map_bind, bind_map_left]
  exact bind_congr (result_scaledSum above)

end Sums

/-- The sample whose weight is multiplied. -/
noncomputable def Sample.scaled (c : ℝ) (s : Sample Exact) : Sample Exact :=
  { s with weight := s.weight.scale c }

/-- The value as a number, with the weight. -/
noncomputable def Sample.parsed (s : Sample Exact) : Outcome Exact (Exact × Exact) := do
  return (← s.value.parseScalar, s.weight)

theorem Sample.parsed_scaled (c : ℝ) (s : Sample Exact) :
    (s.scaled c).parsed = (fun (x, w) => (x, w.scale c)) <$> s.parsed := by
  simp [parsed, scaled]

section Intervals

variable {c : ℝ} (above : 0 < c)

noncomputable def scaledPairs (c : ℝ) (samples : List (Exact × Exact)) : List (Exact × Exact) :=
  samples.map fun (x, w) => (x, w.scale c)

include above

theorem foldl_add_scale (xs : List Exact) (start : Exact) :
    (xs.map (Exact.scale c)).foldl (· + ·) (start.scale c) = (xs.foldl (· + ·) start).scale c := by
  rw [List.foldl_map]
  exact (List.foldl_hom (Exact.scale c) fun x y => (Exact.scale_add above x y).symm)

theorem total_scale (xs : List Exact) :
    Interval.total (xs.map (Exact.scale c)) = (Interval.total xs).scale c := by
  unfold Interval.total
  rw [sum_scale above]
  cases Scalar.sum xs with
  | ok x => rfl
  | error fault =>
    change List.foldl _ _ _ = _
    rw [← foldl_add_scale above, Exact.scale_zero]

theorem total_scaledPairs {f : Exact × Exact → Exact}
    (grows : ∀ x w, f (x, w.scale c) = (f (x, w)).scale c) (samples : List (Exact × Exact)) :
    Interval.total ((scaledPairs c samples).map f) = (Interval.total (samples.map f)).scale c := by
  rw [← total_scale above, scaledPairs, List.map_map, List.map_map]
  exact congrArg Interval.total (List.map_congr_left fun p _ => grows p.1 p.2)

theorem meanOf_scaled (samples : List (Exact × Exact)) :
    Interval.meanOf (scaledPairs c samples) = Interval.meanOf samples := by
  unfold Interval.meanOf
  rw [total_scaledPairs above (Exact.mul_scale c), total_scaledPairs above fun _ _ => rfl,
    Exact.scale_div_scale above]

theorem normalizer_scaled (weights : List Exact) :
    Interval.normalizer (weights.map (Exact.scale c)) = (Interval.normalizer weights).scale c := by
  have squares : (weights.map (Exact.scale c)).map (fun w => w * w) =
      ((weights.map fun w => w * w).map (Exact.scale c)).map (Exact.scale c) := by
    simp [Exact.mul_scale, ← Exact.scale_mul]
  simp only [Interval.normalizer]
  rw [squares, total_scale above, total_scale above, total_scale above, Exact.scale_div_scale above,
    Exact.scale_div, ← Exact.scale_sub above]

theorem variance_scaled (samples : List (Exact × Exact)) :
    Interval.variance (scaledPairs c samples) = Interval.variance samples := by
  have weights : (scaledPairs c samples).map (·.2) = (samples.map (·.2)).map (Exact.scale c) := by
    simp [scaledPairs]
  simp only [Interval.variance, meanOf_scaled above]
  rw [total_scaledPairs above fun x w => (Exact.scale_mul c w _).symm, weights, normalizer_scaled above,
    Exact.scale_div_scale above]

theorem ofSamples_scaled (samples : List (Exact × Exact)) :
    Interval.ofSamples (scaledPairs c samples) = Interval.ofSamples samples := by
  simp only [Interval.ofSamples, meanOf_scaled above, variance_scaled above]
  rw [scaledPairs, List.length_map]

theorem meanInterval_scaled (samples : List (Sample Exact)) :
    meanInterval (samples.map (Sample.scaled c)) = meanInterval samples := by
  have pairs : (samples.map (Sample.scaled c)).mapM Sample.parsed =
      scaledPairs c <$> samples.mapM Sample.parsed := by
    rw [List.mapM_map]
    simp only [Function.comp_def, Sample.parsed_scaled]
    rw [← Outcome.map_mapM]
    rfl
  change (do return Interval.ofSamples (← (samples.map (Sample.scaled c)).mapM Sample.parsed)) = _
  rw [pairs, bind_map_left]
  exact bind_congr fun pairs => congrArg pure (ofSamples_scaled above pairs)

end Intervals

namespace Value

/-- What products with a real number are. -/
inductive Measured : Value Exact → Prop where
  | real (x : Exact) : Measured (.real x)
  | vector (xs : List Exact) : Measured (.vector xs)

noncomputable def scaled (c : ℝ) : Value Exact → Value Exact
  | .real x => .real (x.scale c)
  | .vector xs => .vector (xs.map (Exact.scale c))
  | v => v

theorem entryOperand_real (x : Exact) : (Value.real x).entryOperand = .ok x := rfl

theorem measured_entrywise {f : Exact → Exact → Exact} {a b r : Value Exact}
    (made : entrywise f a b = .ok r) : r.Measured := by
  unfold entrywise at made
  split at made
  · split_ifs at made
    · cases made
      exact .vector _
    · split at made <;> cases made <;> exact .vector _
  · obtain ⟨_, -, made⟩ := Outcome.bind_ok.mp made
    cases made
    exact .vector _
  · obtain ⟨_, -, made⟩ := Outcome.bind_ok.mp made
    cases made
    exact .vector _
  · cases made

theorem measured_mul {v r : Value Exact} {w : Exact} (product : v.mul (.real w) = .ok r) : r.Measured := by
  cases v with
  | bool b | int n | real x =>
    simp [mul, numeric, number?, Number.mul, Number.combine, ofNumber, pure, Except.pure] at product
    exact product ▸ .real _
  | vector xs =>
    simp only [mul, numeric, number?] at product
    exact measured_entrywise product
  | nothing | text s | tuple items | list items => cases product

theorem mul_scaled (c : ℝ) (v : Value Exact) (w : Exact) :
    v.mul (.real (w.scale c)) = scaled c <$> v.mul (.real w) := by
  cases v with
  | bool b | int n | real x =>
    simp [mul, numeric, number?, Number.mul, Number.combine, ofNumber, scaled, Exact.mul_scale]
  | vector xs => simp [mul, numeric, number?, entrywise, entryOperand_real, scaled, Exact.mul_scale]
  | nothing | text s | tuple items | list items => rfl

theorem Measured.add {a b r : Value Exact} (left : a.Measured) (right : b.Measured)
    (sum : a.add b = .ok r) : r.Measured := by
  cases left with
  | real x =>
    cases right with
    | real y =>
      cases sum
      exact .real _
    | vector ys =>
      simp only [Value.add, numeric, number?] at sum
      exact measured_entrywise sum
  | vector xs =>
    cases right <;>
      simp only [Value.add, numeric, number?] at sum <;> exact measured_entrywise sum

variable {c : ℝ} (above : 0 < c)

include above

theorem add_scaled {a b : Value Exact} (left : a.Measured) (right : b.Measured) :
    (a.scaled c).add (b.scaled c) = scaled c <$> a.add b := by
  cases left with
  | real x =>
    cases right with
    | real y =>
      simp [Value.add, numeric, number?, scaled, Number.add, Number.combine, ofNumber,
        Exact.scale_add above]
    | vector ys =>
      simp [Value.add, numeric, number?, scaled, entrywise, entryOperand_real, Exact.scale_add above]
  | vector xs =>
    cases right with
    | real y =>
      simp [Value.add, numeric, number?, scaled, entrywise, entryOperand_real, Exact.scale_add above]
    | vector ys =>
      simp only [Value.add, numeric, number?, entrywise, scaled, List.length_map]
      split
      · simp [scaled, List.zipWith_map, List.map_zipWith, Exact.scale_add above]
      · -- A vector with one entry goes with any other.
        rcases xs with _ | ⟨x, _ | ⟨x', xs⟩⟩ <;> rcases ys with _ | ⟨y, _ | ⟨y', ys⟩⟩ <;>
          simp [scaled, Exact.scale_add above]

theorem div_scaled {v : Value Exact} (measured : v.Measured) (x : Exact) :
    (v.scaled c).div (.real (x.scale c)) = v.div (.real x) := by
  cases measured with
  | real y =>
    simp [div, numeric, number?, scaled, Number.div, Number.combine, Exact.scale_beq_zero above,
      Exact.scale_div_scale above]
  | vector ys => 
    simp [div, numeric, number?, scaled, entrywise, entryOperand_real, Exact.scale_div_scale above]

end Value

section Means

theorem measured_scaledValue {s : Sample Exact} {v : Value Exact} (product : scaledValue s = .ok v) :
    v.Measured :=
  Value.measured_mul product

theorem scaledValue_scaled (c : ℝ) (s : Sample Exact) :
    scaledValue (s.scaled c) = Value.scaled c <$> scaledValue s :=
  Value.mul_scaled c s.value s.weight

variable {c : ℝ} (above : 0 < c)

include above

theorem weightedSum_scaled (samples : List (Sample Exact)) :
    weightedSum (samples.map (Sample.scaled c)) = Value.scaled c <$> weightedSum samples ∧
      ∀ v, weightedSum samples = .ok v → v.Measured := by
  cases samples with
  | nil => exact ⟨rfl, nofun⟩
  | cons s rest =>
    simp only [List.map_cons, weightedSum, scaledValue_scaled]
    cases first : scaledValue s with
    | error fault => exact ⟨rfl, nofun⟩
    | ok v =>
      refine foldlM_commutes Value.Measured (Value.scaled c) (Sample.scaled c) (fun total s measured => ?_)
        (fun total s total' measured added => ?_) rest (measured_scaledValue first)
      · rw [scaledValue_scaled]
        cases product : scaledValue s with
        | error fault => rfl
        | ok v => exact Value.add_scaled above measured (measured_scaledValue product)
      · obtain ⟨v, product, added⟩ := Outcome.bind_ok.mp added
        exact measured.add (measured_scaledValue product) added

theorem weightedMean_scaled (samples : List (Sample Exact)) :
    weightedMean (samples.map (Sample.scaled c)) = weightedMean samples := by
  have total : exactSumBy (fun s => .ok s.weight) (samples.map (Sample.scaled c)) =
      Exact.scale c <$> exactSumBy (fun s => .ok s.weight) samples := by
    have weights : (samples.map (Sample.scaled c)).map (·.weight) =
        (samples.map (·.weight)).map (Exact.scale c) := by
      simp [Sample.scaled]
    rw [exactSumBy_eq_sum, exactSumBy_eq_sum, weights, sum_scale above, map_eq_pure_bind, ofSumError_bind,
      map_eq_pure_bind]
    rfl
  obtain ⟨scaled, measured⟩ := weightedSum_scaled above samples
  rw [weightedMean, weightedMean, total, scaled]
  simp only [bind_map_left]
  refine bind_congr fun x => ?_
  cases sum : weightedSum samples with
  | error fault => rfl
  | ok v => exact Value.div_scaled above (measured v sum) x

end Means

end ChanceGraph
