import ChanceGraph.Scalar.Sum
import ChanceGraph.Proofs.Operations

/-!
Summation in parts, on doubles.  The parts are kept apart, so that the smaller ones never reach the last bit of
a larger one; their exact sum is the sum of what has been added, and what is rounded to in the end is not too
small.
-/

set_option autoImplicit false

namespace ChanceGraph.Binary64

section Parts

/-- The first number does not reach the last bit of the second. -/
def Beneath (p q : ℤ) : Prop :=
  ∃ k : ℕ, |p| < 2 ^ k ∧ 2 ^ k ∣ q

variable {p q q' : ℤ}

theorem Beneath.both (beneath : Beneath p q) (beneath' : Beneath p q') :
    ∃ k : ℕ, |p| < 2 ^ k ∧ 2 ^ k ∣ q ∧ 2 ^ k ∣ q' := by
  obtain ⟨j, less, divides⟩ := beneath
  obtain ⟨k, less', divides'⟩ := beneath'
  rcases le_total j k with finer | finer
  · exact ⟨j, less, divides, (pow_dvd_pow 2 finer).trans divides'⟩
  · exact ⟨k, less', (pow_dvd_pow 2 finer).trans divides, divides'⟩

theorem Beneath.add (beneath : Beneath p q) (beneath' : Beneath p q') : Beneath p (q + q') := by
  obtain ⟨k, less, divides, divides'⟩ := beneath.both beneath'
  exact ⟨k, less, dvd_add divides divides'⟩

theorem Beneath.abs_lt (beneath : Beneath p q) (nonzero : q ≠ 0) : |p| < |q| := by
  obtain ⟨k, less, divides⟩ := beneath
  exact less.trans_le (Int.le_of_dvd (abs_pos.mpr nonzero) ((dvd_abs _ _).mpr divides))

theorem Beneath.double_lt {n : ℕ} (beneath : Beneath p q) (nonzero : q ≠ 0) (less : |q| < 2 ^ n) :
    |2 * p| < 2 ^ n := by
  obtain ⟨k, below, divides⟩ := beneath
  have unit : (2 : ℤ) ^ k ≤ |q| := Int.le_of_dvd (abs_pos.mpr nonzero) ((dvd_abs _ _).mpr divides)
  have places : k + 1 ≤ n := (pow_lt_pow_iff_right₀ (by norm_num)).mp (unit.trans_lt less)
  calc |2 * p| = 2 * |p| := by rw [abs_mul, Nat.abs_ofNat]
    _ < 2 * 2 ^ k := mul_lt_mul_of_pos_left below two_pos
    _ = 2 ^ (k + 1) := (pow_succ' 2 k).symm
    _ ≤ 2 ^ n := pow_le_pow_right₀ (by norm_num) places

theorem Beneath.mono {p' : ℤ} (beneath : Beneath p q) (smaller : |p'| ≤ |p|) : Beneath p' q := by
  obtain ⟨k, less, divides⟩ := beneath
  exact ⟨k, smaller.trans_lt less, divides⟩

/-- Below all of them at once. -/
theorem exists_unit {ps : List ℤ} (beneath : ∀ q ∈ ps, Beneath p q) :
    ∃ k : ℕ, |p| < 2 ^ k ∧ ∀ q ∈ ps, 2 ^ k ∣ q := by
  induction ps with
  | nil =>
    refine ⟨p.natAbs, ?_, by simp⟩
    rw [Int.abs_eq_natAbs]
    exact_mod_cast Nat.lt_two_pow_self
  | cons q rest ih =>
    obtain ⟨first, others⟩ := List.forall_mem_cons.mp beneath
    obtain ⟨j, less, divides⟩ := first
    obtain ⟨k, less', each⟩ := ih others
    rcases le_total j k with finer | finer
    · have later (r : ℤ) (member : r ∈ rest) : 2 ^ j ∣ r := (pow_dvd_pow 2 finer).trans (each r member)
      exact ⟨j, less, List.forall_mem_cons.mpr ⟨divides, later⟩⟩
    · exact ⟨k, less', List.forall_mem_cons.mpr ⟨(pow_dvd_pow 2 finer).trans divides, each⟩⟩

/-- What is beneath a number stays so when it is added to smaller parts that are beneath one another. -/
theorem Beneath.sum {ps : List ℤ} (nonzero : ∀ p ∈ ps, p ≠ 0) (apart : ps.Pairwise fun q p => Beneath p q)
    (beneath : ∀ p ∈ ps, Beneath p q) : Beneath ps.sum q := by
  induction ps generalizing q with
  | nil => exact ⟨0, by simp, by simp⟩
  | cons p rest ih =>
    obtain ⟨some, others⟩ := List.forall_mem_cons.mp nonzero
    obtain ⟨below, apart⟩ := List.pairwise_cons.mp apart
    obtain ⟨k, less, divides⟩ := (List.forall_mem_cons.mp beneath).1
    obtain ⟨j, less', divides'⟩ := ih others apart below
    refine ⟨k, ?_, divides⟩
    -- The first part is a multiple of the unit of the rest, and so is the power that it does not reach.
    have atLeast : (2 : ℤ) ^ j ≤ |p| := Int.le_of_dvd (abs_pos.mpr some) ((dvd_abs _ _).mpr divides')
    have finer : j ≤ k := ((pow_lt_pow_iff_right₀ (by norm_num)).mp (atLeast.trans_lt less)).le
    have gap : (2 : ℤ) ^ j ≤ 2 ^ k - |p| :=
      Int.le_of_dvd (sub_pos.mpr less) (dvd_sub (pow_dvd_pow 2 finer) ((dvd_abs _ _).mpr divides'))
    rw [List.sum_cons]
    linarith [abs_add_le p rest.sum]

end Parts

section Exactly

variable {a b x y : Float}

/-- A number in two parts: what it is rounded to, and the rest of it. -/
structure Splits (s : ℤ) (high low : Float) : Prop where
  finite : Scalar.isFinite high = true
  rest_finite : Scalar.isFinite low = true
  nearest : Nearest (s : ℝ) (units high)
  sum : units high + units low = s

theorem Splits.beneath {s : ℤ} (splits : Splits s a b) : Beneath (units b) (units a) := by
  obtain ⟨k, divides, half⟩ := splits.nearest.error_le_half
  have unit : (0 : ℤ) < 2 ^ k := by positivity
  refine ⟨k, ?_, divides⟩
  rw [← splits.sum, add_sub_cancel_left] at half
  linarith [abs_nonneg (units b)]

/-- Two subtractions find what rounding has taken from a sum. -/
theorem splits_add (finite : Scalar.isFinite a = true) (finite' : Scalar.isFinite b = true)
    (larger : |units b| ≤ |units a|) (defined : Scalar.isFinite (a + b) = true) :
    Splits (units a + units b) (a + b) (b - (a + b - a)) := by
  have nearest := (add_delivers finite finite').nearest defined
  have inRange := abs_units_lt (a + b)
  have inRange' := abs_units_lt a
  have bounded : |units (a + b) - units a| < 2 ^ 2098 :=
    (nearest.abs_sub_le_max larger).trans_lt (max_lt inRange inRange')
  have moved := sub_delivers defined finite
  obtain ⟨moves, difference⟩ :=
    moved.exact (nearest.short_sub (short_units a) (short_units b) larger) bounded
  have error : units b - units (a + b - a) = units a + units b - units (a + b) := by
    rw [difference]
    ring
  have taken := sub_delivers finite' moves
  rw [error] at taken
  obtain ⟨rests, rest⟩ := taken.exact (nearest.short_error (short_units a) (short_units b))
    ((nearest.error_le_right (short_units a)).trans_lt (abs_units_lt b))
  exact ⟨defined, rests, nearest, by rw [rest]; ring⟩

theorem units_abs (finite : Scalar.isFinite x = true) :
    Scalar.isFinite (Scalar.abs x) = true ∧ units (Scalar.abs x) = |units x| := by
  have order := neg_iff finite
  rw [Scalar.abs]
  split_ifs with negative
  · exact ⟨neg_finite finite, by rw [units_neg, abs_of_neg (order.mp negative)]⟩
  · exact ⟨finite, (abs_of_nonneg (not_lt.mp (mt order.mpr negative))).symm⟩

/-- The larger operand stands first. -/
theorem exists_addExact (x y : Float) : ∃ a b, (a = x ∧ b = y ∨ a = y ∧ b = x) ∧
    (Scalar.isFinite x = true → Scalar.isFinite y = true → |units b| ≤ |units a|) ∧
      Scalar.addExact x y = (a + b, b - (a + b - a)) := by
  by_cases smaller : Scalar.abs x < Scalar.abs y
  · refine ⟨y, x, .inr ⟨rfl, rfl⟩, fun finite finite' => ?_, by rw [Scalar.addExact, if_pos smaller]⟩
    obtain ⟨defined, magnitude⟩ := units_abs finite
    obtain ⟨defined', magnitude'⟩ := units_abs finite'
    rw [← magnitude, ← magnitude']
    exact ((lt_iff defined defined').mp smaller).le
  · refine ⟨x, y, .inl ⟨rfl, rfl⟩, fun finite finite' => ?_, by rw [Scalar.addExact, if_neg smaller]⟩
    obtain ⟨defined, magnitude⟩ := units_abs finite
    obtain ⟨defined', magnitude'⟩ := units_abs finite'
    rw [← magnitude, ← magnitude']
    exact not_lt.mp (mt (lt_iff defined defined').mpr smaller)

theorem addExact_splits (finite : Scalar.isFinite x = true) (finite' : Scalar.isFinite y = true)
    (defined : Scalar.isFinite (Scalar.addExact x y).1 = true) :
    Splits (units x + units y) (Scalar.addExact x y).1 (Scalar.addExact x y).2 := by
  obtain ⟨a, b, operands, larger, sum⟩ := exists_addExact x y
  rw [sum] at defined ⊢
  rcases operands with ⟨rfl, rfl⟩ | ⟨rfl, rfl⟩
  · exact splits_add finite finite' (larger finite finite') defined
  · rw [add_comm (units b)]
    exact splits_add finite' finite (larger finite finite') defined

theorem addExact_special (special : Scalar.isFinite x = false) :
    Scalar.isFinite (Scalar.addExact x y).1 = false := by
  obtain ⟨a, b, operands, -, sum⟩ := exists_addExact x y
  rw [sum]
  rcases operands with ⟨rfl, rfl⟩ | ⟨rfl, rfl⟩
  · exact add_special (.inl special)
  · exact add_special (.inr special)

end Exactly

section Expansions

variable {x y : Float} {parts : List Float} {s : ℤ}

/-- Parts of a number, smallest first. -/
structure Expansion (parts : List Float) (s : ℤ) : Prop where
  finite : ∀ p ∈ parts, Scalar.isFinite p = true
  nonzero : ∀ p ∈ parts, units p ≠ 0
  apart : (parts.map units).Pairwise Beneath
  sum : (parts.map units).sum = s

theorem absorb_special (special : Scalar.isFinite x = false) (parts : List Float) :
    Scalar.isFinite (Scalar.absorb x parts).1 = false := by
  induction parts generalizing x with
  | nil => exact special
  | cons y parts ih => exact ih (addExact_special special)

/-- What is left of a number and the errors that it leaves behind. -/
structure Absorbs (x : Float) (parts : List Float) (rest : Float) (errors : List Float) : Prop where
  finite : ∀ e ∈ errors, Scalar.isFinite e = true
  nonzero : ∀ e ∈ errors, units e ≠ 0
  sum : (errors.map units).sum + units rest = units x + (parts.map units).sum
  dvd : ∀ k : ℕ, 2 ^ k ∣ units x → (∀ p ∈ parts, 2 ^ k ∣ units p) → ∀ q ∈ errors ++ [rest], 2 ^ k ∣ units q
  apart : (parts.map units).Pairwise Beneath → ((errors ++ [rest]).map units).Pairwise Beneath

theorem absorb_absorbs (finite : Scalar.isFinite x = true) (each : ∀ p ∈ parts, Scalar.isFinite p = true)
    (defined : Scalar.isFinite (Scalar.absorb x parts).1 = true) :
    Absorbs x parts (Scalar.absorb x parts).1 (Scalar.absorb x parts).2 := by
  induction parts generalizing x with
  | nil =>
    constructor <;> simp [Scalar.absorb]
  | cons y parts ih =>
    obtain ⟨finite', others⟩ := List.forall_mem_cons.mp each
    have reached : Scalar.isFinite (Scalar.addExact x y).1 = true := by
      by_contra special
      rw [Bool.not_eq_true] at special
      exact absurd defined (Bool.not_eq_true _ ▸ absorb_special special parts)
    have splits := addExact_splits finite finite' reached
    have absorbs := ih reached others defined
    have kept (k : ℕ) (divides : 2 ^ k ∣ units x) (divides' : 2 ^ k ∣ units y) :=
      splits.nearest.dvd (dvd_add divides divides')
    have rest (k : ℕ) (divides : 2 ^ k ∣ units x) (each : ∀ p ∈ y :: parts, 2 ^ k ∣ units p) :=
      absorbs.dvd k (kept k divides (List.forall_mem_cons.mp each).1) (List.forall_mem_cons.mp each).2
    have sum := splits.sum
    have total := absorbs.sum
    rw [Scalar.absorb]
    dsimp only
    split_ifs with exactly
    · -- The addition was exact and leaves no error.
      rw [beq_iff splits.rest_finite isFinite_zero, units_zero] at exactly
      refine ⟨absorbs.finite, absorbs.nonzero, ?_, rest, fun apart => absorbs.apart apart.of_cons⟩
      rw [List.map_cons, List.sum_cons]
      omega
    · rw [beq_iff splits.rest_finite isFinite_zero, units_zero] at exactly
      refine ⟨List.forall_mem_cons.mpr ⟨splits.rest_finite, absorbs.finite⟩,
        List.forall_mem_cons.mpr ⟨exactly, absorbs.nonzero⟩, ?_, fun k divides each => ?_, fun apart => ?_⟩
      · simp only [List.map_cons, List.sum_cons]
        omega
      · refine List.forall_mem_cons.mpr ⟨?_, rest k divides each⟩
        rw [show units (Scalar.addExact x y).2 = units x + units y - units (Scalar.addExact x y).1 by omega]
        have last := (List.forall_mem_cons.mp each).1
        exact dvd_sub (dvd_add divides last) (kept k divides last)
      · obtain ⟨below, apart⟩ := List.pairwise_cons.mp apart
        refine List.pairwise_cons.mpr ⟨?_, absorbs.apart apart⟩
        have smaller : |units (Scalar.addExact x y).2| ≤ |units y| := by
          have error := splits.nearest.error_le_right (short_units x)
          rwa [← sum, add_sub_cancel_left] at error
        -- The error is beneath the sum and, being smaller than the part, beneath the later parts.
        obtain ⟨k, less, divides⟩ := exists_unit (List.forall_mem_cons.mpr
          ⟨splits.beneath, fun p member => (below p member).mono smaller⟩)
        obtain ⟨first, later⟩ := List.forall_mem_cons.mp divides
        refine List.forall_mem_map.mpr fun q member => ⟨k, less, ?_⟩
        exact absorbs.dvd k first (List.forall_mem_map.mp later) q member

end Expansions

section Midpoints

variable {s l d g : ℤ} {k : ℕ}

/-- Above the first number there is none that can be stored and is nearer to the second. -/
def Covers (t total : ℤ) : Prop :=
  ∀ g, Short g → g < 2 ^ 2098 → 0 < t → t < g → 2 * total ≤ t + g

theorem covers_self (t : ℤ) : Covers t t :=
  fun g _ _ _ above => by omega

section Nearest

variable (nearest : Nearest ((s + l : ℤ) : ℝ) s)

include nearest

theorem le_of_above (short : Short g) (above : s < g) : s + 2 * l ≤ g := by
  have least := nearest.least_int short
  rw [add_sub_cancel_left] at least
  rcases abs_cases l with ⟨same, _⟩ | ⟨same, _⟩ <;>
    rcases abs_cases (s + l - g) with ⟨same', _⟩ | ⟨same', _⟩ <;> omega

theorem le_of_below (short : Short g) (below : g < s) : g ≤ s + 2 * l := by
  have least := nearest.least_int short
  rw [add_sub_cancel_left] at least
  rcases abs_cases l with ⟨same, _⟩ | ⟨same, _⟩ <;>
    rcases abs_cases (s + l - g) with ⟨same', _⟩ | ⟨same', _⟩ <;> omega

/-- What is left over does not matter unless it adds to the rest. -/
theorem covers_of_opposite (less : |d| < 2 ^ k) (divides' : 2 ^ k ∣ l) (opposite : d ≤ 0 ∨ l < 0) :
    Covers s (s + l + d) := by
  intro g short _ _ above
  have beyond := le_of_above nearest short above
  rcases opposite with down | down
  · omega
  · have least : (2 : ℤ) ^ k ≤ |l| := Int.le_of_dvd (abs_pos.mpr down.ne) ((dvd_abs _ _).mpr divides')
    have ⟨_, high⟩ := abs_lt.mp less
    rw [abs_of_neg down] at least
    omega

/-- Twice the rest leads to a number that can be stored. -/
theorem covers_of_moved (less : |d| < 2 ^ k) (divides' : 2 ^ k ∣ l) (moves : l < 0 ∧ d < 0 ∨ 0 < l) :
    Covers (s + 2 * l) (s + l + d) := by
  intro g short _ _ above
  rcases moves with ⟨down, below⟩ | up
  · have atLeast : s ≤ g := by
      by_contra between
      have beyond := le_of_below nearest short (not_le.mp between)
      omega
    omega
  · have least : (2 : ℤ) ^ k ≤ l := Int.le_of_dvd up divides'
    have ⟨_, high⟩ := abs_lt.mp less
    omega

/-- Where twice the rest leads to no such number, the next one is too far for what is left over to matter. -/
theorem covers_of_stuck (less : |d| < 2 ^ k) (divides : 2 ^ k ∣ s) (divides' : 2 ^ k ∣ l) (up : 0 < l)
    (stuck : ¬ (Short (s + 2 * l) ∧ |s + 2 * l| < 2 ^ 2098)) : Covers s (s + l + d) := by
  intro g short inRange positive above
  have beyond := le_of_above nearest short above
  have long : ¬ Short (s + 2 * l) := fun short' => by
    refine stuck ⟨short', ?_⟩
    rw [abs_of_pos (by omega)]
    omega
  have large : 2 ^ (53 + k) < s + 2 * l := by
    by_contra small
    refine long (.of_dvd (dvd_add divides (divides'.mul_left 2)) ?_)
    rw [abs_of_pos (by omega)]
    omega
  have atLeast : 2 ^ (53 + k) ≤ s := by
    by_contra small
    have between := le_of_above nearest (.two_pow (53 + k)) (not_le.mp small)
    omega
  -- So all three are multiples of twice the unit.
  have unit : 2 ^ (k + 1) ∣ g - (s + 2 * l) := by
    have grid {n : ℤ} (short : Short n) (atLeast : 2 ^ (53 + k) ≤ n) : 2 ^ (k + 1) ∣ n := by
      refine short.dvd ?_
      rw [show 52 + (k + 1) = 53 + k by omega]
      exact atLeast.trans (le_abs_self n)
    refine dvd_sub (grid short (by omega)) (dvd_add (grid nearest.short atLeast) ?_)
    rw [pow_succ, mul_comm]
    exact mul_dvd_mul_left 2 divides'
  have apart : g ≠ s + 2 * l := by
    rintro rfl
    exact long short
  have gap := Int.le_of_dvd (by omega) unit
  have ⟨_, high⟩ := abs_lt.mp less
  rw [pow_succ] at gap
  omega

end Nearest

end Midpoints

section Result

open Scalar PartialSum

variable {x high low : Float} {parts rest : List Float} {s : ℤ}

/-- Parts of a number, largest first. -/
structure Descends (parts : List Float) : Prop where
  finite : ∀ p ∈ parts, Scalar.isFinite p = true
  nonzero : ∀ p ∈ parts, units p ≠ 0
  apart : (parts.map units).Pairwise fun q p => Beneath p q

theorem descends_cons : Descends (x :: rest) ↔
    (Scalar.isFinite x = true ∧ units x ≠ 0 ∧ ∀ p ∈ rest, Beneath (units p) (units x)) ∧ Descends rest := by
  constructor
  · rintro ⟨finite, nonzero, apart⟩
    obtain ⟨below, apart⟩ := List.pairwise_cons.mp apart
    obtain ⟨first, finite⟩ := List.forall_mem_cons.mp finite
    obtain ⟨some, nonzero⟩ := List.forall_mem_cons.mp nonzero
    exact ⟨⟨first, some, fun p member => below _ (List.mem_map_of_mem member)⟩, finite, nonzero, apart⟩
  · rintro ⟨⟨first, some, below⟩, finite, nonzero, apart⟩
    exact ⟨List.forall_mem_cons.mpr ⟨first, finite⟩, List.forall_mem_cons.mpr ⟨some, nonzero⟩,
      List.pairwise_cons.mpr ⟨List.forall_mem_map.mpr below, apart⟩⟩

theorem Descends.sum_beneath (descends : Descends parts) {q : ℤ} (beneath : ∀ p ∈ parts, Beneath (units p) q) :
    Beneath (parts.map units).sum q :=
  Beneath.sum (List.forall_mem_map.mpr descends.nonzero) descends.apart (List.forall_mem_map.mpr beneath)

/-- The smaller parts do not decide on the sign. -/
theorem Descends.abs_sum_lt (descends : Descends (x :: rest)) : |(rest.map units).sum| < |units x| := by
  obtain ⟨⟨-, some, below⟩, descends⟩ := descends_cons.mp descends
  exact (descends.sum_beneath below).abs_lt some

/-- An exact sum takes the place of the two largest parts. -/
theorem Descends.merge (descends : Descends (high :: x :: rest)) (finite : Scalar.isFinite (high + x) = true)
    (same : units (high + x) = units high + units x) : Descends ((high + x) :: rest) := by
  obtain ⟨⟨-, some, below⟩, tail⟩ := descends_cons.mp descends
  obtain ⟨⟨-, -, below'⟩, tail⟩ := descends_cons.mp tail
  obtain ⟨first, later⟩ := List.forall_mem_cons.mp below
  refine descends_cons.mpr ⟨⟨finite, fun none => ?_, fun p member => ?_⟩, tail⟩
  · have smaller := first.abs_lt some
    rw [show units x = -units high by omega, abs_neg] at smaller
    exact smaller.false
  · rw [same]
    exact (later p member).add (below' p member)

/-- The number is rounded from the total, or out of range. -/
def Rounded (total : ℤ) (t : Float) : Prop :=
  t.toModel.unpack.isInf = true ∨ Scalar.isFinite t = true ∧ Covers (units t) total

theorem settle_infinite (infinite : high.toModel.unpack.isInf = true) (low : Float) (rest : List Float) :
    settle (high, low, rest) = high := by
  cases rest with
  | nil => rfl
  | cons next rest =>
    simp only [settle, infinite_sub infinite, Bool.false_eq_true, if_false, ite_self]

/-- Twice the rest is added without a rest of its own if it can be taken away again. -/
theorem moved_iff {doubled : Float} (finite : Scalar.isFinite high = true)
    (finite' : Scalar.isFinite doubled = true) (smaller : |units doubled| ≤ |units high|) :
    (high + doubled - high == doubled) = true ↔
      Scalar.isFinite (high + doubled) = true ∧ units (high + doubled) = units high + units doubled := by
  have added := add_delivers finite finite'
  constructor
  · intro comes
    have back := isFinite_of_beq comes finite'
    have moves : Scalar.isFinite (high + doubled) = true := by
      by_contra special
      rw [Bool.not_eq_true] at special
      rw [sub_special (.inl special)] at back
      cases back
    have nearest := added.nearest moves
    obtain ⟨-, difference⟩ := (sub_delivers moves finite).exact
      (nearest.short_sub (short_units high) (short_units doubled) smaller)
      ((nearest.abs_sub_le_max smaller).trans_lt (max_lt (abs_units_lt _) (abs_units_lt _)))
    rw [beq_iff back finite', difference] at comes
    exact ⟨moves, by omega⟩
  · rintro ⟨moves, sum⟩
    have difference : units (high + doubled) - units high = units doubled := by omega
    have taken := sub_delivers moves finite
    rw [difference] at taken
    obtain ⟨back, same⟩ := taken.exact (short_units doubled) (abs_units_lt doubled)
    exact (beq_iff back finite').mpr same

theorem settle_rounded (splits : Splits s high low) (nonzero : units low ≠ 0)
    (small : |2 * units low| < 2 ^ 2098) (descends : Descends rest) {k : ℕ}
    (less : |(rest.map units).sum| < 2 ^ k) (divides : 2 ^ k ∣ units high) (divides' : 2 ^ k ∣ units low) :
    Rounded (units high + units low + (rest.map units).sum) (settle (high, low, rest)) := by
  have nearest : Nearest ((units high + units low : ℤ) : ℝ) (units high) := splits.sum.symm ▸ splits.nearest
  have finite := splits.finite
  have finite' := splits.rest_finite
  right
  cases rest with
  | nil => exact ⟨finite, covers_of_opposite nearest less divides' (.inl le_rfl)⟩
  | cons next rest =>
    have smaller := descends.abs_sum_lt
    obtain ⟨⟨defined, some, -⟩, -⟩ := descends_cons.mp descends
    have sides : low < 0 ∧ next < 0 ∨ 0 < low ∧ 0 < next ↔
        units low < 0 ∧ units next < 0 ∨ 0 < units low ∧ 0 < units next := by
      rw [neg_iff finite', neg_iff defined, lt_iff isFinite_zero finite', lt_iff isFinite_zero defined,
        units_zero]
    rw [List.map_cons, List.sum_cons] at less ⊢
    have ⟨low', high'⟩ := abs_lt.mp smaller
    have doubles := add_delivers finite' finite'
    rw [← two_mul] at doubles
    obtain ⟨defined', doubled⟩ := doubles.exact (short_units low).double small
    have moves := moved_iff finite defined' (doubled ▸ nearest.double_error_le (short_units low) nonzero)
    rw [doubled] at moves
    simp only [settle]
    split_ifs with aside comes
    · obtain ⟨defined'', moved⟩ := moves.mp comes
      refine ⟨defined'', moved ▸ covers_of_moved nearest less divides' ?_⟩
      rcases sides.mp aside with ⟨down, down'⟩ | ⟨up, -⟩
      · rw [abs_of_neg down'] at high'
        exact .inl ⟨down, by omega⟩
      · exact .inr up
    · -- Were the number that twice the rest leads to in range, it would have been found.
      refine ⟨finite, ?_⟩
      have stuck : ¬ (Short (units high + 2 * units low) ∧ |units high + 2 * units low| < 2 ^ 2098) := by
        rintro ⟨short, inRange⟩
        have added := add_delivers finite defined'
        rw [doubled] at added
        exact comes (moves.mpr (added.exact short inRange))
      rcases sides.mp aside with ⟨down, -⟩ | ⟨up, -⟩
      · exact covers_of_opposite nearest less divides' (.inr down)
      · exact covers_of_stuck nearest less divides divides' up stuck
    · refine ⟨finite, covers_of_opposite nearest less divides' ?_⟩
      rw [sides] at aside
      rcases abs_cases (units next) with ⟨same, _⟩ | ⟨same, _⟩ <;> omega

/-- After an addition that is not exact all other parts are smaller than its error. -/
theorem Descends.rounded_settle (descends : Descends (high :: x :: rest)) {sum : Float}
    (splits : Splits (units high + units x) sum low) (nonzero : units low ≠ 0) :
    Rounded ((high :: x :: rest).map units).sum (settle (sum, low, rest)) := by
  obtain ⟨⟨-, some, below⟩, tail⟩ := descends_cons.mp descends
  obtain ⟨⟨-, -, below'⟩, tail⟩ := descends_cons.mp tail
  obtain ⟨first, later⟩ := List.forall_mem_cons.mp below
  have error := splits.nearest.error_le_right (short_units high)
  rw [← splits.sum, add_sub_cancel_left] at error
  have total : ((high :: x :: rest).map units).sum = units sum + units low + (rest.map units).sum := by
    rw [splits.sum, List.map_cons, List.map_cons, List.sum_cons, List.sum_cons, add_assoc]
  obtain ⟨k, less, divides, divides'⟩ := (tail.sum_beneath later).both (tail.sum_beneath below')
  have kept := splits.nearest.dvd (dvd_add divides divides')
  have kept' : 2 ^ k ∣ units low := by
    rw [show units low = units high + units x - units sum by rw [← splits.sum]; ring]
    exact dvd_sub (dvd_add divides divides') kept
  rw [total]
  exact settle_rounded splits nonzero
    ((first.mono error).double_lt some (abs_units_lt high)) tail less kept kept'

theorem collapse_rounded (descends : Descends (high :: rest)) :
    Rounded ((high :: rest).map units).sum (settle (collapse high rest)) := by
  induction rest generalizing high with
  | nil =>
    obtain ⟨⟨finite, -⟩, -⟩ := descends_cons.mp descends
    refine .inr ⟨finite, ?_⟩
    rw [List.map_singleton, List.sum_singleton]
    exact covers_self _
  | cons y rest ih =>
    obtain ⟨⟨finite, some, below⟩, tail⟩ := descends_cons.mp descends
    obtain ⟨⟨finite', -⟩, -⟩ := descends_cons.mp tail
    rw [collapse]
    by_cases reached : Scalar.isFinite (high + y) = true
    · have splits := splits_add finite finite' ((below y List.mem_cons_self).abs_lt some).le reached
      have exact_iff := beq_iff splits.rest_finite isFinite_zero
      rw [units_zero] at exact_iff
      split_ifs with exactly
      · have same : units (high + y) = units high + units y := by
          rw [← splits.sum, exact_iff.mp exactly, add_zero]
        have total : ((high :: y :: rest).map units).sum = (((high + y) :: rest).map units).sum := by
          rw [List.map_cons, List.map_cons, List.map_cons, List.sum_cons, List.sum_cons, List.sum_cons, same,
            add_assoc]
        rw [total]
        exact ih (descends.merge reached same)
      · exact descends.rounded_settle splits (mt exact_iff.mpr exactly)
    · -- Out of range there is no error that could be zero.
      rw [Bool.not_eq_true] at reached
      have infinite := (add_delivers finite finite').isInf reached
      have special : Scalar.isFinite (y - (high + y - high)) = false :=
        sub_special (.inr (sub_special (.inl reached)))
      split_ifs with exactly
      · rw [isFinite_of_beq exactly isFinite_zero] at special
        cases special
      · rw [settle_infinite infinite]
        exact .inl infinite

/-- Only finite numbers have been added, and the parts are those of their sum. -/
structure Keeps (sum : PartialSum Float) (s : ℤ) : Prop where
  special : sum.special = 0
  parts : Expansion sum.parts s

theorem keeps_zero : Keeps .zero 0 :=
  ⟨rfl, by constructor <;> simp [PartialSum.zero]⟩

theorem Keeps.add {sum sum' : PartialSum Float} (keeps : Keeps sum s) (finite : Scalar.isFinite x = true)
    (added : sum.add x = .ok sum') : Keeps sum' (s + units x) := by
  obtain ⟨special, parts⟩ := keeps
  rw [PartialSum.add] at added
  dsimp only at added
  by_cases reached : Scalar.isFinite (absorb x sum.parts).1 = true
  · have absorbs := absorb_absorbs finite parts.finite reached
    have apart := absorbs.apart parts.apart
    have total := absorbs.sum
    rw [parts.sum] at total
    rw [if_pos reached] at added
    split_ifs at added with none
    · rw [beq_iff reached isFinite_zero, units_zero] at none
      cases added
      rw [List.map_append] at apart
      exact ⟨special, absorbs.finite, absorbs.nonzero, (List.pairwise_append.mp apart).1, by dsimp only; omega⟩
    · rw [beq_iff reached isFinite_zero, units_zero] at none
      cases added
      refine ⟨special, ?_, ?_, apart, ?_⟩
      · simpa [or_imp, forall_and] using ⟨absorbs.finite, reached⟩
      · simpa [or_imp, forall_and] using ⟨absorbs.nonzero, none⟩
      · simp only [List.map_append, List.sum_append, List.map_singleton, List.sum_singleton]
        omega
  · split_ifs at added with none
    rw [isFinite_of_beq none isFinite_zero] at reached
    exact absurd rfl reached

theorem Keeps.result {sum : PartialSum Float} {t : Float} (keeps : Keeps sum s) (result : sum.result = .ok t) :
    Rounded s t := by
  obtain ⟨special, parts⟩ := keeps
  have zero : ((0 : Float) == 0) = true := by decide +kernel
  rw [PartialSum.result, special, if_pos zero] at result
  cases form : sum.parts.reverse with
  | nil =>
    rw [form] at result
    cases result
    have none : s = 0 := by
      rw [← parts.sum, List.reverse_eq_nil_iff.mp form]
      rfl
    exact .inr ⟨isFinite_zero, none ▸ covers_self 0⟩
  | cons high rest =>
    rw [form] at result
    cases result
    have total : ((high :: rest).map units).sum = s := by
      rw [← form, List.map_reverse, List.sum_reverse, parts.sum]
    have apart : ((high :: rest).map units).Pairwise fun q p => Beneath p q := by
      rw [← form, List.map_reverse, List.pairwise_reverse]
      exact parts.apart
    have mem (p : Float) : p ∈ high :: rest ↔ p ∈ sum.parts := by
      rw [← form, List.mem_reverse]
    rw [← total]
    exact collapse_rounded ⟨fun p member => parts.finite p ((mem p).mp member),
      fun p member => parts.nonzero p ((mem p).mp member), apart⟩

theorem foldlM_keeps {xs : List Float} (finite : ∀ x ∈ xs, Scalar.isFinite x = true)
    {sum sum' : PartialSum Float} (keeps : Keeps sum s) (folded : xs.foldlM PartialSum.add sum = .ok sum') :
    Keeps sum' (s + (xs.map units).sum) := by
  induction xs generalizing sum s with
  | nil =>
    cases folded
    simpa using keeps
  | cons x xs ih =>
    obtain ⟨first, others⟩ := List.forall_mem_cons.mp finite
    rw [List.foldlM_cons] at folded
    cases added : sum.add x with
    | error fault =>
      rw [added] at folded
      cases folded
    | ok next =>
      rw [added] at folded
      rw [List.map_cons, List.sum_cons, ← add_assoc]
      exact ih others (keeps.add first added) folded

/-- What doubles add up to is their sum, rounded to a number that is not too small, unless it is out of
range. -/
theorem sum_rounded {xs : List Float} (finite : ∀ x ∈ xs, Scalar.isFinite x = true) {t : Float}
    (summed : Scalar.sum xs = .ok t) : Rounded (xs.map units).sum t := by
  rw [Scalar.sum] at summed
  cases folded : xs.foldlM PartialSum.add PartialSum.zero with
  | error fault =>
    rw [folded] at summed
    cases summed
  | ok sum =>
    rw [folded] at summed
    have keeps := foldlM_keeps finite keeps_zero folded
    rw [zero_add] at keeps
    exact keeps.result summed

end Result

end ChanceGraph.Binary64
