import ChanceGraph.Scalar.Binary64
import ChanceGraph.Proofs.Rounding

/-!
What the operations on doubles do.  Every finite double is a multiple of the least positive one, and a sum, a
difference or a quotient is the short multiple nearest to the exact result, if that is in range.
-/

set_option autoImplicit false

namespace ChanceGraph.Binary64

open Float.Model UnpackedFloat

section Mantissas

variable {em : ExtendedMantissa} {v : ℝ}

/-- The number of which the mantissa and the bits behind it are kept. -/
def Represents (em : ExtendedMantissa) (v : ℝ) : Prop :=
  match em.roundBit, em.stickyBit with
  | false, false => v = em.mantissa
  | false, true => em.mantissa < v ∧ v + v < em.mantissa + em.mantissa + 1
  | true, false => v + v = em.mantissa + em.mantissa + 1
  | true, true => em.mantissa + em.mantissa + 1 < v + v ∧ v < em.mantissa + 1

theorem Represents.shiftRightOne (represents : Represents em v) : Represents em.shiftRightOne (v / 2) := by
  obtain ⟨m, round, sticky⟩ := em
  obtain ⟨q, rfl | rfl⟩ := Nat.even_or_odd' m
  · have half : 2 * q / 2 = q := by omega
    have even : (2 * q % 2 != 0) = false := by simp
    cases round <;> cases sticky <;>
      simp_all [Represents, ExtendedMantissa.shiftRightOne] <;>
      (try constructor) <;> linarith
  · have half : (2 * q + 1) / 2 = q := by omega
    have odd : ((2 * q + 1) % 2 != 0) = true := by simp
    cases round <;> cases sticky <;>
      simp_all [Represents, ExtendedMantissa.shiftRightOne] <;>
      (try constructor) <;> linarith

theorem Represents.shiftRight (represents : Represents em v) (n : ℕ) : Represents (em >>> n) (v / 2 ^ n) := by
  induction n with
  | zero =>
    rw [pow_zero, div_one]
    exact represents
  | succ n ih =>
    rw [pow_succ, ← div_div]
    exact ih.shiftRightOne

theorem Represents.rounded (represents : Represents em v) : |v - em.roundedMantissa| ≤ 1 / 2 := by
  obtain ⟨m, round, sticky⟩ := em
  rw [abs_le]
  cases round <;> cases sticky <;>
    simp only [Represents, ExtendedMantissa.roundedMantissa, ExtendedMantissa.accuracy,
      Accuracy.roundToNearestEven] at represents ⊢
  · constructor <;> linarith
  · constructor <;> linarith
  · rcases Nat.mod_two_eq_zero_or_one m with even | odd
    · rw [even]
      push_cast
      constructor <;> linarith
    · rw [odd]
      push_cast
      constructor <;> linarith
  · push_cast
    constructor <;> linarith

theorem Represents.between (represents : Represents em v) : em.mantissa ≤ v ∧ v < em.mantissa + 1 := by
  obtain ⟨m, round, sticky⟩ := em
  cases round <;> cases sticky <;> simp only [Represents] at represents ⊢ <;> constructor <;> linarith

theorem mantissa_ofMantissaAndAccuracy (m : ℕ) (acc : Accuracy) :
    (ExtendedMantissa.ofMantissaAndAccuracy m acc).mantissa = m := by
  rcases acc with _ | _ | _ | _ <;> rfl

theorem represents_exact (m : ℕ) : Represents (.ofMantissaAndAccuracy m .exact) m :=
  rfl

end Mantissas

section Rounding

/-- The number in units of the least positive double. -/
def value : UnpackedFloat → ℤ
  | .finite s m e _ => s.apply (m * 2 ^ (e + 1074).toNat)
  | _ => 0

/-- The form in which a number has one mantissa and one exponent only. -/
def Canonical : UnpackedFloat → Prop
  | .finite _ m e _ => m < 2 ^ 53 ∧ -1074 ≤ e ∧ (2 ^ 52 ≤ m ∨ e = -1074)
  | _ => True

/-- A number in canonical form that is nearest to the given one, whatever its size. -/
structure Rounds (u : UnpackedFloat) (r : ℝ) : Prop where
  canonical : Canonical u
  finite : u.isFinite = true
  nearest : Nearest r (value u)

def signed (s : Sign) (r : ℝ) : ℝ :=
  match s with
  | .negative => -r
  | .positive => r

theorem target_eq (m : ℕ) (e : ℤ) :
    Format.binary64.targetExponent (totalExponent m e) = max (m.log2 + 1 + e - 53) (-1074) :=
  rfl

/-- Of the first shift: the mantissa is then rounded to a multiple of a unit that is not too fine for it. -/
theorem shifted {m : ℕ} {e : ℤ} {acc : Accuracy} {v : ℝ}
    (represents : Represents (.ofMantissaAndAccuracy m acc) v)
    (coarse : e ≤ Format.binary64.targetExponent (totalExponent m e)) (some : 0 < m ∨ e ≤ -1074) :
    ∃ (em : ExtendedMantissa) (t : ℤ) (v' : ℝ), shiftToTargetExponent Format.binary64 m e acc = (em, t) ∧
      Represents em v' ∧ -1074 ≤ t ∧ v * 2 ^ (e + 1074) = v' * 2 ^ (t + 1074).toNat ∧ v' < 2 ^ 53 ∧
      (t = -1074 ∨ 2 ^ 52 ≤ v') := by
  set t := Format.binary64.targetExponent (totalExponent m e) with target
  rw [target_eq] at target
  obtain ⟨n, apart⟩ : ∃ n : ℕ, t = e + n := ⟨(t - e).toNat, by omega⟩
  have places : (t - e).toNat = n := by omega
  have ⟨least, most⟩ := represents.between
  rw [mantissa_ofMantissaAndAccuracy] at least most
  refine ⟨_, t, v / 2 ^ n, ?_, represents.shiftRight n, by omega, ?_, ?_, ?_⟩
  · change shiftToExponent m e acc t = _
    rw [shiftToExponent, places, ← apart]
  · have unit : (2 : ℝ) ^ (t + 1074).toNat = 2 ^ n * 2 ^ (e + 1074) := by
      rw [← zpow_natCast, ← zpow_natCast, ← zpow_add₀ two_ne_zero]
      congr 1
      omega
    rw [unit, ← mul_assoc, div_mul_cancel₀ _ (by positivity)]
  · have digits : ((m : ℝ) + 1) ≤ 2 ^ (53 + n) := by
      have below := Nat.lt_log2_self (n := m)
      have places : m.log2 + 1 ≤ 53 + n := by omega
      exact_mod_cast below.trans_le (Nat.pow_le_pow_right two_pos places)
    rw [div_lt_iff₀ (by positivity), ← pow_add]
    linarith
  · by_cases least' : t = -1074
    · exact .inl least'
    · have nonzero : m ≠ 0 := by
        rintro rfl
        rw [Nat.log2_zero] at target
        omega
      have digits : (2 : ℝ) ^ (52 + n) ≤ m := by
        have above := Nat.log2_self_le nonzero
        have places : 52 + n = m.log2 := by omega
        rw [places]
        exact_mod_cast above
      right
      rw [le_div_iff₀ (by positivity), ← pow_add]
      linarith

/-- Of the second shift: it only takes back a bit that rounding has added. -/
theorem settled {m : ℕ} {t : ℤ} (most : m ≤ 2 ^ 53) (least : -1074 ≤ t) (normal : t = -1074 ∨ 2 ^ 52 ≤ m) :
    ∃ (em : ExtendedMantissa) (e : ℤ), shiftToTargetExponent Format.binary64 m t .exact = (em, e) ∧
      em.mantissa * 2 ^ (e + 1074).toNat = m * 2 ^ (t + 1074).toNat ∧
      em.mantissa < 2 ^ 53 ∧ -1074 ≤ e ∧ (2 ^ 52 ≤ em.mantissa ∨ e = -1074) := by
  rcases most.lt_or_eq with less | rfl
  · have digits : m.log2 < 53 := by
      by_cases zero : m = 0
      · simp [zero]
      · exact (Nat.log2_lt zero).mpr less
    have stays : Format.binary64.targetExponent (totalExponent m t) ≤ t := by
      rw [target_eq]
      omega
    refine ⟨.ofMantissaAndAccuracy m .exact, t, ?_, rfl, less, least, normal.symm⟩
    rw [shiftToTargetExponent, shiftToExponent, Int.toNat_of_nonpos (by omega)]
    simp only [Nat.cast_zero, add_zero]
    rfl
  · have moves : Format.binary64.targetExponent (totalExponent (2 ^ 53) t) = t + 1 := by
      rw [target_eq, Nat.log2_two_pow]
      omega
    have one : (t + 1 - t).toNat = 1 := by omega
    refine ⟨(ExtendedMantissa.ofMantissaAndAccuracy (2 ^ 53) .exact).shiftRightOne, t + 1, ?_, ?_, ?_,
      by omega, ?_⟩
    · rw [shiftToTargetExponent, moves, shiftToExponent, one]
      rfl
    · change 2 ^ 53 / 2 * 2 ^ (t + 1 + 1074).toNat = 2 ^ 53 * 2 ^ (t + 1074).toNat
      rw [show (t + 1 + 1074).toNat = (t + 1074).toNat + 1 by omega, pow_succ _ (t + 1074).toNat]
      omega
    · change 2 ^ 53 / 2 < 2 ^ 53
      norm_num
    · left
      change 2 ^ 52 ≤ 2 ^ 53 / 2
      norm_num

theorem nearest_signed {r : ℝ} {n : ℤ} (nearest : Nearest r n) (s : Sign) :
    Nearest (signed s r) (s.apply n) := by
  cases s with
  | negative => exact nearest.neg
  | positive => exact nearest

theorem roundWithAccuracy_rounds (s : Sign) {m : ℕ} {e : ℤ} {acc : Accuracy} {v : ℝ}
    (represents : Represents (.ofMantissaAndAccuracy m acc) v)
    (coarse : e ≤ Format.binary64.targetExponent (totalExponent m e)) (some : 0 < m ∨ e ≤ -1074) :
    Rounds (roundWithAccuracy Format.binary64 s m e acc) (signed s (v * 2 ^ (e + 1074))) := by
  obtain ⟨em, t, v', shift, represents', least, same, below, normal⟩ := shifted represents coarse some
  have close := represents'.rounded
  have ⟨low, high⟩ := abs_le.mp close
  set m' := em.roundedMantissa with rounded
  have most : m' ≤ 2 ^ 53 := by
    have atMost : (m' : ℝ) < 2 ^ 53 + 1 := by linarith
    exact Nat.lt_succ_iff.mp (by exact_mod_cast atMost)
  have normal' : t = -1074 ∨ 2 ^ 52 ≤ m' := by
    refine normal.imp_right fun large => ?_
    have atLeast : (2 : ℝ) ^ 52 < m' + 1 := by linarith
    exact Nat.lt_succ_iff.mp (by exact_mod_cast atLeast)
  obtain ⟨em', e', shift', worth, less, least', full⟩ := settled most least normal'
  have nearest : Nearest (v * 2 ^ (e + 1074)) ((m' * 2 ^ (t + 1074).toNat : ℕ) : ℤ) := by
    rw [same]
    have short : Short ((m' * 2 ^ (t + 1074).toNat : ℕ) : ℤ) := by
      rw [← worth]
      exact ⟨em'.mantissa, (e' + 1074).toNat, by push_cast; ring, by rw [Nat.abs_cast]; exact_mod_cast less⟩
    refine .of_unit short (by push_cast; ring : _ = (m' : ℤ) * 2 ^ (t + 1074).toNat) ?_ ?_
    · push_cast
      rw [← sub_mul, abs_mul, abs_of_pos (by positivity : (0 : ℝ) < 2 ^ (t + 1074).toNat)]
      nlinarith [pow_pos (two_pos : (0 : ℝ) < 2) (t + 1074).toNat]
    · refine normal.imp (fun bottom => by omega) fun large => ?_
      rw [abs_of_nonneg (by positivity), pow_add]
      exact mul_le_mul_of_nonneg_right large (by positivity)
  have signedNearest := nearest_signed nearest s
  rw [← worth] at signedNearest
  rw [roundWithAccuracy]
  simp only [shift, ← rounded, shift']
  split_ifs with none
  · rw [none, zero_mul] at signedNearest
    exact ⟨trivial, rfl, by cases s <;> exact signedNearest⟩
  · exact ⟨⟨less, least', full⟩, rfl, by exact_mod_cast signedNearest⟩

theorem short_value {u : UnpackedFloat} (canonical : Canonical u) : Short (value u) := by
  cases u with
  | finite s m e _ =>
    have short : Short (m * 2 ^ (e + 1074).toNat : ℤ) :=
      ⟨m, _, rfl, by rw [Nat.abs_cast]; exact_mod_cast canonical.1⟩
    cases s with
    | negative => exact short.neg
    | positive => exact short
  | zero => exact .zero
  | infinity => exact .zero
  | notANumber => exact .zero

theorem rounds_self {u : UnpackedFloat} (canonical : Canonical u) (finite : u.isFinite = true) :
    Rounds u (value u) :=
  ⟨canonical, finite, short_value canonical, fun g _ => by simp⟩

theorem log2_mul_two_pow {m : ℕ} (nonzero : m ≠ 0) (j : ℕ) : (m * 2 ^ j).log2 = m.log2 + j := by
  induction j with
  | zero => simp
  | succ j ih =>
    rw [pow_succ, ← mul_assoc, mul_comm, Nat.log2_two_mul (by positivity), ih, Nat.add_assoc]

theorem round_rounds (s : Sign) {m : ℕ} {e : ℤ} (positive : 0 < m) (least : -1074 ≤ e) :
    Rounds (UnpackedFloat.round Format.binary64 s m e) ((s.apply (m * 2 ^ (e + 1074).toNat) : ℤ) : ℝ) := by
  set t := Format.binary64.targetExponent (totalExponent m e) with target
  set j := (e - t).toNat with places
  have same : Format.binary64.targetExponent (totalExponent (m * 2 ^ j) (e - j)) = t := by
    rw [target, target_eq, target_eq, log2_mul_two_pow positive.ne']
    push_cast
    omega
  have rounds := roundWithAccuracy_rounds s (represents_exact (m * 2 ^ j)) (e := e - j) (by omega)
    (.inl (by positivity))
  have exactly : ((m * 2 ^ j : ℕ) : ℝ) * 2 ^ (e - j + 1074) = ((m * 2 ^ (e + 1074).toNat : ℤ) : ℝ) := by
    have unit : (2 : ℝ) ^ (e + 1074).toNat = 2 ^ j * 2 ^ (e - j + 1074) := by
      rw [← zpow_natCast, ← zpow_natCast, ← zpow_add₀ two_ne_zero]
      congr 1
      omega
    push_cast
    rw [unit]
    ring
  have sign : signed s (((m * 2 ^ (e + 1074).toNat : ℤ) : ℝ)) =
      ((s.apply (m * 2 ^ (e + 1074).toNat) : ℤ) : ℝ) := by
    cases s <;> simp [signed, Sign.apply]
  rw [exactly, sign, ← Nat.shiftLeft_eq] at rounds
  exact rounds

theorem normalize_rounds (m : ℤ) {e : ℤ} (least : -1074 ≤ e) (zero : Sign) :
    Rounds (UnpackedFloat.normalize Format.binary64 m e zero) ((m * 2 ^ (e + 1074).toNat : ℤ) : ℝ) := by
  rw [UnpackedFloat.normalize]
  rcases lt_trichotomy m 0 with negative | rfl | positive
  · have rounds := round_rounds .negative (m := (-m).toNat) (by omega) least
    rw [Sign.apply, Int.toNat_of_nonneg (by omega), ← neg_mul, neg_neg] at rounds
    rw [compare_lt_iff_lt.mpr negative]
    exact rounds
  · rw [zero_mul, compare_eq_iff_eq.mpr rfl]
    exact rounds_self trivial rfl
  · have rounds := round_rounds .positive (m := m.toNat) (by omega) least
    rw [Sign.apply, Int.toNat_of_nonneg (by omega)] at rounds
    rw [compare_gt_iff_gt.mpr positive]
    exact rounds

/-- To decrease the exponent changes the form of a number only. -/
theorem aligned (s : Sign) (m : ℕ) {e t : ℤ} (finer : t ≤ e) (least : -1074 ≤ t) :
    s.apply ((decreaseExponent m e t).1) * 2 ^ (t + 1074).toNat = s.apply (m * 2 ^ (e + 1074).toNat) := by
  have unit : (2 : ℤ) ^ (e + 1074).toNat = 2 ^ (e - t).toNat * 2 ^ (t + 1074).toNat := by
    rw [← pow_add]
    congr 1
    omega
  have worth : ((m <<< (e - t).toNat : ℕ) : ℤ) * 2 ^ (t + 1074).toNat = m * 2 ^ (e + 1074).toNat := by
    rw [Nat.shiftLeft_eq, unit]
    push_cast
    ring
  cases s with
  | negative => exact (neg_mul _ _).trans (congrArg Neg.neg worth)
  | positive => exact worth

theorem add_rounds {u v : UnpackedFloat} (first : Canonical u) (second : Canonical v)
    (finite : u.isFinite = true) (finite' : v.isFinite = true) :
    Rounds (UnpackedFloat.add Format.binary64 u v) ((value u + value v : ℤ) : ℝ) := by
  cases u with
  | infinity => cases finite
  | notANumber => cases finite
  | zero s =>
    cases v with
    | infinity => cases finite'
    | notANumber => cases finite'
    | zero s' =>
      have zero (s'' : Sign) : Rounds (.zero s'') ((0 + 0 : ℤ) : ℝ) := by
        exact_mod_cast rounds_self (u := .zero s'') trivial rfl
      rw [UnpackedFloat.add]
      split_ifs <;> exact zero _
    | finite s' m' e' positive' => exact (zero_add (value _)).symm ▸ rounds_self second finite'
  | finite s m e positive =>
    cases v with
    | infinity => cases finite'
    | notANumber => cases finite'
    | zero s' => exact (add_zero (value _)).symm ▸ rounds_self first finite
    | finite s' m' e' positive' =>
      have least : -1074 ≤ min e e' := le_min first.2.1 second.2.1
      have sum := normalize_rounds (s.apply (decreaseExponent m e (min e e')).1 +
        s'.apply (decreaseExponent m' e' (min e e')).1) least .positive
      rw [add_mul, aligned s m (min_le_left e e') least, aligned s' m' (min_le_right e e') least] at sum
      exact sum

theorem apply_neg (s : Sign) (n : ℤ) : (-s).apply n = -s.apply n := by
  cases s with
  | negative => exact (neg_neg n).symm
  | positive => rfl

theorem value_neg (u : UnpackedFloat) : value u.neg = -value u := by
  cases u with
  | finite s m e _ => exact apply_neg s _
  | zero => rfl
  | infinity => rfl
  | notANumber => rfl

theorem canonical_neg {u : UnpackedFloat} (canonical : Canonical u) : Canonical u.neg := by
  cases u <;> exact canonical

theorem isFinite_neg (u : UnpackedFloat) : u.neg.isFinite = u.isFinite := by
  cases u <;> rfl

theorem sub_eq_add_neg (u v : UnpackedFloat) :
    UnpackedFloat.sub Format.binary64 u v = UnpackedFloat.add Format.binary64 u v.neg := by
  cases u <;> cases v <;> try rfl
  simp only [UnpackedFloat.sub, UnpackedFloat.add, UnpackedFloat.neg, apply_neg, Int.sub_eq_add_neg]

theorem sub_rounds {u v : UnpackedFloat} (first : Canonical u) (second : Canonical v)
    (finite : u.isFinite = true) (finite' : v.isFinite = true) :
    Rounds (UnpackedFloat.sub Format.binary64 u v) ((value u - value v : ℤ) : ℝ) := by
  rw [sub_eq_add_neg, Int.sub_eq_add_neg, ← value_neg]
  exact add_rounds first (canonical_neg second) finite ((isFinite_neg v).trans finite')

theorem represents_quotient (a : ℕ) {b : ℕ} (positive : 0 < b) :
    Represents (.ofMantissaAndAccuracy (a / b) (accuracyOfFraction (a % b) b)) (a / b : ℝ) := by
  have divided : (a : ℝ) = b * (a / b : ℕ) + (a % b : ℕ) := by exact_mod_cast (Nat.div_add_mod a b).symm
  have less : a % b < b := Nat.mod_lt a positive
  have whole : (0 : ℝ) < b := by exact_mod_cast positive
  rw [accuracyOfFraction]
  generalize a / b = q at *
  generalize a % b = rest at *
  have quotient : (a / b : ℝ) = q + rest / b := by
    rw [divided]
    field_simp
  rw [quotient]
  split_ifs with none
  · simp [none, Represents, ExtendedMantissa.ofMantissaAndAccuracy]
  · have some : (0 : ℝ) < rest / b := div_pos (by exact_mod_cast Nat.pos_of_ne_zero none) whole
    rcases lt_trichotomy (2 * rest) b with low | half | high
    · rw [compare_lt_iff_lt.mpr low]
      have below : (rest / b : ℝ) < 1 / 2 := by
        rw [div_lt_div_iff₀ whole two_pos]
        exact_mod_cast (by omega : rest * 2 < 1 * b)
      change (q : ℝ) < q + rest / b ∧ (q + rest / b + (q + rest / b) : ℝ) < q + q + 1
      constructor
      · linarith
      · linarith
    · rw [compare_eq_iff_eq.mpr half]
      have middle : (rest / b : ℝ) = 1 / 2 := by
        rw [div_eq_div_iff whole.ne' two_ne_zero]
        exact_mod_cast (by omega : rest * 2 = 1 * b)
      change (q + rest / b + (q + rest / b) : ℝ) = q + q + 1
      linarith
    · rw [compare_gt_iff_gt.mpr high]
      have above : 1 / 2 < (rest / b : ℝ) := by
        rw [div_lt_div_iff₀ two_pos whole]
        exact_mod_cast (by omega : 1 * b < rest * 2)
      have one : (rest / b : ℝ) < 1 := by
        rw [div_lt_one whole]
        exact_mod_cast less
      change (q + q + 1 : ℝ) < q + rest / b + (q + rest / b) ∧ (q + rest / b : ℝ) < q + 1
      constructor
      · linarith
      · linarith

theorem div_rounds {s s' : Sign} {m m' : ℕ} {e e' : ℤ} (positive : 0 < m) (positive' : 0 < m') :
    Rounds (UnpackedFloat.div Format.binary64 (.finite s m e positive) (.finite s' m' e' positive'))
      (signed (s / s') (m / m' * 2 ^ (e - e' + 1074))) := by
  set t := min (e - e') (Format.binary64.targetExponent (totalExponent m e - totalExponent m' e')) with target
  set j := (e - e' - t).toNat with places
  have bound : t ≤ max (m.log2 + 1 + e - (m'.log2 + 1 + e') - 53) (-1074) := min_le_right _ _
  have finer : t ≤ e - e' := min_le_left _ _
  -- The quotient has all its bits before the unit of the result.
  have digits : t ≤ -1074 ∨ 2 ^ 52 ≤ m * 2 ^ j / m' := by
    refine or_iff_not_imp_left.mpr fun above => ?_
    rw [Nat.le_div_iff_mul_le positive']
    have places : 52 + (m'.log2 + 1) ≤ m.log2 + j := by omega
    calc 2 ^ 52 * m' ≤ 2 ^ 52 * 2 ^ (m'.log2 + 1) := Nat.mul_le_mul_left _ Nat.lt_log2_self.le
      _ = 2 ^ (52 + (m'.log2 + 1)) := (pow_add 2 52 _).symm
      _ ≤ 2 ^ (m.log2 + j) := Nat.pow_le_pow_right two_pos places
      _ = 2 ^ m.log2 * 2 ^ j := pow_add 2 _ j
      _ ≤ m * 2 ^ j := Nat.mul_le_mul_right _ (Nat.log2_self_le positive.ne')
  have coarse : t ≤ Format.binary64.targetExponent (totalExponent (m * 2 ^ j / m') t) := by
    rw [target_eq]
    refine digits.elim (fun below => le_max_of_le_right below) fun full => le_max_of_le_left ?_
    have log := (Nat.le_log2 (by omega)).mpr full
    omega
  have rounds := roundWithAccuracy_rounds (s / s') (represents_quotient (m * 2 ^ j) positive') coarse
    (digits.symm.imp_left fun full => by omega)
  have exactly : ((m * 2 ^ j : ℕ) : ℝ) / m' * 2 ^ (t + 1074) = m / m' * 2 ^ (e - e' + 1074) := by
    have unit : (2 : ℝ) ^ (e - e' + 1074) = 2 ^ j * 2 ^ (t + 1074) := by
      rw [← zpow_natCast, ← zpow_add₀ two_ne_zero]
      congr 1
      omega
    push_cast
    rw [unit]
    ring
  rw [exactly, ← Nat.shiftLeft_eq] at rounds
  exact rounds

end Rounding

section Bits

/-- What is left of a number when it is stored: beyond the largest exponent only the sign. -/
def stored : UnpackedFloat → UnpackedFloat
  | .finite s m e positive => if 972 ≤ e then .infinity s else .finite s m e positive
  | u => u

theorem stored_iff {s : Sign} {m : ℕ} {e : ℤ} {positive : 0 < m} :
    stored (.finite s m e positive) = .finite s m e positive ↔ e < 972 := by
  rw [stored]
  split_ifs with large
  · exact iff_of_false nofun large.not_gt
  · exact iff_of_true rfl (not_le.mp large)

theorem unpackSign_packComponents {spec : Format} (s : Sign) (e : BitVec spec.exponentBits)
    (m : BitVec spec.mantissaBitsWithoutImplicit) : unpackSign (packComponents spec s e m) = s.toBitVec := by
  refine BitVec.eq_of_getLsbD_eq fun i bound => ?_
  obtain rfl : i = 0 := by omega
  simp [unpackSign, packComponents, BitVec.getLsbD_append, BitVec.getElem_append]

theorem ofBitVec_toBitVec (s : Sign) : Sign.ofBitVec s.toBitVec = s := by
  cases s <;> rfl

/-- The leading bit is in front of the mantissa. -/
theorem toNat_leading (m : BitVec 52) : (1#1 ++ m).toNat = 2 ^ 52 + m.toNat := by
  rw [BitVec.toNat_append, ← Nat.shiftLeft_add_eq_or_of_lt m.isLt]
  rfl

/-- The three fields of a stored number. -/
def signField (b : BitVec 64) : BitVec 1 :=
  @unpackSign Format.binary64 b

def exponentField (b : BitVec 64) : BitVec 11 :=
  @unpackExponent Format.binary64 b

def fractionField (b : BitVec 64) : BitVec 52 :=
  @unpackMantissa Format.binary64 b

theorem toNat_exponentField (b : BitVec 64) : (exponentField b).toNat = b.toNat % 2 ^ 63 / 2 ^ 52 := by
  have field : (exponentField b).toNat = b.toNat >>> 52 % 2 ^ 11 := by
    rw [exponentField, unpackExponent, BitVec.toNat_cast, BitVec.extractLsb_toNat]
    rfl
  rw [field, Nat.shiftRight_eq_div_pow]
  omega

theorem unpack_eq (b : BitVec 64) : UnpackedFloat.unpack Format.binary64 b =
    let s := Sign.ofBitVec (signField b)
    let e := exponentField b
    let m := fractionField b
    if e = -1#_ then if m = 0#_ then .infinity s else .notANumber
    else if e = 0#_ then
      if zero : m.toNat = 0 then .zero s else .finite s m.toNat (-1074) (Nat.pos_of_ne_zero zero)
    else .finite s (2 ^ 52 + m.toNat) (e.toNat - 1075) (Nat.add_pos_left (Nat.two_pow_pos 52) _) := by
  have zero : fractionField b = 0#_ ↔ (fractionField b).toNat = 0 := by
    rw [BitVec.toNat_eq, BitVec.toNat_ofNat, Nat.zero_mod]
  unfold signField exponentField fractionField at *
  rw [UnpackedFloat.unpack]
  simp only [toNat_leading]
  split_ifs with special none subnormal none' some some'
  · rfl
  · rfl
  · rfl
  · exact absurd (zero.mp none') some
  · exact absurd (zero.mpr some') none'
  · congr 1
    rw [subnormal]
    rfl
  · rfl

theorem unpack_canonical (b : BitVec 64) :
    Canonical (UnpackedFloat.unpack Format.binary64 b) ∧
      stored (UnpackedFloat.unpack Format.binary64 b) = UnpackedFloat.unpack Format.binary64 b := by
  have fraction : (fractionField b).toNat < 2 ^ 52 := BitVec.isLt _
  rw [unpack_eq]
  generalize exponentField b = e
  generalize fractionField b = m at fraction ⊢
  dsimp only
  split_ifs with special none subnormal zero
  · exact ⟨trivial, rfl⟩
  · exact ⟨trivial, rfl⟩
  · exact ⟨trivial, rfl⟩
  · exact ⟨⟨by omega, le_rfl, .inr rfl⟩, rfl⟩
  · have positive : e.toNat ≠ 0 := fun zero => subnormal (BitVec.eq_of_toNat_eq zero)
    have below : e.toNat ≠ 2047 := fun top => special (BitVec.eq_of_toNat_eq top)
    have bound : e.toNat < 2 ^ 11 := e.isLt
    refine ⟨⟨by omega, by omega, .inl (by omega)⟩, if_neg (by omega)⟩

theorem isFinite_unpack (b : BitVec 64) :
    (UnpackedFloat.unpack Format.binary64 b).isFinite = decide (b.toNat % 2 ^ 63 / 2 ^ 52 ≠ 2047) := by
  have top : exponentField b = -1#_ ↔ b.toNat % 2 ^ 63 / 2 ^ 52 = 2047 := by
    rw [← toNat_exponentField]
    exact BitVec.toNat_eq
  rw [unpack_eq]
  dsimp only
  by_cases special : exponentField b = -1#_
  · rw [decide_eq_false (not_not.mpr (top.mp special)), if_pos special]
    split_ifs <;> rfl
  · rw [decide_eq_true (mt top.mpr special), if_neg special]
    split_ifs <;> rfl

theorem unpack_components (s : Sign) (e : BitVec 11) (m : BitVec 52) :
    UnpackedFloat.unpack Format.binary64 (packComponents Format.binary64 s e m) =
      if e = -1#_ then if m = 0#_ then .infinity s else .notANumber
      else if e = 0#_ then
        if zero : m.toNat = 0 then .zero s else .finite s m.toNat (-1074) (Nat.pos_of_ne_zero zero)
      else .finite s (2 ^ 52 + m.toNat) (e.toNat - 1075) (Nat.add_pos_left (Nat.two_pow_pos 52) _) := by
  have exponent : exponentField (packComponents Format.binary64 s e m) = e :=
    @unpackExponent_packComponents Format.binary64 s e m
  have fraction : fractionField (packComponents Format.binary64 s e m) = m :=
    @unpackMantissa_packComponents Format.binary64 s e m
  have sign : signField (packComponents Format.binary64 s e m) = s.toBitVec :=
    @unpackSign_packComponents Format.binary64 s e m
  rw [unpack_eq, exponent, fraction, sign, ofBitVec_toBitVec]

theorem unpack_pack {u : UnpackedFloat} (canonical : Canonical u) :
    UnpackedFloat.unpack Format.binary64 (UnpackedFloat.pack Format.binary64 u) = stored u := by
  cases u with
  | notANumber => exact unpack_components .positive (-1#_) (1#52 <<< 51)
  | infinity s => exact unpack_components s (-1#_) 0#_
  | zero s => exact unpack_components s 0#_ 0#_
  | finite s m e positive =>
    obtain ⟨less, least, normal⟩ := canonical
    have log : m.log2 < 53 := (Nat.log2_lt positive.ne').mpr less
    rw [UnpackedFloat.pack, stored]
    set biased := (e + Format.binary64.exponentBias + Format.binary64.mantissaBitsWithoutImplicit).toNat
    have place : biased = (e + 1023 + 52).toNat := rfl
    by_cases large : 972 ≤ e
    · have overflow : 2 ^ 11 ≤ biased + 1 := by omega
      rw [if_pos overflow, if_pos large]
      exact unpack_components s (-1#_) 0#_
    · have fits : ¬ 2 ^ 11 ≤ biased + 1 := by omega
      rw [if_neg fits, if_neg large]
      by_cases full : m.log2 + 1 = Format.binary64.mantissaBits
      · have atLeast : 2 ^ 52 ≤ m := (Nat.le_log2 positive.ne').mp (Nat.succ_injective full).ge
        rw [if_pos full]
        refine (unpack_components s (.ofNat 11 biased) (.ofNat 52 m)).trans ?_
        have field : (BitVec.ofNat 11 biased).toNat = biased := by
          rw [BitVec.toNat_ofNat, Nat.mod_eq_of_lt (by omega)]
        have fraction : 2 ^ 52 + (BitVec.ofNat 52 m).toNat = m := by
          rw [BitVec.toNat_ofNat]
          omega
        have special : BitVec.ofNat 11 biased ≠ -1#_ := fun same => by
          have top : biased = 2047 := field.symm.trans (congrArg BitVec.toNat same)
          omega
        have subnormal : BitVec.ofNat 11 biased ≠ 0#_ := fun same => by
          have bottom : biased = 0 := field.symm.trans (congrArg BitVec.toNat same)
          omega
        rw [if_neg special, if_neg subnormal]
        congr 1
        omega
      · have subnormal : m < 2 ^ 52 := by
          refine (Nat.log2_lt positive.ne').mp (lt_of_le_of_ne (by omega) fun same => full ?_)
          rw [same]
          rfl
        have least' : e = -1074 := normal.resolve_left (by omega)
        have fraction : (BitVec.ofNat 52 m).toNat = m := by
          rw [BitVec.toNat_ofNat, Nat.mod_eq_of_lt subnormal]
        rw [if_neg full]
        refine (unpack_components s 0#_ (.ofNat 52 m)).trans ?_
        rw [if_neg (by decide), if_pos rfl, dif_neg (by omega)]
        congr 1
        exact least'.symm

theorem isFinite_eq (x : Float) : Scalar.isFinite x = x.toModel.unpack.isFinite := by
  have special : Scalar.isFinite x = (parts? x).isSome := Option.isSome_map
  rw [special, Float.Model.unpack, isFinite_unpack, parts?]
  change _ = decide (x.toBits.toNat % signBit / leadingBit ≠ specialExponent)
  split_ifs with top first <;> simp [top]

end Bits

end ChanceGraph.Binary64
