import ChanceGraph.Proofs.Doubles

/-!
Sums, differences, quotients and comparisons of doubles, read in units of the least positive double: what an
operation returns is nearest to its exact result, or an infinity, and nothing comes back from there.
-/

set_option autoImplicit false

namespace ChanceGraph.Binary64

open Float.Model UnpackedFloat

section Order

variable {m m' : ℕ} {e e' : ℤ}

theorem magnitude_lt (less : m < 2 ^ 53) (least : -1074 ≤ e) (normal : 2 ^ 52 ≤ m' ∨ e' = -1074)
    (lower : e < e') : (m * 2 ^ (e + 1074).toNat : ℤ) < m' * 2 ^ (e' + 1074).toNat := by
  have full := normal.resolve_right (by omega)
  have places : 53 + (e + 1074).toNat ≤ 52 + (e' + 1074).toNat := by omega
  calc (m * 2 ^ (e + 1074).toNat : ℤ) < 2 ^ 53 * 2 ^ (e + 1074).toNat :=
        mul_lt_mul_of_pos_right (by exact_mod_cast less) (by positivity)
    _ = 2 ^ (53 + (e + 1074).toNat) := (pow_add 2 53 _).symm
    _ ≤ 2 ^ (52 + (e' + 1074).toNat) := pow_le_pow_right₀ (by norm_num) places
    _ = 2 ^ 52 * 2 ^ (e' + 1074).toNat := pow_add 2 52 _
    _ ≤ m' * 2 ^ (e' + 1074).toNat := mul_le_mul_of_nonneg_right (by exact_mod_cast full) (by positivity)

/-- In canonical form the larger exponent decides. -/
theorem compare_magnitudes (first : m < 2 ^ 53 ∧ -1074 ≤ e ∧ (2 ^ 52 ≤ m ∨ e = -1074))
    (second : m' < 2 ^ 53 ∧ -1074 ≤ e' ∧ (2 ^ 52 ≤ m' ∨ e' = -1074)) :
    (compare e e').then (compare m m') =
      compare (m * 2 ^ (e + 1074).toNat : ℤ) (m' * 2 ^ (e' + 1074).toNat) := by
  obtain ⟨less, least, normal⟩ := first
  obtain ⟨less', least', normal'⟩ := second
  rcases lt_trichotomy e e' with lower | rfl | higher
  · rw [compare_lt_iff_lt.mpr lower, compare_lt_iff_lt.mpr (magnitude_lt less least normal' lower)]
    rfl
  · have unit : (0 : ℤ) < 2 ^ (e + 1074).toNat := by positivity
    rw [compare_eq_iff_eq.mpr rfl, Ordering.eq_then]
    rcases lt_trichotomy m m' with below | rfl | above
    · rw [compare_lt_iff_lt.mpr below,
        compare_lt_iff_lt.mpr (mul_lt_mul_of_pos_right (by exact_mod_cast below) unit)]
    · rw [compare_eq_iff_eq.mpr rfl, compare_eq_iff_eq.mpr rfl]
    · rw [compare_gt_iff_gt.mpr above,
        compare_gt_iff_gt.mpr (mul_lt_mul_of_pos_right (by exact_mod_cast above) unit)]
  · rw [compare_gt_iff_gt.mpr higher, compare_gt_iff_gt.mpr (magnitude_lt less' least' normal higher)]
    rfl

theorem compare_neg (a b : ℤ) : compare (-a) (-b) = (compare a b).swap := by
  rcases lt_trichotomy a b with less | rfl | greater
  · rw [compare_lt_iff_lt.mpr less, compare_gt_iff_gt.mpr (neg_lt_neg less)]
    rfl
  · rw [compare_eq_iff_eq.mpr rfl, compare_eq_iff_eq.mpr rfl]
    rfl
  · rw [compare_gt_iff_gt.mpr greater, compare_lt_iff_lt.mpr (neg_lt_neg greater)]
    rfl

theorem compare_value {u v : UnpackedFloat} (first : Canonical u) (second : Canonical v)
    (finite : u.isFinite = true) (finite' : v.isFinite = true) :
    u.compare v = some (compare (value u) (value v)) := by
  have positive {m : ℕ} {e : ℤ} (some : 0 < m) : (0 : ℤ) < m * 2 ^ (e + 1074).toNat := by positivity
  cases u with
  | infinity => cases finite
  | notANumber => cases finite
  | zero s =>
    cases v with
    | infinity => cases finite'
    | notANumber => cases finite'
    | zero s' => rfl
    | finite s' m' e' some' =>
      cases s' with
      | negative => exact congrArg some (compare_gt_iff_gt.mpr (neg_lt_zero.mpr (positive some'))).symm
      | positive => exact congrArg some (compare_lt_iff_lt.mpr (positive some')).symm
  | finite s m e some =>
    cases v with
    | infinity => cases finite'
    | notANumber => cases finite'
    | zero s' =>
      cases s with
      | negative => exact congrArg Option.some (compare_lt_iff_lt.mpr (neg_lt_zero.mpr (positive some))).symm
      | positive => exact congrArg Option.some (compare_gt_iff_gt.mpr (positive some)).symm
    | finite s' m' e' some' =>
      have signs := (neg_lt_zero.mpr (positive (e := e) some)).trans (positive (e := e') some')
      have signs' := (neg_lt_zero.mpr (positive (e := e') some')).trans (positive (e := e) some)
      cases s <;> cases s'
      · refine congrArg Option.some ?_
        rw [compare_magnitudes first second]
        exact (compare_neg _ _).symm
      · exact congrArg Option.some (compare_lt_iff_lt.mpr signs).symm
      · exact congrArg Option.some (compare_gt_iff_gt.mpr signs').symm
      · exact congrArg Option.some (compare_magnitudes first second)

end Order

/-- The number in units of the least positive double. -/
def units (x : Float) : ℤ :=
  value x.toModel.unpack

/-- What an operation returns whose exact result is given: the number nearest to it, or an infinity where that
is out of range. -/
def Delivers (r : ℝ) (z : Float) : Prop :=
  ∃ n, Nearest r n ∧ (z < 0 ↔ n < 0) ∧
    if |n| < 2 ^ 2098 then Scalar.isFinite z = true ∧ units z = n else z.toModel.unpack.isInf = true

section Reading

variable {x y z : Float}

theorem canonical_unpack (x : Float) : Canonical x.toModel.unpack :=
  (unpack_canonical _).1

theorem short_units (x : Float) : Short (units x) :=
  short_value (canonical_unpack x)

theorem abs_value (s : Sign) (m : ℕ) (e : ℤ) (positive : 0 < m) :
    |value (.finite s m e positive)| = m * 2 ^ (e + 1074).toNat := by
  have magnitude : (0 : ℤ) ≤ m * 2 ^ (e + 1074).toNat := by positivity
  cases s with
  | negative => exact (abs_neg _).trans (abs_of_nonneg magnitude)
  | positive => exact abs_of_nonneg magnitude

theorem abs_units_lt (x : Float) : |units x| < 2 ^ 2098 := by
  have canonical := canonical_unpack x
  have inRange : stored x.toModel.unpack = x.toModel.unpack := (unpack_canonical _).2
  have nothing : |(0 : ℤ)| < 2 ^ 2098 := by
    rw [abs_zero]
    positivity
  rw [units]
  generalize x.toModel.unpack = u at *
  cases u with
  | finite s m e positive =>
    obtain ⟨less, least, -⟩ := canonical
    have most := stored_iff.mp inRange
    have places : 53 + (e + 1074).toNat ≤ 2098 := by omega
    calc |value (.finite s m e positive)| = m * 2 ^ (e + 1074).toNat := abs_value s m e positive
      _ < 2 ^ 53 * 2 ^ (e + 1074).toNat := mul_lt_mul_of_pos_right (by exact_mod_cast less) (by positivity)
      _ = 2 ^ (53 + (e + 1074).toNat) := (pow_add 2 53 _).symm
      _ ≤ 2 ^ 2098 := pow_le_pow_right₀ (by norm_num) places
  | zero => exact nothing
  | infinity => exact nothing
  | notANumber => exact nothing

theorem le_abs_value {s : Sign} {m : ℕ} {e : ℤ} {positive : 0 < m}
    (canonical : Canonical (.finite s m e positive)) (large : 972 ≤ e) : 2 ^ 2098 ≤ |value (.finite s m e positive)| := by
  obtain ⟨-, -, normal⟩ := canonical
  have full : 2 ^ 52 ≤ m := normal.resolve_right (by omega)
  have places : 2098 ≤ 52 + (e + 1074).toNat := by omega
  rw [abs_value]
  calc (2 : ℤ) ^ 2098 ≤ 2 ^ (52 + (e + 1074).toNat) := pow_le_pow_right₀ (by norm_num) places
    _ = 2 ^ 52 * 2 ^ (e + 1074).toNat := pow_add 2 52 _
    _ ≤ m * 2 ^ (e + 1074).toNat := mul_le_mul_of_nonneg_right (by exact_mod_cast full) (by positivity)

theorem lt_iff_compare : x < y ↔ x.toModel.unpack.compare y.toModel.unpack = some .lt := by
  change decide ((x.toModel.unpack.compare y.toModel.unpack == some .lt) = true) = true ↔ _
  rw [decide_eq_true_iff, beq_iff_eq]

theorem beq_iff_compare : (x == y) = true ↔ x.toModel.unpack.compare y.toModel.unpack = some .eq := by
  change (x.toModel.unpack.compare y.toModel.unpack == some .eq) = true ↔ _
  rw [beq_iff_eq]

theorem le_iff_compare : x ≤ y ↔ (x.toModel.unpack.compare y.toModel.unpack).any (·.isLE) = true := by
  change decide ((x.toModel.unpack.compare y.toModel.unpack).any (·.isLE) = true) = true ↔ _
  rw [decide_eq_true_iff]

section Finite

variable (finite : Scalar.isFinite x = true) (finite' : Scalar.isFinite y = true)

include finite finite'

theorem compare_units : x.toModel.unpack.compare y.toModel.unpack = some (compare (units x) (units y)) :=
  compare_value (canonical_unpack x) (canonical_unpack y) (isFinite_eq x ▸ finite) (isFinite_eq y ▸ finite')

theorem lt_iff : x < y ↔ units x < units y := by
  rw [lt_iff_compare, compare_units finite finite', Option.some.injEq, compare_lt_iff_lt]

theorem le_iff : x ≤ y ↔ units x ≤ units y := by
  rw [le_iff_compare, compare_units finite finite', Option.any_some, Int.isLE_compare]

theorem beq_iff : (x == y) = true ↔ units x = units y := by
  rw [beq_iff_compare, compare_units finite finite', Option.some.injEq, compare_eq_iff_eq]

end Finite

theorem isInf_unpack (infinite : z.toModel.unpack.isInf = true) : Scalar.isFinite z = false := by
  rw [isFinite_eq]
  cases h : z.toModel.unpack <;> rw [h] at infinite <;> first | rfl | cases infinite

end Reading

section Operations

variable {r : ℝ} {u : UnpackedFloat} {x y z : Float}

theorem unpack_result (canonical : Canonical u) :
    (Float.ofModel (Float.Model.pack u)).toModel.unpack = stored u :=
  unpack_pack canonical

theorem Rounds.delivers (rounds : Rounds u r) (result : z.toModel.unpack = stored u) : Delivers r z := by
  refine ⟨value u, rounds.nearest, ?_⟩
  have canonical := rounds.canonical
  have finite := rounds.finite
  have order : z < 0 ↔ (stored u).compare (.zero .positive) = some .lt := by
    rw [← result]
    exact lt_iff_compare
  by_cases same : stored u = u
  · rw [same] at order result
    have inRange : |value u| < 2 ^ 2098 := by
      rw [← result]
      exact abs_units_lt z
    rw [if_pos inRange, order, compare_value (v := .zero .positive) canonical trivial finite rfl,
      Option.some.injEq, compare_lt_iff_lt, isFinite_eq, units, result]
    exact ⟨Iff.rfl, finite, rfl⟩
  · cases u with
    | infinity => cases finite
    | notANumber => cases finite
    | zero => exact absurd rfl same
    | finite s m e positive =>
      -- What is too large to be stored is kept with its sign only.
      have large := not_lt.mp (mt stored_iff.mpr same)
      have infinite : stored (.finite s m e positive) = .infinity s := if_pos large
      have some : (0 : ℤ) < m * 2 ^ (e + 1074).toNat := by positivity
      rw [if_neg (le_abs_value canonical large).not_gt, order, result, infinite]
      refine ⟨?_, rfl⟩
      cases s with
      | negative => exact iff_of_true rfl (neg_lt_zero.mpr some)
      | positive => exact iff_of_false (fun less => by cases less) some.not_gt

theorem add_delivers (finite : Scalar.isFinite x = true) (finite' : Scalar.isFinite y = true) :
    Delivers ((units x + units y : ℤ) : ℝ) (x + y) := by
  rw [isFinite_eq] at finite finite'
  have rounds := add_rounds (canonical_unpack x) (canonical_unpack y) finite finite'
  exact rounds.delivers (unpack_result rounds.canonical)

theorem sub_delivers (finite : Scalar.isFinite x = true) (finite' : Scalar.isFinite y = true) :
    Delivers ((units x - units y : ℤ) : ℝ) (x - y) := by
  rw [isFinite_eq] at finite finite'
  have rounds := sub_rounds (canonical_unpack x) (canonical_unpack y) finite finite'
  exact rounds.delivers (unpack_result rounds.canonical)

theorem Delivers.nearest (delivers : Delivers r z) (finite : Scalar.isFinite z = true) :
    Nearest r (units z) := by
  obtain ⟨n, nearest, -, returned⟩ := delivers
  split_ifs at returned with inRange
  · exact returned.2 ▸ nearest
  · rw [isInf_unpack returned] at finite
    cases finite

theorem Delivers.isInf (delivers : Delivers r z) (special : Scalar.isFinite z = false) :
    z.toModel.unpack.isInf = true := by
  obtain ⟨n, -, -, returned⟩ := delivers
  split_ifs at returned with inRange
  · rw [returned.1] at special
    cases special
  · exact returned

/-- What can be stored is returned as it is. -/
theorem Delivers.exact {s : ℤ} (delivers : Delivers (s : ℝ) z) (short : Short s) (inRange : |s| < 2 ^ 2098) :
    Scalar.isFinite z = true ∧ units z = s := by
  obtain ⟨n, nearest, -, returned⟩ := delivers
  obtain rfl := nearest.eq_of_short short
  rwa [if_pos inRange] at returned

theorem unpack_special (special : u.isFinite = false) :
    (Float.ofModel (Float.Model.pack u)).toModel.unpack = u := by
  cases u with
  | infinity => exact unpack_result (u := .infinity _) trivial
  | notANumber => exact unpack_result (u := .notANumber) trivial
  | zero => cases special
  | finite => cases special

theorem isFinite_add {u v : UnpackedFloat} (special : u.isFinite = false ∨ v.isFinite = false) :
    (UnpackedFloat.add Format.binary64 u v).isFinite = false := by
  cases u <;> cases v <;> first
    | rfl
    | (rw [UnpackedFloat.add]; split_ifs <;> rfl)
    | exact special.elim (fun none => by cases none) fun none => by cases none

theorem add_special (special : Scalar.isFinite x = false ∨ Scalar.isFinite y = false) :
    Scalar.isFinite (x + y) = false := by
  simp only [isFinite_eq] at special ⊢
  have sum := isFinite_add special
  exact (congrArg UnpackedFloat.isFinite (unpack_special sum)).trans sum

theorem sub_special (special : Scalar.isFinite x = false ∨ Scalar.isFinite y = false) :
    Scalar.isFinite (x - y) = false := by
  simp only [isFinite_eq] at special ⊢
  have difference : (UnpackedFloat.sub Format.binary64 x.toModel.unpack y.toModel.unpack).isFinite = false := by
    rw [sub_eq_add_neg]
    exact isFinite_add (special.imp_right (isFinite_neg _).trans)
  exact (congrArg UnpackedFloat.isFinite (unpack_special difference)).trans difference

theorem div_special (special : Scalar.isFinite x = false) : Scalar.isFinite (x / y) = false := by
  rw [isFinite_eq] at special ⊢
  have quotient : (UnpackedFloat.div Format.binary64 x.toModel.unpack y.toModel.unpack).isFinite = false := by
    generalize x.toModel.unpack = u at special ⊢
    cases u <;> cases y.toModel.unpack <;> first | rfl | cases special
  exact (congrArg UnpackedFloat.isFinite (unpack_special quotient)).trans quotient

theorem div_infinite (finite : Scalar.isFinite x = true) (infinite : y.toModel.unpack.isInf = true) :
    Scalar.isFinite (x / y) = true ∧ units (x / y) = 0 := by
  rw [isFinite_eq] at finite ⊢
  have quotient : ∃ s, UnpackedFloat.div Format.binary64 x.toModel.unpack y.toModel.unpack = .zero s := by
    generalize x.toModel.unpack = u at finite ⊢
    generalize y.toModel.unpack = v at infinite ⊢
    cases u <;> cases v <;> first | exact ⟨_, rfl⟩ | (cases finite; done) | cases infinite
  obtain ⟨s, zero⟩ := quotient
  have result : (x / y).toModel.unpack = .zero s := by
    change (Float.ofModel (Float.Model.pack _)).toModel.unpack = _
    rw [zero]
    exact unpack_result (u := .zero s) trivial
  rw [units, result]
  exact ⟨rfl, rfl⟩

theorem signed_div (s s' : Sign) (a b c : ℝ) : signed (s / s') (a / b * c) = signed s a / signed s' b * c := by
  cases s <;> cases s'
  · exact congrArg (· * c) (neg_div_neg_eq a b).symm
  · change -(a / b * c) = -a / b * c
    ring
  · change -(a / b * c) = a / -b * c
    ring
  · rfl

theorem signed_quotient {s s' : Sign} {m m' : ℕ} {e e' : ℤ} (least : -1074 ≤ e) (least' : -1074 ≤ e') :
    signed (s / s') (m / m' * 2 ^ (e - e' + 1074)) = ((s.apply (m * 2 ^ (e + 1074).toNat) : ℤ) : ℝ) /
      (s'.apply (m' * 2 ^ (e' + 1074).toNat) : ℤ) * 2 ^ 1074 := by
  have unit : (2 : ℝ) ^ (e - e' + 1074) = 2 ^ (e + 1074).toNat / 2 ^ (e' + 1074).toNat * 2 ^ 1074 := by
    have places (e : ℤ) (least : -1074 ≤ e) : (2 : ℝ) ^ (e + 1074).toNat = 2 ^ (e + 1074) := by
      rw [← zpow_natCast, Int.toNat_of_nonneg (by omega)]
    rw [places e least, places e' least', ← zpow_sub₀ two_ne_zero, ← zpow_natCast, ← zpow_add₀ two_ne_zero]
    congr 1
    push_cast
    ring
  have applied (s : Sign) (n : ℤ) : ((s.apply n : ℤ) : ℝ) = signed s n := by
    cases s with
    | negative => exact Int.cast_neg n
    | positive => rfl
  rw [applied, applied, ← signed_div, unit]
  generalize (2 : ℝ) ^ 1074 = c
  congr 1
  push_cast
  ring

theorem div_delivers (finite : Scalar.isFinite x = true) (finite' : Scalar.isFinite y = true)
    (nonzero : units y ≠ 0) : Delivers (units x / units y * 2 ^ 1074) (x / y) := by
  rw [isFinite_eq] at finite finite'
  have canonical := canonical_unpack x
  have canonical' := canonical_unpack y
  have rounds : Rounds (UnpackedFloat.div Format.binary64 x.toModel.unpack y.toModel.unpack)
      (units x / units y * 2 ^ 1074) := by
    rw [units, units] at *
    generalize x.toModel.unpack = u, y.toModel.unpack = v at *
    cases v with
    | infinity => cases finite'
    | notANumber => cases finite'
    | zero => exact absurd rfl nonzero
    | finite s' m' e' positive' =>
      cases u with
      | infinity => cases finite
      | notANumber => cases finite
      | zero s =>
        have rounds := rounds_self (u := .zero (s / s')) trivial rfl
        have zero : ((value (.zero s) : ℤ) : ℝ) / (value (.finite s' m' e' positive') : ℤ) * 2 ^ 1074 =
            ((value (.zero (s / s')) : ℤ) : ℝ) := by
          simp [value]
        rw [zero]
        exact rounds
      | finite s m e positive =>
        have rounds := @div_rounds s s' m m' e e' positive positive'
        rwa [signed_quotient canonical.2.1 canonical'.2.1] at rounds
  exact rounds.delivers (unpack_result rounds.canonical)

theorem add_infinity (s : Sign) (v : UnpackedFloat) :
    UnpackedFloat.add Format.binary64 (.infinity s) v = .infinity s ∨
      UnpackedFloat.add Format.binary64 (.infinity s) v = .notANumber := by
  cases v with
  | infinity s' =>
    rw [UnpackedFloat.add]
    exact ite_eq_or_eq _ _ _
  | notANumber => exact .inr rfl
  | zero => exact .inl rfl
  | finite => exact .inl rfl

/-- What has been added to an infinity does not come back when the infinity is taken away. -/
theorem infinite_sub (infinite : x.toModel.unpack.isInf = true) : ((x + y - x : Float) == z) = false := by
  obtain ⟨s, form⟩ : ∃ s, x.toModel.unpack = .infinity s := by
    cases form : x.toModel.unpack with
    | infinity s => exact ⟨s, rfl⟩
    | _ => rw [form] at infinite; cases infinite
  have sum : (x + y).toModel.unpack = UnpackedFloat.add Format.binary64 (.infinity s) y.toModel.unpack := by
    rw [← form]
    exact unpack_special (isFinite_add (.inl (form ▸ rfl)))
  have nothing : UnpackedFloat.sub Format.binary64 (x + y).toModel.unpack x.toModel.unpack = .notANumber := by
    rw [sum, form]
    rcases add_infinity s y.toModel.unpack with same | none
    · rw [same]
      cases s <;> rfl
    · rw [none]
      rfl
  have difference : (x + y - x).toModel.unpack = .notANumber := by
    refine (unpack_special ?_).trans nothing
    rw [nothing]
    rfl
  rw [← Bool.not_eq_true, beq_iff_compare, difference]
  exact fun same => by cases same

theorem isFinite_of_beq (same : (x == y) = true) (finite : Scalar.isFinite y = true) :
    Scalar.isFinite x = true := by
  rw [beq_iff_compare] at same
  rw [isFinite_eq] at finite ⊢
  generalize x.toModel.unpack = u, y.toModel.unpack = v at *
  -- Numbers of different kinds are never the same.
  cases u with
  | finite => rfl
  | zero => rfl
  | notANumber => cases same
  | infinity s => cases v <;> cases s <;> first | cases same | cases finite

theorem unpack_neg (x : Float) : (-x).toModel.unpack = x.toModel.unpack.neg := by
  refine (unpack_result (canonical_neg (canonical_unpack x))).trans ?_
  have inRange : stored x.toModel.unpack = x.toModel.unpack := (unpack_canonical _).2
  generalize x.toModel.unpack = u at *
  cases u with
  | finite s m e positive => exact stored_iff.mpr (stored_iff.mp inRange)
  | _ => rfl

theorem neg_finite (finite : Scalar.isFinite x = true) : Scalar.isFinite (-x) = true := by
  rw [isFinite_eq] at finite ⊢
  rwa [unpack_neg, isFinite_neg]

theorem units_neg (x : Float) : units (-x) = -units x := by
  rw [units, unpack_neg, value_neg, units]

theorem isFinite_zero : Scalar.isFinite (0 : Float) = true := by
  decide +kernel

theorem isFinite_one : Scalar.isFinite (1 : Float) = true := by
  decide +kernel

theorem units_zero : units 0 = 0 :=
  rfl

theorem units_one : units 1 = 2 ^ 1074 := by
  decide +kernel

theorem neg_iff (finite : Scalar.isFinite x = true) : x < 0 ↔ units x < 0 :=
  lt_iff finite isFinite_zero

/-- Neither an infinity nor what is undefined is between zero and one. -/
theorem isFinite_of_probability (atLeast : 0 ≤ z) (atMost : z ≤ 1) : Scalar.isFinite z = true := by
  rw [le_iff_compare] at atLeast atMost
  rw [isFinite_eq]
  have zero : (0 : Float).toModel.unpack = .zero .positive := rfl
  have one : (1 : Float).toModel.unpack = .finite .positive (2 ^ 52) (-52) (by norm_num) := rfl
  rw [zero] at atLeast
  rw [one] at atMost
  cases form : z.toModel.unpack with
  | notANumber =>
    rw [form] at atLeast
    cases atLeast
  | infinity s =>
    rw [form] at atLeast atMost
    cases s with
    | negative => cases atLeast
    | positive => cases atMost
  | zero => rfl
  | finite => rfl

theorem probability_iff (finite : Scalar.isFinite z = true) :
    0 ≤ z ∧ z ≤ 1 ↔ 0 ≤ units z ∧ units z ≤ 2 ^ 1074 := by
  rw [le_iff isFinite_zero finite, le_iff finite isFinite_one, units_one]
  rfl

section Shares

variable (finite : Scalar.isFinite x = true) (finite' : Scalar.isFinite y = true) (positive : 0 < units y)

include finite finite' positive

theorem share_probability (nonneg : 0 ≤ units x) (atMost : units x ≤ units y) : 0 ≤ x / y ∧ x / y ≤ 1 := by
  obtain ⟨n, nearest, -, returned⟩ := div_delivers finite finite' positive.ne'
  have above : (0 : ℝ) < units y := by exact_mod_cast positive
  have low : 0 ≤ n := by
    refine nearest.ge_of_ge .zero ?_
    have start : (0 : ℝ) ≤ units x := by exact_mod_cast nonneg
    rw [Int.cast_zero]
    positivity
  have high : n ≤ 2 ^ 1074 := by
    refine nearest.le_of_le (.two_pow 1074) ?_
    have most : (units x / units y : ℝ) ≤ 1 := (div_le_one above).mpr (by exact_mod_cast atMost)
    rw [Int.cast_pow]
    exact mul_le_of_le_one_left (by positivity) most
  have inRange : |n| < 2 ^ 2098 := by
    rw [abs_of_nonneg low]
    exact high.trans_lt (pow_lt_pow_right₀ (by norm_num) (by norm_num))
  rw [if_pos inRange] at returned
  obtain ⟨defined, rfl⟩ := returned
  exact (probability_iff defined).mpr ⟨low, high⟩

/-- A negative share is only kept if it is rounded to zero. -/
theorem negative_share (negative : units x < 0) (kept : ¬ x / y < 0) :
    -units x * 2 ^ 1075 ≤ units y ∧ 0 ≤ x / y ∧ x / y ≤ 1 := by
  obtain ⟨n, nearest, sign, returned⟩ := div_delivers finite finite' positive.ne'
  have above : (0 : ℝ) < units y := by exact_mod_cast positive
  have below : (units x : ℝ) < 0 := by exact_mod_cast negative
  have share : (units x / units y * 2 ^ 1074 : ℝ) ≤ 0 :=
    mul_nonpos_of_nonpos_of_nonneg (div_neg_of_neg_of_pos below above).le (by positivity)
  have zero : n = 0 := by
    have high := nearest.le_of_le .zero (by rwa [Int.cast_zero])
    have low := not_lt.mp (mt sign.mpr kept)
    omega
  subst zero
  have inRange : |(0 : ℤ)| < 2 ^ 2098 := by
    rw [abs_zero]
    positivity
  rw [if_pos inRange] at returned
  obtain ⟨defined, none⟩ := returned
  refine ⟨?_, (probability_iff defined).mpr (by rw [none]; exact ⟨le_rfl, pow_nonneg (by norm_num) _⟩)⟩
  -- Zero is not farther than the negative number that is closest to it.
  have least := nearest.least (-1) (.of_small (by norm_num))
  rw [Int.cast_zero, sub_zero, abs_of_nonpos share, Int.cast_neg, Int.cast_one, sub_neg_eq_add] at least
  have half {q : ℝ} (nearer : -q ≤ |q + 1|) : -(1 / 2) ≤ q := by
    rcases abs_cases (q + 1) with ⟨same, -⟩ | ⟨same, -⟩ <;> linarith
  have scaled : ((-units y : ℤ) : ℝ) ≤ (units x * 2 ^ 1075 : ℤ) := by
    have share := half least
    rw [div_mul_eq_mul_div, le_div_iff₀ above] at share
    rw [Int.cast_neg, Int.cast_mul, Int.cast_pow, Int.cast_ofNat, pow_succ]
    generalize (2 : ℝ) ^ 1074 = c at share ⊢
    linarith
  rw [neg_mul]
  exact neg_le.mp (Int.cast_le.mp scaled)

end Shares

end Operations

end ChanceGraph.Binary64
