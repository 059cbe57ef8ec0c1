import ChanceGraph.Table
import Mathlib

/-!
Numbers without rounding: the reals with two infinities and an undefined number, combined as
doubles are.  On finite numbers every operation is that of the reals.
-/

set_option autoImplicit false

namespace ChanceGraph

inductive Exact where
  | finite (x : ℝ)
  | infinite (positive : Bool)
  | undefined

namespace Exact

def ofSign : SignType → Exact
  | .pos => .infinite true
  | .neg => .infinite false
  | .zero => .undefined

noncomputable def sign : Exact → SignType
  | .finite x => SignType.sign x
  | .infinite positive => if positive then 1 else -1
  | .undefined => 0

noncomputable def add : Exact → Exact → Exact
  | .finite x, .finite y => .finite (x + y)
  | .undefined, _ | _, .undefined => .undefined
  | .infinite a, .infinite b => if a = b then .infinite a else .undefined
  | .infinite a, .finite _ | .finite _, .infinite a => .infinite a

noncomputable def neg : Exact → Exact
  | .finite x => .finite (-x)
  | .infinite a => .infinite !a
  | .undefined => .undefined

noncomputable def mul : Exact → Exact → Exact
  | .finite x, .finite y => .finite (x * y)
  | x, y => ofSign (x.sign * y.sign)

/-- Zero has no sign, so its inverse is the positive infinity. -/
noncomputable def inv : Exact → Exact
  | .finite x => if x = 0 then .infinite true else .finite x⁻¹
  | .infinite _ => .finite 0
  | .undefined => .undefined

def Less : Exact → Exact → Prop
  | .finite x, .finite y => x < y
  | .infinite a, .infinite b => a = false ∧ b = true
  | .infinite a, .finite _ => a = false
  | .finite _, .infinite b => b = true
  | _, _ => False

def AtMost : Exact → Exact → Prop
  | .finite x, .finite y => x ≤ y
  | .infinite a, .infinite b => a = true → b = true
  | .infinite a, .finite _ => a = false
  | .finite _, .infinite b => b = true
  | _, _ => False

open Classical in
noncomputable def same : Exact → Exact → Bool
  | .finite x, .finite y => decide (x = y)
  | .infinite a, .infinite b => a == b
  | _, _ => false

/-- What a function of the reals makes of a number, given its values at the infinities. -/
noncomputable def lift (f : ℝ → Exact) (atNegative atPositive : Exact) : Exact → Exact
  | .finite x => f x
  | .infinite positive => if positive then atPositive else atNegative
  | .undefined => .undefined

noncomputable def log : Exact → Exact :=
  lift (fun x => if x < 0 then .undefined else if x = 0 then .infinite false
    else .finite (Real.log x)) .undefined (.infinite true)

noncomputable def sqrt : Exact → Exact :=
  lift (fun x => if x < 0 then .undefined else .finite (Real.sqrt x)) .undefined (.infinite true)

noncomputable def power : Exact → Exact → Exact
  | .finite x, .finite y =>
    if x = 0 ∧ y < 0 then .infinite true
    else if x < 0 ∧ (⌊y⌋ : ℝ) ≠ y then .undefined
    else .finite (x ^ y)
  | x, .finite y => if y = 0 then .finite 1 else if 0 < y then x else x.inv
  | _, _ => .undefined

noncomputable def remainder : Exact → Exact → Exact
  | .finite x, .finite y =>
    if y = 0 then .undefined
    else .finite (x - y * if 0 ≤ x / y then (⌊x / y⌋ : ℝ) else (⌈x / y⌉ : ℝ))
  | .finite x, .infinite _ => .finite x
  | _, _ => .undefined

noncomputable def floor? : Exact → Option Int
  | .finite x => some ⌊x⌋
  | _ => none

def isUndefined : Exact → Bool
  | .undefined => true
  | _ => false

open Classical in
noncomputable instance : Scalar Exact where
  zero := .finite 0
  one := .finite 1
  add := add
  neg := neg
  sub x y := add x (neg y)
  mul := mul
  div x y := mul x (inv y)
  beq := same
  lt := Less
  le := AtMost
  decideLt _ _ := inferInstance
  decideLe _ _ := inferInstance
  infinity := .infinite true
  nan := .undefined
  isNaN := isUndefined
  floor? := floor?
  ofRatio? n d := some (.finite (n / d))
  remainder := remainder
  multiplyAdd x y z := add (mul x y) z
  norm xs := sqrt (xs.foldl (fun sum x => add sum (mul x x)) (.finite 0))
  power := power
  exp := lift (fun x => .finite (Real.exp x)) (.finite 0) (.infinite true)
  log := log
  sqrt := sqrt
  sin := lift (fun x => .finite (Real.sin x)) .undefined .undefined
  cos := lift (fun x => .finite (Real.cos x)) .undefined .undefined
  pi := .finite Real.pi

section Finite

variable (x y : ℝ)

theorem zero_eq : (0 : Exact) = .finite 0 := rfl

theorem one_eq : (1 : Exact) = .finite 1 := rfl

@[simp] theorem finite_add : Exact.finite x + .finite y = .finite (x + y) := rfl

@[simp] theorem finite_neg : -Exact.finite x = .finite (-x) := rfl

@[simp] theorem finite_mul : Exact.finite x * .finite y = .finite (x * y) := rfl

@[simp] theorem finite_sub : Exact.finite x - .finite y = .finite (x - y) :=
  congrArg Exact.finite (sub_eq_add_neg x y).symm

@[simp] theorem finite_lt : Exact.finite x < .finite y ↔ x < y := Iff.rfl

@[simp] theorem finite_le : Exact.finite x ≤ .finite y ↔ x ≤ y := Iff.rfl

@[simp] theorem finite_beq : (Exact.finite x == .finite y) = decide (x = y) := by
  change same _ _ = _
  simp [same]

@[simp] theorem finite_isFinite : Scalar.isFinite (Exact.finite x) = true := rfl

@[simp] theorem finite_isNaN : Scalar.isNaN (Exact.finite x) = false := rfl

@[simp] theorem finite_floor : Scalar.floor? (Exact.finite x) = some ⌊x⌋ := rfl

@[simp] theorem finite_isIntegral :
    Scalar.isIntegral (Exact.finite x) = decide ((⌊x⌋ : ℝ) = x) := by
  simp [Scalar.isIntegral, Scalar.ratio, Scalar.ofRatio?]

@[simp] theorem finite_exp : Scalar.exp (Exact.finite x) = .finite (Real.exp x) := rfl

@[simp] theorem finite_beq_negInfinity :
    (Exact.finite x == Scalar.negInfinity) = false := rfl

variable {x y}

theorem finite_div (nonzero : y ≠ 0) : Exact.finite x / .finite y = .finite (x / y) := by
  change mul _ (inv _) = _
  simp [inv, mul, nonzero, div_eq_mul_inv]

theorem finite_log (positive : 0 < x) : Scalar.log (Exact.finite x) = .finite (Real.log x) := by
  change log _ = _
  simp [log, lift, positive.not_gt, positive.ne']

end Finite

@[simp] theorem ratio_eq (n : Int) (d : Nat) : (Scalar.ratio n d : Exact) = .finite (n / d) := rfl

@[simp] theorem ofNat_eq (n : Nat) : (Scalar.ofNat n : Exact) = .finite n := by
  simp [Scalar.ofNat]

protected theorem lt_trans {x y z : Exact} (first : x < y) (second : y < z) : x < z := by
  change Less _ _ at *
  cases x <;> cases y <;> cases z <;> simp_all [Less]
  exact first.trans second

theorem finite_of_between {x : Exact} {a b : ℝ} (above : Exact.finite a < x)
    (below : x < .finite b) : ∃ r, x = .finite r ∧ a < r ∧ r < b := by
  cases x with
  | finite r => exact ⟨r, rfl, above, below⟩
  | infinite positive =>
    cases positive with
    | false => exact nomatch above
    | true => exact nomatch below
  | undefined => exact nomatch above

/-- The number as a real, where it is one. -/
def toReal : Exact → ℝ
  | .finite x => x
  | _ => 0

@[simp] theorem toReal_finite (x : ℝ) : (Exact.finite x).toReal = x := rfl

section Product

theorem sign_ofSign (s : SignType) : (ofSign s).sign = s := by
  cases s <;> rfl

protected theorem sign_mul (x y : Exact) : (x * y).sign = x.sign * y.sign := by
  change (mul x y).sign = _
  cases x <;> cases y <;> simp only [mul, sign_ofSign]
  simp only [sign, sign_mul]

/-- Where an operand is not finite, a product is known by its sign. -/
theorem mul_eq_ofSign (x y : Exact) (special : ¬ ∃ a b, x = .finite a ∧ y = .finite b) :
    x * y = ofSign (x.sign * y.sign) := by
  change mul x y = _
  cases x <;> cases y <;> first | rfl | exact absurd ⟨_, _, rfl, rfl⟩ special

theorem ofSign_ne_finite (s : SignType) (a : ℝ) : ofSign s ≠ .finite a := by
  cases s <;> exact nofun

theorem mul_eq_finite {x y : Exact} {c : ℝ} (product : x * y = .finite c) :
    ∃ a b, x = .finite a ∧ y = .finite b := by
  by_contra special
  rw [mul_eq_ofSign x y special] at product
  exact ofSign_ne_finite _ _ product

protected theorem mul_comm (x y : Exact) : x * y = y * x := by
  by_cases finite : ∃ a b, x = .finite a ∧ y = .finite b
  · obtain ⟨a, b, rfl, rfl⟩ := finite
    simp [mul_comm]
  · rw [mul_eq_ofSign x y finite, mul_eq_ofSign y x (fun ⟨a, b, hy, hx⟩ => finite ⟨b, a, hx, hy⟩),
      mul_comm]

protected theorem mul_assoc (x y z : Exact) : x * y * z = x * (y * z) := by
  by_cases finite : ∃ a b c, x = .finite a ∧ y = .finite b ∧ z = .finite c
  · obtain ⟨a, b, c, rfl, rfl, rfl⟩ := finite
    simp [mul_assoc]
  · have left : ¬ ∃ a b, x * y = .finite a ∧ z = .finite b := by
      rintro ⟨_, c, product, rfl⟩
      obtain ⟨a, b, rfl, rfl⟩ := mul_eq_finite product
      exact finite ⟨a, b, c, rfl, rfl, rfl⟩
    have right : ¬ ∃ a b, x = .finite a ∧ y * z = .finite b := by
      rintro ⟨a, _, rfl, product⟩
      obtain ⟨b, c, rfl, rfl⟩ := mul_eq_finite product
      exact finite ⟨a, b, c, rfl, rfl, rfl⟩
    rw [mul_eq_ofSign _ _ left, mul_eq_ofSign _ _ right, Exact.sign_mul, Exact.sign_mul, mul_assoc]

protected theorem one_mul (x : Exact) : 1 * x = x := by
  cases x with
  | finite x => simp [one_eq]
  | infinite positive =>
    rw [mul_eq_ofSign _ _ (by simp)]
    cases positive <;> simp [sign, ofSign]
  | undefined =>
    rw [mul_eq_ofSign _ _ (by simp)]
    simp [sign, ofSign]

instance : Std.Commutative (α := Exact) (· * ·) := ⟨Exact.mul_comm⟩

instance : Std.Associative (α := Exact) (· * ·) := ⟨Exact.mul_assoc⟩

end Product

end Exact

end ChanceGraph
