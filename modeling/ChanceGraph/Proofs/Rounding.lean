import Mathlib

/-!
Integers of at most 53 significant bits, and rounding to the nearest of them.  What rounding takes from the sum
of two of them is again such an integer, and can be computed by two subtractions that are exact.
-/

set_option autoImplicit false

namespace ChanceGraph

/-- At most 53 significant bits. -/
def Short (n : ℤ) : Prop :=
  ∃ (m : ℤ) (k : ℕ), n = m * 2 ^ k ∧ |m| < 2 ^ 53

namespace Short

variable {n : ℤ} {t : ℕ}

theorem neg (short : Short n) : Short (-n) := by
  obtain ⟨m, k, rfl, less⟩ := short
  exact ⟨-m, k, by ring, by rwa [abs_neg]⟩

theorem double (short : Short n) : Short (2 * n) := by
  obtain ⟨m, k, rfl, less⟩ := short
  exact ⟨m, k + 1, by ring, less⟩

theorem of_small (small : |n| < 2 ^ 53) : Short n :=
  ⟨n, 0, by simp, small⟩

theorem two_pow (k : ℕ) : Short (2 ^ k) :=
  ⟨1, k, by simp, by norm_num⟩

theorem zero : Short 0 :=
  of_small (by norm_num)

theorem of_dvd (divides : 2 ^ t ∣ n) (atMost : |n| ≤ 2 ^ (53 + t)) : Short n := by
  obtain ⟨m, rfl⟩ := divides
  rw [abs_mul, abs_of_pos (by positivity), pow_add, mul_comm] at atMost
  have bounded : |m| ≤ 2 ^ 53 := le_of_mul_le_mul_right atMost (by positivity)
  rcases bounded.lt_or_eq with less | same
  · exact ⟨m, t, by ring, less⟩
  · have power : Short (2 ^ t * 2 ^ 53) := by
      rw [← pow_add]
      exact two_pow _
    rcases abs_choice m with positive | negative
    · rwa [← positive, same]
    · rw [show m = -2 ^ 53 by omega, mul_neg]
      exact power.neg

/-- A large number has no odd multiple of a small power of two among its bits. -/
theorem dvd (short : Short n) (atLeast : 2 ^ (52 + t) ≤ |n|) : 2 ^ t ∣ n := by
  obtain ⟨m, k, rfl, less⟩ := short
  rw [abs_mul, abs_of_pos (by positivity : (0 : ℤ) < 2 ^ k)] at atLeast
  have larger : (2 : ℤ) ^ (52 + t) < 2 ^ (53 + k) := by
    rw [pow_add 2 53]
    exact atLeast.trans_lt (mul_lt_mul_of_pos_right less (by positivity))
  have exponents : 52 + t < 53 + k := (pow_lt_pow_iff_right₀ (by norm_num)).mp larger
  exact (pow_dvd_pow 2 (by omega : t ≤ k)).mul_left m

/-- All 53 bits are used, unless the number is one of the smallest. -/
theorem normal (short : Short n) :
    ∃ (m : ℤ) (k : ℕ), n = m * 2 ^ k ∧ |m| < 2 ^ 53 ∧ (k = 0 ∨ 2 ^ (52 + k) ≤ |n|) := by
  by_cases small : |n| < 2 ^ 53
  · exact ⟨n, 0, by simp, small, .inl rfl⟩
  · have nonzero : n.natAbs ≠ 0 := by
      intro zero
      rw [Int.natAbs_eq_zero.mp zero] at small
      norm_num at small
    have low : (2 : ℤ) ^ Nat.log 2 n.natAbs ≤ |n| := by
      rw [Int.abs_eq_natAbs]
      exact_mod_cast Nat.pow_log_le_self 2 nonzero
    have high : |n| < 2 ^ (Nat.log 2 n.natAbs + 1) := by
      rw [Int.abs_eq_natAbs]
      exact_mod_cast Nat.lt_pow_succ_log_self (by norm_num) n.natAbs
    have digits : 53 < Nat.log 2 n.natAbs + 1 :=
      (pow_lt_pow_iff_right₀ (by norm_num : (1 : ℤ) < 2)).mp ((not_lt.mp small).trans_lt high)
    obtain ⟨k, size⟩ := Nat.exists_eq_add_of_le (by omega : 52 ≤ Nat.log 2 n.natAbs)
    rw [size] at low high
    obtain ⟨m, factors⟩ := short.dvd low
    refine ⟨m, k, by rw [factors, mul_comm], ?_, .inr low⟩
    rw [factors, abs_mul, abs_of_pos (by positivity : (0 : ℤ) < 2 ^ k), add_right_comm, pow_add,
      mul_comm] at high
    exact lt_of_mul_lt_mul_right high (by positivity)

theorem abs_le {m : ℤ} {k : ℕ} (digits : n = m * 2 ^ k) (less : |m| < 2 ^ 53) : |n| ≤ 2 ^ (53 + k) := by
  rw [digits, abs_mul, abs_of_pos (by positivity : (0 : ℤ) < 2 ^ k), pow_add]
  exact mul_le_mul_of_nonneg_right less.le (by positivity)

/-- A multiple of the units of two short numbers that is larger than neither is short. -/
theorem of_common {a b c : ℤ} (first : Short a) (second : Short b)
    (common : ∀ i : ℕ, 2 ^ i ∣ a → 2 ^ i ∣ b → 2 ^ i ∣ c) (atMost : |c| ≤ |a|) (atMost' : |c| ≤ |b|) :
    Short c := by
  obtain ⟨x, j, left, less⟩ := first
  obtain ⟨y, k, right, less'⟩ := second
  rcases le_total j k with finer | finer
  · refine .of_dvd (common j (left ▸ dvd_mul_left _ _) (right ▸ (pow_dvd_pow 2 finer).mul_left y)) ?_
    exact atMost.trans (abs_le left less)
  · refine .of_dvd (common k (left ▸ (pow_dvd_pow 2 finer).mul_left x) (right ▸ dvd_mul_left _ _)) ?_
    exact atMost'.trans (abs_le right less')

/-- Between two short numbers there is at least the last bit of the smaller one. -/
theorem gap {a b : ℤ} (first : Short a) (second : Short b) (less : a < b) : a ≤ 2 ^ 53 * (b - a) := by
  obtain ⟨x, j, left, below⟩ := first
  obtain ⟨y, k, right, below'⟩ := second
  have apart (i : ℕ) (finer : i ≤ j) (finer' : i ≤ k) : 2 ^ (53 + i) ≤ 2 ^ 53 * (b - a) := by
    rw [pow_add]
    refine mul_le_mul_of_nonneg_left (Int.le_of_dvd (by omega) (dvd_sub ?_ ?_)) (by positivity)
    · exact right ▸ (pow_dvd_pow 2 finer').mul_left y
    · exact left ▸ (pow_dvd_pow 2 finer).mul_left x
  rcases le_total j k with finer | finer
  · exact ((le_abs_self a).trans (abs_le left below)).trans (apart j le_rfl finer)
  · exact less.le.trans (((le_abs_self b).trans (abs_le right below')).trans (apart k finer le_rfl))

end Short

/-- No short integer is nearer to the number. -/
structure Nearest (r : ℝ) (n : ℤ) : Prop where
  short : Short n
  least : ∀ g, Short g → |r - n| ≤ |r - g|

namespace Nearest

variable {r : ℝ} {n s a b g : ℤ} {k : ℕ}

theorem neg (nearest : Nearest r n) : Nearest (-r) (-n) where
  short := nearest.short.neg
  least g short := by
    have least := nearest.least (-g) short.neg
    rw [← abs_neg, ← abs_neg (r - _)] at least
    push_cast at least ⊢
    convert least using 2 <;> ring

theorem le_of_le (nearest : Nearest r n) (short : Short g) (atMost : r ≤ g) : n ≤ g := by
  by_contra beyond
  have larger : (g : ℝ) < n := by exact_mod_cast not_le.mp beyond
  have least := nearest.least g short
  rw [abs_of_nonpos (by linarith), abs_of_nonpos (by linarith)] at least
  linarith

theorem ge_of_ge (nearest : Nearest r n) (short : Short g) (atLeast : g ≤ r) : g ≤ n := by
  have flipped := nearest.neg.le_of_le short.neg (by push_cast; linarith)
  omega

theorem pow_le_abs (nearest : Nearest r n) (atLeast : 2 ^ k ≤ |r|) : 2 ^ k ≤ |n| := by
  rcases abs_choice r with positive | negative
  · rw [positive] at atLeast
    exact (nearest.ge_of_ge (.two_pow k) (by exact_mod_cast atLeast)).trans (le_abs_self n)
  · rw [negative] at atLeast
    exact (nearest.neg.ge_of_ge (.two_pow k) (by exact_mod_cast atLeast)).trans (neg_le_abs n)

/-- A multiple of a unit is nearest if it is no farther than half the unit, and the number large enough for
short numbers beside it to be multiples of the unit, too. -/
theorem of_unit {m : ℤ} (short : Short n) (multiple : n = m * 2 ^ k) (close : |r - n| ≤ 2 ^ k / 2)
    (large : k = 0 ∨ 2 ^ (52 + k) ≤ |r|) : Nearest r n where
  short := short
  least g short' := by
    by_contra nearer
    rw [not_le] at nearer
    -- No other multiple of the unit is as near as that.
    have other (c : ℤ) (divides : 2 ^ k ∣ c) : ¬ |r - c| < |r - n| := by
      intro less
      have apart : |(c : ℝ) - n| < 2 ^ k := by
        rw [← sub_sub_sub_cancel_left (n : ℝ) c r, ← abs_sub_comm]
        have parts := abs_sub (r - n) (r - c)
        linarith [abs_sub_comm (r - n) (r - c)]
      have zero : c - n = 0 :=
        Int.eq_zero_of_abs_lt_dvd (dvd_sub divides (multiple ▸ dvd_mul_left _ _)) (by exact_mod_cast apart)
      rw [sub_eq_zero.mp zero] at less
      exact less.false
    rcases large with rfl | large
    · exact other g (by simp) nearer
    · by_cases far : 2 ^ (52 + k) ≤ |g|
      · exact other g (short'.dvd far) nearer
      · -- The power of two between the two numbers is a multiple of the unit.
        have within : |(g : ℝ)| < 2 ^ (52 + k) := by exact_mod_cast not_le.mp far
        have ⟨low, high⟩ := abs_lt.mp within
        have power : (2 : ℤ) ^ k ∣ 2 ^ (52 + k) := pow_dvd_pow 2 (by omega)
        rcases le_total 0 r with positive | negative
        · rw [abs_of_nonneg positive] at large
          refine other (2 ^ (52 + k)) power (lt_trans ?_ nearer)
          push_cast
          rw [abs_of_nonneg (by linarith), abs_of_nonneg (by linarith)]
          linarith
        · rw [abs_of_nonpos negative] at large
          refine other (-2 ^ (52 + k)) (dvd_neg.mpr power) (lt_trans ?_ nearer)
          push_cast
          rw [abs_of_nonpos (by linarith), abs_of_nonpos (by linarith)]
          linarith

section Integers

variable (nearest : Nearest (s : ℝ) n)

include nearest

theorem least_int (short : Short g) : |s - n| ≤ |s - g| := by
  exact_mod_cast nearest.least g short

theorem eq_of_short (short : Short s) : n = s := by
  have none := nearest.least_int short
  rw [sub_self, abs_zero] at none
  have zero := abs_nonpos_iff.mp none
  omega

/-- Rounding clears bits. -/
theorem dvd (divides : 2 ^ k ∣ s) : 2 ^ k ∣ n := by
  by_cases small : |s| ≤ 2 ^ (53 + k)
  · rwa [nearest.eq_of_short (.of_dvd divides small)]
  · have large : (2 : ℝ) ^ (53 + k) ≤ |(s : ℝ)| := by exact_mod_cast (not_le.mp small).le
    refine nearest.short.dvd ((pow_le_pow_right₀ (by norm_num) (by omega)).trans (nearest.pow_le_abs large))

/-- What rounding takes is at most half of the last bit that it keeps. -/
theorem error_le_half : ∃ k : ℕ, 2 ^ k ∣ n ∧ 2 * |s - n| ≤ 2 ^ k := by
  obtain ⟨m, k, digits, less⟩ := nearest.short
  refine ⟨k, ⟨m, by rw [digits, mul_comm]⟩, ?_⟩
  -- The next number on the side of the sum is short.
  have beside (c : ℤ) (unit : |c| = 1) : |s - n| ≤ |s - n - c * 2 ^ k| := by
    have short : Short (n + c * 2 ^ k) := by
      refine .of_dvd (t := k) ⟨m + c, by rw [digits]; ring⟩ ?_
      have most : |m + c| ≤ 2 ^ 53 := (abs_add_le m c).trans (by omega)
      calc |n + c * 2 ^ k| = |m + c| * 2 ^ k := by
            rw [digits, ← add_mul, abs_mul, abs_of_pos (by positivity : (0 : ℤ) < 2 ^ k)]
        _ ≤ 2 ^ 53 * 2 ^ k := mul_le_mul_of_nonneg_right most (by positivity)
        _ = 2 ^ (53 + k) := (pow_add 2 53 k).symm
    have least := nearest.least_int short
    rwa [sub_add_eq_sub_sub] at least
  have unit : (0 : ℤ) < 2 ^ k := by positivity
  rcases le_total 0 (s - n) with above | below
  · have up := beside 1 (by norm_num)
    rw [abs_of_nonneg above, one_mul] at up
    rw [abs_of_nonneg above]
    rcases abs_cases (s - n - 2 ^ k) with ⟨same, -⟩ | ⟨same, -⟩ <;> omega
  · have down := beside (-1) (by norm_num)
    rw [abs_of_nonpos below, neg_one_mul, sub_neg_eq_add] at down
    rw [abs_of_nonpos below]
    rcases abs_cases (s - n + 2 ^ k) with ⟨same, -⟩ | ⟨same, -⟩ <;> omega

end Integers

/-- Rounding takes at most half of a number. -/
theorem double_error_le {l : ℤ} (nearest : Nearest ((n + l : ℤ) : ℝ) n) (short : Short l) (nonzero : l ≠ 0) :
    |2 * l| ≤ |n| := by
  obtain ⟨k, divides, half⟩ := nearest.error_le_half
  have some : n ≠ 0 := by
    rintro rfl
    have least := nearest.least_int short
    rw [zero_add, sub_zero, sub_self, abs_zero] at least
    exact nonzero (abs_nonpos_iff.mp least)
  rw [add_sub_cancel_left] at half
  calc |2 * l| = 2 * |l| := by rw [abs_mul, Nat.abs_ofNat]
    _ ≤ 2 ^ k := half
    _ ≤ |n| := Int.le_of_dvd (abs_pos.mpr some) ((dvd_abs _ _).mpr divides)

section Sums

variable (nearest : Nearest ((a + b : ℤ) : ℝ) n) (first : Short a) (second : Short b)

include nearest

theorem error_le_left (second : Short b) : |a + b - n| ≤ |a| := by
  have least := nearest.least_int second
  rwa [add_sub_cancel_right] at least

theorem error_le_right (first : Short a) : |a + b - n| ≤ |b| := by
  have least := nearest.least_int first
  rwa [add_sub_cancel_left] at least

include first second

/-- What rounding takes from a sum is short. -/
theorem short_error : Short (a + b - n) := by
  refine first.of_common second (fun i left right => ?_) (nearest.error_le_left second)
    (nearest.error_le_right first)
  exact dvd_sub (dvd_add left right) (nearest.dvd (dvd_add left right))

theorem short_sub_of_nonneg (nonneg : 0 ≤ a) (atMost : |b| ≤ a) : Short (n - a) := by
  by_cases exactly : Short (a + b)
  · rwa [nearest.eq_of_short exactly, add_sub_cancel_left]
  obtain ⟨m, k, digits, less, normal⟩ := first.normal
  rw [abs_of_nonneg nonneg] at normal
  have least : 0 ≤ a + b := by linarith [neg_abs_le b]
  rcases le_total 0 b with up | down
  · -- The sum is between the larger operand and its double, so it keeps that operand's bits.
    have above : a ≤ n := nearest.ge_of_ge first (by push_cast; exact_mod_cast (by omega : a ≤ a + b))
    have below : n ≤ 2 * a := by
      rw [abs_of_nonneg up] at atMost
      exact nearest.le_of_le first.double (by exact_mod_cast (by omega : a + b ≤ 2 * a))
    have unit : 2 ^ k ∣ n := by
      rcases normal with zero | large
      · simp [zero]
      · exact nearest.short.dvd (large.trans (above.trans (le_abs_self n)))
    refine .of_dvd (dvd_sub unit (digits ▸ dvd_mul_left _ _)) ((?_ : _ ≤ |a|).trans (Short.abs_le digits less))
    rw [abs_of_nonneg (by omega), abs_of_nonneg nonneg]
    omega
  · have below : n ≤ a := nearest.le_of_le first (by exact_mod_cast (by omega : a + b ≤ a))
    have above : 0 ≤ n := nearest.ge_of_ge .zero (by exact_mod_cast least)
    rw [abs_of_nonpos down] at atMost
    by_cases near : a ≤ -2 * b
    · -- Operands so close to each other cancel without a rest.
      refine absurd (first.of_common second (fun i => dvd_add) ?_ ?_) exactly
      · rw [abs_of_nonneg least, abs_of_nonneg nonneg]
        omega
      · rw [abs_of_nonneg least, abs_of_nonpos down]
        omega
    · cases k with
      | zero =>
        refine .of_small (lt_of_le_of_lt ?_ less)
        rw [pow_zero, mul_one] at digits
        rw [← digits, abs_of_nonpos (by omega), abs_of_nonneg nonneg]
        omega
      | succ k =>
        -- The sum is beyond half of the larger operand, which has one bit less to keep.
        have large := normal.resolve_left (Nat.succ_ne_zero k)
        have half : a = 2 * (m * 2 ^ k) := by rw [digits, pow_succ]; ring
        have beyond : m * 2 ^ k ≤ n :=
          nearest.ge_of_ge ⟨m, k, rfl, less⟩ (by exact_mod_cast (by omega : m * 2 ^ k ≤ a + b))
        have unit : 2 ^ k ∣ n := by
          refine nearest.short.dvd ?_
          rw [abs_of_nonneg above]
          rw [← Nat.add_assoc, pow_succ] at large
          omega
        refine .of_dvd (dvd_sub unit (half ▸ (dvd_mul_left _ _).mul_left 2))
          ((?_ : _ ≤ |m * 2 ^ k|).trans (Short.abs_le rfl less))
        rw [abs_of_nonpos (by omega), abs_of_nonneg (by omega)]
        omega

end Sums

/-- A sum is on the side of its larger operand. -/
theorem abs_sub_le_max (nearest : Nearest ((a + b : ℤ) : ℝ) n) (atMost : |b| ≤ |a|) :
    |n - a| ≤ max |n| |a| := by
  have above (nonneg : 0 ≤ a + b) : 0 ≤ n := nearest.ge_of_ge .zero (by exact_mod_cast nonneg)
  have below (nonpos : a + b ≤ 0) : n ≤ 0 := nearest.le_of_le .zero (by exact_mod_cast nonpos)
  rw [le_max_iff]
  rcases abs_cases a with ⟨same, _⟩ | ⟨same, _⟩ <;> rcases abs_cases b with ⟨same', _⟩ | ⟨same', _⟩ <;>
    rcases abs_cases n with ⟨same'', _⟩ | ⟨same'', _⟩ <;>
    rcases abs_cases (n - a) with ⟨_, _⟩ | ⟨_, _⟩ <;> omega

/-- What a sum adds to its larger operand is short. -/
theorem short_sub (nearest : Nearest ((a + b : ℤ) : ℝ) n) (first : Short a) (second : Short b)
    (atMost : |b| ≤ |a|) : Short (n - a) := by
  rcases le_total 0 a with nonneg | nonpos
  · rw [abs_of_nonneg nonneg] at atMost
    exact nearest.short_sub_of_nonneg first second nonneg atMost
  · rw [abs_of_nonpos nonpos, ← abs_neg b] at atMost
    have flipped : Nearest ((-a + -b : ℤ) : ℝ) (-n) := by
      convert nearest.neg using 1
      push_cast
      ring
    have short := (flipped.short_sub_of_nonneg first.neg second.neg (by omega) atMost).neg
    rwa [show -(-n - -a) = n - a by ring] at short

end Nearest

end ChanceGraph
