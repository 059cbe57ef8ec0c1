import ChanceGraph.Proofs.Exact
import ChanceGraph.Proofs.Outcome

/-!
Numbers and sums in exact arithmetic: a sum that rounds once is the sum, and it is finite only if
all that it adds is.
-/

set_option autoImplicit false

namespace ChanceGraph

namespace Number

def toExact : Number Exact → Exact
  | .int n => .finite n
  | .real x => x

@[simp] theorem toExact_int (n : Int) : (Number.int n : Number Exact).toExact = .finite n := rfl

@[simp] theorem toExact_real (x : Exact) : (Number.real x).toExact = x := rfl

@[simp] theorem toExact_one : (Number.one : Number Exact).toExact = 1 := rfl

@[simp] theorem toScalar_exact (n : Number Exact) : n.toScalar = .ok n.toExact := by
  cases n with
  | int n => simp [toScalar, scalarOfInt, Scalar.ofInt?, Scalar.ofRatio?]
  | real x => rfl

theorem mul_exact (a b : Number Exact) :
    ∃ c, a.mul b = .ok c ∧ c.toExact = a.toExact * b.toExact := by
  cases a with
  | int m =>
    cases b with
    | int n => exact ⟨.int (m * n), rfl, by simp⟩
    | real y => exact ⟨.real (.finite m * y), by simp [mul, combine], rfl⟩
  | real x =>
    cases b <;> refine ⟨.real (x * toExact _), by simp [mul, combine], rfl⟩

theorem log_exact {n : Number Exact} {x : ℝ} (value : n.toExact = .finite x) (positive : 0 < x) :
    n.log = .finite (Real.log x) := by
  cases n with
  | int n =>
    simp only [toExact_int, Exact.finite.injEq] at value
    simp [log, Scalar.ofInt?, Scalar.ofRatio?, value, Exact.finite_log positive]
  | real y =>
    simp only [toExact_real] at value
    simp [log, value, Exact.finite_log positive]

theorem lt_exact (a b : Number Exact) : a.lt b = true ↔ a.toExact < b.toExact := by
  cases a with
  | int m =>
    cases b with
    | int n => simp [lt]
    | real y =>
      cases y with
      | finite y =>
        -- An integer is below a real that has it for its floor, too, unless that real is the integer.
        simp only [lt, Exact.finite_floor, Exact.finite_isIntegral, toExact_int, toExact_real,
          Exact.finite_lt, Bool.or_eq_true, Bool.and_eq_true, decide_eq_true_eq, beq_iff_eq,
          Bool.not_eq_true', decide_eq_false_iff_not]
        constructor
        · rintro (below | ⟨rfl, fraction⟩)
          · exact (by exact_mod_cast below : (m : ℝ) < ⌊y⌋).trans_le (Int.floor_le y)
          · exact lt_of_le_of_ne (Int.floor_le y) fraction
        · intro below
          rcases (Int.le_floor.mpr below.le).lt_or_eq with less | rfl
          · exact .inl less
          · exact .inr ⟨rfl, below.ne⟩
      | infinite positive =>
        cases positive with
        | false => constructor <;> intro holds <;> cases holds
        | true => exact ⟨fun _ => rfl, fun _ => rfl⟩
      | undefined => constructor <;> intro holds <;> cases holds
  | real x =>
    cases b with
    | int n =>
      cases x with
      | finite x =>
        simp only [lt, Exact.finite_floor, toExact_int, toExact_real, Exact.finite_lt,
          decide_eq_true_eq]
        exact Int.floor_lt
      | infinite positive =>
        cases positive with
        | false => exact ⟨fun _ => rfl, fun _ => rfl⟩
        | true => constructor <;> intro holds <;> cases holds
      | undefined => constructor <;> intro holds <;> cases holds
    | real y => exact decide_eq_true_iff

theorem le_exact (a b : Number Exact) : a.le b = true ↔ a.toExact ≤ b.toExact := by
  cases a with
  | int m =>
    cases b with
    | int n => simp [le]
    | real y =>
      cases y with
      | finite y =>
        simp only [le, Exact.finite_floor, toExact_int, toExact_real, Exact.finite_le,
          decide_eq_true_eq]
        exact Int.le_floor
      | infinite positive =>
        cases positive with
        | false => constructor <;> intro holds <;> cases holds
        | true => exact ⟨fun _ => rfl, fun _ => rfl⟩
      | undefined => constructor <;> intro holds <;> cases holds
  | real x =>
    cases b with
    | int n =>
      cases x with
      | finite x =>
        -- A real is at most an integer if its floor is less, or if it is that integer itself.
        simp only [le, Exact.finite_floor, Exact.finite_isIntegral, toExact_int, toExact_real,
          Exact.finite_le, Bool.or_eq_true, Bool.and_eq_true, decide_eq_true_eq, beq_iff_eq]
        constructor
        · rintro (below | ⟨rfl, integral⟩)
          · exact (Int.floor_lt.mp below).le
          · exact integral.ge
        · intro atMost
          rcases atMost.lt_or_eq with below | rfl
          · exact .inl (Int.floor_lt.mpr below)
          · simp
      | infinite positive =>
        cases positive with
        | false => exact ⟨fun _ => rfl, fun _ => rfl⟩
        | true => constructor <;> intro holds <;> cases holds
      | undefined => constructor <;> intro holds <;> cases holds
    | real y => exact decide_eq_true_iff

end Number

namespace Value

theorem precedes_number {a : Value Exact} {m : Number Exact} (number : a.number? = some m)
    (bound : Bound) (b : Value Exact) : a.precedes bound b = numberPrecedes bound m b := by
  cases a <;> simp_all [number?, precedes]

theorem holds_of_precedes {a b : Value Exact} {m : Number Exact} {bound : Bound}
    (number : a.number? = some m) (holds : a.precedes bound b = .ok true) :
    ∃ n, b.number? = some n ∧ bound.holds m n = true := by
  rw [precedes_number number, numberPrecedes] at holds
  cases known : b.number? with
  | none => simp [known] at holds
  | some n => exact ⟨n, rfl, by simpa [known] using holds⟩

theorem toScalar_number {a : Value Exact} {m : Number Exact} (number : a.number? = some m) :
    a.toScalar = .ok m.toExact := by
  cases a <;> simp_all [number?, toScalar, toNumber, Except.bind, bind]

end Value

namespace Exact

open Scalar

/-- The state of a sum to which finite numbers with this total were added. -/
noncomputable def summed (total : ℝ) : PartialSum Exact :=
  ⟨if total = 0 then [] else [.finite total], 0, 0⟩

theorem addExact_finite (x y : ℝ) :
    Scalar.addExact (Exact.finite x) (.finite y) = (.finite (x + y), .finite 0) := by
  unfold Scalar.addExact
  split_ifs <;> simp [add_comm]

theorem add_summed (total x : ℝ) :
    (summed total).add (.finite x) = .ok (summed (total + x)) := by
  by_cases empty : total = 0
  · by_cases nothing : x = 0 <;>
      simp [PartialSum.add, summed, absorb, empty, nothing, zero_eq]
  · -- A sum of zero keeps no parts.
    by_cases nothing : total + x = 0
    · simp [PartialSum.add, summed, absorb, addExact_finite, empty, nothing, zero_eq,
        add_comm x total]
    · simp [PartialSum.add, summed, absorb, addExact_finite, empty, nothing, zero_eq,
        add_comm x total]

theorem result_summed (total : ℝ) : (summed total).result = .ok (.finite total) := by
  by_cases empty : total = 0 <;>
    simp [PartialSum.result, summed, empty, zero_eq, PartialSum.collapse, PartialSum.settle]

theorem add_ne_finite {x y : Exact} (special : (∀ r : ℝ, x ≠ .finite r) ∨ ∀ r : ℝ, y ≠ .finite r)
    (r : ℝ) : x + y ≠ .finite r := by
  change add x y ≠ _
  cases x <;> cases y <;> simp [add] at special ⊢
  split <;> simp

def IsFinite (x : Exact) : Prop :=
  ∃ r, x = .finite r

theorem isFinite_add (x y : Exact) : (x + y).IsFinite ↔ x.IsFinite ∧ y.IsFinite := by
  constructor
  · rintro ⟨r, sum⟩
    by_contra special
    rw [not_and_or] at special
    refine add_ne_finite ?_ r sum
    exact special.imp (fun absent s same => absent ⟨s, same⟩) fun absent s same => absent ⟨s, same⟩
  · rintro ⟨⟨r, rfl⟩, s, rfl⟩
    exact ⟨r + s, rfl⟩

theorem isFinite_of_ne {x : Exact} (special : ∀ r : ℝ, x ≠ .finite r) : isFinite x = false := by
  cases x with
  | finite x => exact absurd rfl (special x)
  | infinite positive => rfl
  | undefined => rfl

theorem beq_zero_of_ne {x : Exact} (special : ∀ r : ℝ, x ≠ .finite r) : (x == 0) = false := by
  cases x with
  | finite x => exact absurd rfl (special x)
  | infinite positive => rfl
  | undefined => rfl

theorem absorb_ne_finite (parts : List Exact) {x : Exact} (special : ∀ r : ℝ, x ≠ .finite r)
    (r : ℝ) : (absorb x parts).1 ≠ .finite r := by
  induction parts generalizing x with
  | nil => exact special r
  | cons y parts ih =>
    apply ih
    intro r
    change (addExact x y).1 ≠ _
    unfold addExact
    -- The larger operand stands first, so the special one may be either.
    split_ifs
    · exact add_ne_finite (.inr special) r
    · exact add_ne_finite (.inl special) r

/-- Only the sign of what is infinite is kept. -/
theorem add_infinite (total : ℝ) (positive : Bool) :
    (summed total).add (.infinite positive) = .ok ⟨[], .infinite positive, .infinite positive⟩ := by
  have special (r : ℝ) : Exact.infinite positive ≠ .finite r := nofun
  have rest := absorb_ne_finite (summed total).parts special
  simp only [PartialSum.add, beq_zero_of_ne rest, isFinite_of_ne rest, isFinite_of_ne special,
    Bool.false_eq_true, if_false]
  rfl

/-- No finite number comes of the sum any more. -/
def Spoiled (sum : PartialSum Exact) : Prop :=
  ∀ x : ℝ, sum.special ≠ .finite x

theorem Spoiled.add {sum sum' : PartialSum Exact} {x : Exact} (spoiled : Spoiled sum)
    (added : sum.add x = .ok sum') : Spoiled sum' := by
  simp only [PartialSum.add] at added
  split_ifs at added <;> cases added
  · exact spoiled
  · exact spoiled
  · exact add_ne_finite (.inl spoiled)
  · exact add_ne_finite (.inl spoiled)

theorem spoiled_of_add {sum sum' : PartialSum Exact} {x : Exact} (special : ∀ r : ℝ, x ≠ .finite r)
    (added : sum.add x = .ok sum') : Spoiled sum' := by
  have rest := absorb_ne_finite sum.parts special
  simp only [PartialSum.add, beq_zero_of_ne rest, isFinite_of_ne rest, isFinite_of_ne special,
    Bool.false_eq_true, if_false] at added
  cases added
  exact add_ne_finite (.inr special)

theorem Spoiled.result {sum : PartialSum Exact} (spoiled : Spoiled sum) (x : ℝ) :
    sum.result ≠ .ok (.finite x) := by
  simp only [PartialSum.result, beq_zero_of_ne spoiled]
  split_ifs <;> simp_all [Spoiled]

end Exact

section AnyScalar

variable {S α : Type}

theorem ofSumError_ok {x : Except SumError α} {a : α} :
    (ofSumError x : Outcome S α) = .ok a ↔ x = .ok a := by
  rcases x with (_ | _) | x <;> simp [ofSumError]

theorem ofSumError_bind {β : Type} (x : Except SumError α) (f : α → Except SumError β) :
    (ofSumError (x >>= f) : Outcome S β) = ofSumError x >>= fun a => ofSumError (f a) := by
  rcases x with (_ | _) | x <;> rfl

variable [Scalar S] {f : α → Outcome S S} {items : List α}

theorem exactSumBy_of_ok {x : α → S} (each : ∀ a ∈ items, f a = .ok (x a)) :
    exactSumBy f items = ofSumError (Scalar.sum (items.map x)) := by
  have folded (sum : Scalar.PartialSum S) :
      items.foldlM (fun sum a => do ofSumError (Scalar.PartialSum.add sum (← f a))) sum =
        (ofSumError ((items.map x).foldlM Scalar.PartialSum.add sum) : Outcome S _) := by
    induction items generalizing sum with
    | nil => rfl
    | cons a rest ih =>
      obtain ⟨first, others⟩ := List.forall_mem_cons.mp each
      rw [List.map_cons, List.foldlM_cons, List.foldlM_cons, ofSumError_bind, first]
      exact bind_congr (ih others)
  rw [exactSumBy, Scalar.sum, ofSumError_bind, folded]

theorem exactSumBy_eq_sum (x : α → S) (items : List α) :
    exactSumBy (fun a => .ok (x a)) items = ofSumError (Scalar.sum (items.map x)) :=
  exactSumBy_of_ok fun _ _ => rfl

end AnyScalar

section ExactSumBy

open Exact

variable {α : Type} {f : α → Outcome Exact Exact} {items : List α}

theorem spoiled_foldlM {sum sum' : Scalar.PartialSum Exact} (spoiled : Spoiled sum)
    (folded : items.foldlM (fun sum a => do ofSumError (Scalar.PartialSum.add sum (← f a))) sum =
      (.ok sum' : Outcome Exact _)) : Spoiled sum' := by
  refine Outcome.foldlM_preserves (fun sum a _ next spoiled stepped => ?_) spoiled folded
  obtain ⟨_, -, added⟩ := Outcome.bind_ok.mp stepped
  exact spoiled.add (ofSumError_ok.mp added)

theorem foldlM_summed {r : α → ℝ} (each : ∀ a ∈ items, f a = .ok (.finite (r a))) (total : ℝ) :
    items.foldlM (fun sum a => do ofSumError (Scalar.PartialSum.add sum (← f a))) (summed total) =
      (.ok (summed (total + (items.map r).sum)) : Outcome Exact _) := by
  induction items generalizing total with
  | nil => simp [pure, Except.pure]
  | cons a rest ih =>
    simp only [List.mem_cons, forall_eq_or_imp] at each
    rw [List.foldlM_cons, each.1, Outcome.ok_bind, add_summed]
    exact (ih each.2 _).trans (by simp [add_assoc])

theorem zero_eq_summed : (.zero : Scalar.PartialSum Exact) = summed 0 := by
  simp [Scalar.PartialSum.zero, summed]

theorem exactSumBy_finite {r : α → ℝ} (each : ∀ a ∈ items, f a = .ok (.finite (r a))) :
    exactSumBy f items = .ok (.finite (items.map r).sum) := by
  rw [exactSumBy, zero_eq_summed, foldlM_summed each, Outcome.ok_bind, result_summed, zero_add]
  rfl

theorem finite_of_foldlM {total x : ℝ} {sum : Scalar.PartialSum Exact}
    (folded : items.foldlM (fun sum a => do ofSumError (Scalar.PartialSum.add sum (← f a)))
      (summed total) = (.ok sum : Outcome Exact _))
    (result : sum.result = .ok (.finite x)) : ∀ a ∈ items, ∃ r : ℝ, f a = .ok (.finite r) := by
  induction items generalizing total with
  | nil => simp
  | cons a rest ih =>
    rw [List.foldlM_cons] at folded
    obtain ⟨next, added, folded⟩ := Outcome.bind_ok.mp folded
    obtain ⟨y, value, added⟩ := Outcome.bind_ok.mp added
    have added := ofSumError_ok.mp added
    by_cases finite : ∃ r : ℝ, y = .finite r
    · obtain ⟨r, rfl⟩ := finite
      rw [add_summed] at added
      cases added
      exact List.forall_mem_cons.mpr ⟨⟨r, value⟩, ih folded⟩
    · -- The first number that is not finite spoils the sum.
      have spoiled := spoiled_of_add (fun r same => finite ⟨r, same⟩) added
      exact absurd result ((spoiled_foldlM spoiled folded).result x)

theorem finite_of_exactSumBy {x : ℝ} (sums : exactSumBy f items = .ok (.finite x)) :
    ∃ r : α → ℝ, (∀ a ∈ items, f a = .ok (.finite (r a))) ∧ (items.map r).sum = x := by
  obtain ⟨sum, folded, result⟩ := Outcome.bind_ok.mp sums
  rw [zero_eq_summed] at folded
  have each := finite_of_foldlM folded (ofSumError_ok.mp result)
  choose! r each using each
  rw [exactSumBy_finite each] at sums
  cases sums
  exact ⟨r, each, rfl⟩

end ExactSumBy

end ChanceGraph
