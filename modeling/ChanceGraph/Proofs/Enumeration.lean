import ChanceGraph.Enumerate
import ChanceGraph.Proofs.Law

/-!
The mass of what an enumeration lists: that of a bind is taken in turn, and a filter loses what its
predicate refuses.
-/

set_option autoImplicit false

namespace ChanceGraph

def Exact.IsMass (x : Exact) : Prop :=
  ∃ r : ℝ, x = .finite r ∧ 0 ≤ r

theorem Exact.IsMass.toReal_nonneg {x : Exact} (mass : x.IsMass) : 0 ≤ x.toReal := by
  obtain ⟨r, rfl, nonneg⟩ := mass
  exact nonneg

theorem Exact.isMass_finite {r : ℝ} (nonneg : 0 ≤ r) : (Exact.finite r).IsMass :=
  ⟨r, rfl, nonneg⟩

theorem Exact.IsMass.mul {x y : Exact} (mass : x.IsMass) (mass' : y.IsMass) :
    (x * y).IsMass ∧ (x * y).toReal = x.toReal * y.toReal := by
  obtain ⟨r, rfl, nonneg⟩ := mass
  obtain ⟨s, rfl, nonneg'⟩ := mass'
  exact ⟨isMass_finite (mul_nonneg nonneg nonneg'), rfl⟩

/-- What the items are worth, each counted with its weight. -/
noncomputable def mass (items : List (Weighted Exact)) (h : Value Exact → ℝ) : ℝ :=
  (items.map fun w => w.weight.toExact.toReal * h w.value).sum

/-- The items have weights that can be masses, and values that can be keys. -/
def Countable (items : List (Weighted Exact)) : Prop :=
  ∀ w ∈ items, w.weight.toExact.IsMass ∧ w.value.isKey = true

section Mass

variable {items : List (Weighted Exact)} {f g : Value Exact → ℝ}

theorem mass_congr (same : ∀ w ∈ items, f w.value = g w.value) : mass items f = mass items g :=
  congrArg List.sum (List.map_congr_left fun w listed => by rw [same w listed])

theorem mass_mul (items : List (Weighted Exact)) (x : ℝ) (h : Value Exact → ℝ) :
    (mass items fun v => x * h v) = x * mass items h := by
  simp only [mass, mul_left_comm _ x, List.sum_map_mul_left]

theorem mass_nonneg (countable : Countable items) (nonneg : ∀ v, 0 ≤ f v) : 0 ≤ mass items f := by
  refine List.sum_nonneg fun x term => ?_
  obtain ⟨w, listed, rfl⟩ := List.mem_map.mp term
  exact mul_nonneg (countable w listed).1.toReal_nonneg (nonneg _)

theorem term_le_mass (countable : Countable items) (nonneg : ∀ w ∈ items, 0 ≤ f w.value)
    {w : Weighted Exact} (listed : w ∈ items) : w.weight.toExact.toReal * f w.value ≤ mass items f := by
  refine List.single_le_sum (fun x term => ?_) _ (List.mem_map_of_mem listed)
  obtain ⟨v, listed, rfl⟩ := List.mem_map.mp term
  exact mul_nonneg (countable v listed).1.toReal_nonneg (nonneg v listed)

theorem mass_pos (countable : Countable items) (nonneg : ∀ w ∈ items, 0 ≤ f w.value) {w : Weighted Exact}
    (listed : w ∈ items) (weighs : 0 < w.weight.toExact.toReal) (counts : 0 < f w.value) :
    0 < mass items f :=
  (mul_pos weighs counts).trans_le (term_le_mass countable nonneg listed)

theorem exists_of_mass_pos (countable : Countable items) (nonneg : ∀ v, 0 ≤ f v)
    (positive : 0 < mass items f) : ∃ w ∈ items, 0 < w.weight.toExact.toReal ∧ 0 < f w.value := by
  by_contra none
  push Not at none
  refine positive.ne' (List.sum_eq_zero fun x term => ?_)
  obtain ⟨w, listed, rfl⟩ := List.mem_map.mp term
  rcases (countable w listed).1.toReal_nonneg.eq_or_lt with zero | weighs
  · simp [← zero]
  · rw [le_antisymm (none w listed weighs) (nonneg _), mul_zero]

theorem mass_congr_of_pos (countable : Countable items)
    (same : ∀ w ∈ items, 0 < w.weight.toExact.toReal → f w.value = g w.value) :
    mass items f = mass items g := by
  refine congrArg List.sum (List.map_congr_left fun w listed => ?_)
  rcases (countable w listed).1.toReal_nonneg.eq_or_lt with zero | weighs
  · rw [← zero, zero_mul, zero_mul]
  · rw [same w listed weighs]

theorem mass_flatten (lists : List (List (Weighted Exact))) (h : Value Exact → ℝ) :
    mass lists.flatten h = (lists.map fun items => mass items h).sum := by
  simp [mass, Function.comp_def]

end Mass

theorem mapM_sums {α β ι : Type} {f : α → Outcome Exact β} {xs : List α} {good : β → Prop}
    {of : ι → β → ℝ} {from' : ι → α → ℝ}
    (each : ∀ x ∈ xs, ∃ y, f x = .ok y ∧ good y ∧ ∀ i, of i y = from' i x) :
    ∃ ys, xs.mapM f = .ok ys ∧ (∀ y ∈ ys, good y) ∧ ∀ i, (ys.map (of i)).sum = (xs.map (from' i)).sum := by
  induction xs with
  | nil => exact ⟨[], rfl, by simp, fun _ => rfl⟩
  | cons x rest ih =>
    have ⟨⟨y, head, first, same⟩, later⟩ := List.forall_mem_cons.mp each
    obtain ⟨ys, tail, goods, sums⟩ := ih later
    refine ⟨y :: ys, ?_, List.forall_mem_cons.mpr ⟨first, goods⟩, fun i => ?_⟩
    · rw [List.mapM_cons, head, Outcome.ok_bind, tail]
      rfl
    · rw [List.map_cons, List.map_cons, List.sum_cons, List.sum_cons, same, sums]

namespace Node

structure Enumerates (n : Node Exact) (items : List (Weighted Exact)) : Prop where
  enumerated : enumerate n = .ok items
  countable : Countable items

variable {n : Node Exact} {items : List (Weighted Exact)} {p : Value Exact → Outcome Exact Bool}

theorem Enumerates.combined {under : List (Weighted Exact)} (called : n.Enumerates under)
    {f : Value Exact → Value Exact → Outcome Exact (Value Exact)} {a : Weighted Exact}
    (weight : a.weight.toExact.IsMass)
    (total : ∀ c ∈ under, ∃ r, f a.value c.value = .ok r ∧ r.isKey = true) :
    ∃ list, (do (← enumerate n).mapM (combined (fun v u => do return ⟨← f v u, .one⟩) a)) =
        (.ok list : Outcome Exact _) ∧ Countable list ∧
      ∀ h, mass list h = a.weight.toExact.toReal * mass under fun u => Outcome.worth h (f a.value u) := by
  have each (c : Weighted Exact) (member : c ∈ under) :
      ∃ w, ChanceGraph.combined (fun v u => do return ⟨← f v u, .one⟩) a c = .ok w ∧
        (w.weight.toExact.IsMass ∧ w.value.isKey = true) ∧
          ∀ h : Value Exact → ℝ, w.weight.toExact.toReal * h w.value =
            a.weight.toExact.toReal * (c.weight.toExact.toReal * Outcome.worth h (f a.value c.value)) := by
    obtain ⟨r, known, hashable⟩ := total c member
    obtain ⟨x, product, value⟩ := Number.mul_exact a.weight c.weight
    obtain ⟨y, whole, value'⟩ := Number.mul_exact x .one
    have ⟨masses, toReal⟩ := weight.mul (called.countable c member).1
    rw [Number.toExact_one, Exact.mul_comm, Exact.one_mul, value] at value'
    refine ⟨⟨r, y⟩, by simp [ChanceGraph.combined, known, product, whole, pure, Except.pure],
      ⟨value' ▸ masses, hashable⟩, fun h => ?_⟩
    rw [value', toReal, known, Outcome.worth, mul_assoc]
  obtain ⟨list, mapped, fits, sums⟩ := mapM_sums each
  refine ⟨list, by rw [called.enumerated, Outcome.ok_bind, mapped], fits, fun h => ?_⟩
  exact (sums h).trans (List.sum_map_mul_left ..)

theorem Enumerates.bind {dependent : Value Exact → Nat → Node Exact}
    {f : Value Exact → Value Exact → Outcome Exact (Value Exact)}
    {under : Value Exact → List (Weighted Exact)} (source : n.Enumerates items)
    (calls : ∀ a ∈ items, (dependent a.value 0).Enumerates (under a.value))
    (total : ∀ a ∈ items, ∀ c ∈ under a.value, ∃ r, f a.value c.value = .ok r ∧ r.isKey = true) :
    ∃ joint, (n.bind dependent f).Enumerates joint ∧
      ∀ h, mass joint h = mass items fun v => mass (under v) fun u => Outcome.worth h (f v u) := by
  obtain ⟨lists, mapped, fits, sums⟩ := mapM_sums fun a listed =>
    (calls a listed).combined (source.countable a listed).1 (total a listed)
  refine ⟨lists.flatten, ⟨?_, ?_⟩, fun h => ?_⟩
  · rw [Node.bind, enumerate, source.enumerated, Outcome.ok_bind, mapped]
    rfl
  · intro w listed
    obtain ⟨list, member, listed⟩ := List.mem_flatten.mp listed
    exact fits list member w listed
  · exact (mass_flatten lists h).trans (sums h)

/-- The predicate gives an answer for all that is listed. -/
def Decides (p : Value Exact → Outcome Exact Bool) (items : List (Weighted Exact)) : Prop :=
  ∀ w ∈ items, ∃ b, p w.value = .ok b

def holds (p : Value Exact → Outcome Exact Bool) (w : Weighted Exact) : Bool :=
  (p w.value).toOption.getD false

theorem Decides.holds (decides : Decides p items) {w : Weighted Exact} (listed : w ∈ items) :
    p w.value = .ok (Node.holds p w) := by
  obtain ⟨b, known⟩ := decides w listed
  simp [Node.holds, known, Except.toOption]

theorem Decides.enumerate (decides : Decides p items) (listed : enumerate n = .ok items) :
    ChanceGraph.enumerate (n.filter p) = .ok (items.filter (Node.holds p)) := by
  rw [ChanceGraph.enumerate, listed, Outcome.ok_bind, Outcome.filterM_decided fun w => decides.holds]

theorem Decides.filter (decides : Decides p items) (keep : Weighted Exact → Bool) :
    Decides p (items.filter keep) :=
  fun w listed => decides w (List.mem_of_mem_filter listed)

theorem Enumerates.filter (source : n.Enumerates items) (decides : Decides p items) :
    ∃ kept, (n.filter p).Enumerates kept ∧ ∀ h, mass kept h = mass items (answering p true h) := by
  refine ⟨items.filter (Node.holds p), ⟨decides.enumerate source.enumerated, ?_⟩, fun h => ?_⟩
  · exact fun w listed => source.countable w (List.mem_of_mem_filter listed)
  · have counted (w : Weighted Exact) (listed : w ∈ items) :
        w.weight.toExact.toReal * answering p true h w.value =
          if Node.holds p w then w.weight.toExact.toReal * h w.value else 0 := by
      rw [answering_ok (decides.holds listed), mul_ite, mul_zero]
    rw [mass, mass, List.map_congr_left counted, List.sum_map_ite]
    simp

end Node

end ChanceGraph
