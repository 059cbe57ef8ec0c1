import ChanceGraph.Normalize
import ChanceGraph.Proofs.Alike
import ChanceGraph.Proofs.Enumeration

/-!
Grouping by keys: of the values with one key the first one stays, with the weights of all.  Tables and
posteriors are both such groups, with weights that are shares of the whole.
-/

set_option autoImplicit false

namespace ChanceGraph

section Firsts

variable {α : Type} {same : α → α → Bool}

/-- The items that are not the same as one before them. -/
def firsts (same : α → α → Bool) : List α → List α
  | [] => []
  | x :: rest => x :: (firsts same rest).filter fun y => !same x y

theorem mem_of_firsts {x : α} {xs : List α} (first : x ∈ firsts same xs) : x ∈ xs := by
  induction xs with
  | nil => exact first
  | cons y rest ih =>
    rcases List.mem_cons.mp first with rfl | later
    · exact List.mem_cons_self
    · exact List.mem_cons_of_mem _ (ih (List.mem_filter.mp later).1)

theorem firsts_apart (same : α → α → Bool) (xs : List α) :
    (firsts same xs).Pairwise fun x y => same x y = false := by
  induction xs with
  | nil => exact .nil
  | cons x rest ih =>
    refine List.pairwise_cons.mpr ⟨fun y later => ?_, ih.filter _⟩
    simpa using (List.mem_filter.mp later).2

theorem firsts_of_apart {xs : List α} (apart : xs.Pairwise fun x y => same x y = false) :
    firsts same xs = xs := by
  induction xs with
  | nil => rfl
  | cons x rest ih =>
    have ⟨before, apart⟩ := List.pairwise_cons.mp apart
    rw [firsts, ih apart, List.filter_eq_self.mpr]
    intro y later
    simp [before y later]

theorem firsts_map {β : Type} {f : β → α} (xs : List β) :
    firsts same (xs.map f) = (firsts (fun x y => same (f x) (f y)) xs).map f := by
  induction xs with
  | nil => rfl
  | cons x rest ih => simp [firsts, ih, List.filter_map, Function.comp_def]

theorem firsts_concat (xs : List α) (x : α) :
    firsts same (xs ++ [x]) = firsts same xs ++ if xs.any (same · x) then [] else [x] := by
  induction xs with
  | nil => rfl
  | cons y rest ih =>
    rw [List.cons_append, firsts, firsts, ih, List.filter_append, List.cons_append]
    cases known : same y x <;> cases earlier : rest.any (same · x) <;> simp [known, earlier]

theorem firsts_filter {keep : α → Bool} (kept : ∀ x y, same x y = true → keep x = keep y) (xs : List α) :
    firsts same (xs.filter keep) = (firsts same xs).filter keep := by
  induction xs with
  | nil => rfl
  | cons x rest ih =>
    cases known : keep x with
    | true =>
      rw [List.filter_cons_of_pos known, firsts, firsts, ih, List.filter_cons_of_pos known,
        List.filter_filter, List.filter_filter]
      simp only [Bool.and_comm]
    | false =>
      rw [List.filter_cons_of_neg (by simp [known]), firsts, ih, List.filter_cons_of_neg (by simp [known]),
        List.filter_filter]
      refine List.filter_congr fun y _ => ?_
      -- What is the same as an item that goes would go as well.
      cases alike : same x y with
      | false => simp
      | true => simp [← kept x y alike, known]

variable (equivalence : Equivalence fun x y => same x y = true)

include equivalence

theorem exists_first {x : α} {xs : List α} (member : x ∈ xs) : ∃ y ∈ firsts same xs, same y x = true := by
  induction xs with
  | nil => cases member
  | cons y rest ih =>
    by_cases known : same y x = true
    · exact ⟨y, List.mem_cons_self, known⟩
    · have differs : x ≠ y := by
        rintro rfl
        exact known (equivalence.refl x)
      obtain ⟨z, first, alike⟩ := ih (List.mem_of_ne_of_mem differs member)
      refine ⟨z, List.mem_cons_of_mem _ (List.mem_filter.mpr ⟨first, ?_⟩), alike⟩
      simpa using fun alike' => known (equivalence.trans alike' alike)

theorem firsts_firsts {finer : α → α → Bool} {xs : List α}
    (coarser : ∀ x ∈ xs, ∀ y ∈ xs, finer x y = true → same x y = true) :
    firsts same (firsts finer xs) = firsts same xs := by
  induction xs with
  | nil => rfl
  | cons x rest ih =>
    have congruent (y z : α) (alike : same y z = true) : (!same x y) = !same x z := by
      rw [Bool.eq_iff_iff, Bool.not_eq_true', Bool.not_eq_true', Bool.eq_false_iff, Bool.eq_false_iff]
      exact not_congr ⟨fun first => equivalence.trans first alike,
        fun first => equivalence.trans first (equivalence.symm alike)⟩
    have later := ih fun y listed z listed' =>
      coarser y (List.mem_cons_of_mem _ listed) z (List.mem_cons_of_mem _ listed')
    rw [firsts, firsts, firsts, ← firsts_filter congruent, List.filter_filter, ← later,
      ← firsts_filter congruent]
    congr 2
    refine List.filter_congr fun y first => ?_
    -- What is the same as the head by the finer way goes with it by the coarser one.
    cases known : finer x y with
    | false => simp
    | true => simp [coarser x List.mem_cons_self y (List.mem_cons_of_mem _ (mem_of_firsts first)) known]

theorem sum_first {x : α} {xs : List α} (member : x ∈ xs) {h : α → ℝ}
    (congruent : ∀ y ∈ xs, same y x = true → h y = h x) :
    ((firsts same xs).map fun y => if same y x then h y else 0).sum = h x := by
  obtain ⟨y, first, alike⟩ := exists_first equivalence member
  have value := congruent y (mem_of_firsts first) alike
  have apart := firsts_apart same xs
  generalize firsts same xs = ys at first apart
  induction ys with
  | nil => cases first
  | cons z rest ih =>
    have ⟨before, apart⟩ := List.pairwise_cons.mp apart
    rw [List.map_cons, List.sum_cons]
    rcases List.mem_cons.mp first with rfl | later
    · -- No other first item is the same as this one.
      have others : (rest.map fun z => if same z x then h z else 0).sum = 0 := by
        refine List.sum_eq_zero fun term listed => ?_
        obtain ⟨z, later, rfl⟩ := List.mem_map.mp listed
        have differ := before z later
        rw [if_neg]
        intro alike'
        rw [equivalence.trans alike (equivalence.symm alike')] at differ
        cases differ
      rw [if_pos alike, others, add_zero, value]
    · have differ : same z x ≠ true := by
        intro alike'
        have clash := before y later
        rw [equivalence.trans alike' (equivalence.symm alike)] at clash
        cases clash
      rw [if_neg differ, zero_add, ih later apart]

/-- What is given to the first of each kind is given to all of that kind. -/
theorem sum_firsts {xs : List α} {f h : α → ℝ}
    (congruent : ∀ x ∈ xs, ∀ y ∈ xs, same x y = true → h x = h y) :
    ((firsts same xs).map fun x => h x * (xs.map fun y => if same x y then f y else 0).sum).sum =
      (xs.map fun y => h y * f y).sum := by
  simp only [← List.sum_map_mul_left]
  rw [sum_swap]
  refine congrArg List.sum (List.map_congr_left fun y member => ?_)
  rw [← sum_first equivalence member fun x listed alike => congruent x listed y member alike,
    ← List.sum_map_mul_right]
  refine congrArg List.sum (List.map_congr_left fun x _ => ?_)
  split <;> simp

end Firsts

/-- Weights that add up: two of them have a sum, whose mass is theirs together. -/
def Additive {W : Type} (add : W → W → Outcome Exact W) (fine : W → Prop) (mass : W → ℝ) : Prop :=
  ∀ w w', fine w → fine w' → ∃ w'', add w w' = .ok w'' ∧ fine w'' ∧ mass w'' = mass w + mass w'

theorem additive_exact : Additive (fun x y : Exact => .ok (x + y)) Exact.IsMass Exact.toReal := by
  rintro _ _ ⟨r, rfl, nonneg⟩ ⟨s, rfl, nonneg'⟩
  exact ⟨_, rfl, Exact.isMass_finite (add_nonneg nonneg nonneg'), rfl⟩

namespace Value

/-- Whether a value is a number that is equal to a real. -/
def IsReal (v : Value Exact) (x : ℝ) : Prop :=
  v.number?.map Number.toExact = some (.finite x)

noncomputable def mass (w : Value Exact) : ℝ :=
  (w.number?.map fun n => n.toExact.toReal).getD 0

@[simp] theorem number?_ofNumber (n : Number Exact) : (Value.ofNumber n).number? = some n := by
  cases n <;> rfl

@[simp] theorem mass_ofNumber (n : Number Exact) : (Value.ofNumber n).mass = n.toExact.toReal := by
  simp [mass]

variable {a b : Value Exact} {x y : ℝ}

theorem IsReal.number (real : a.IsReal x) : ∃ m, a.number? = some m ∧ m.toExact = .finite x :=
  Option.map_eq_some_iff.mp real

theorem IsReal.toScalar (real : a.IsReal x) : a.toScalar = .ok (.finite x) := by
  obtain ⟨n, number, value⟩ := real.number
  rw [toScalar_number number, value]

theorem IsReal.mass_eq (real : a.IsReal x) : a.mass = x := by
  obtain ⟨n, number, value⟩ := real.number
  simp [mass, number, value]

theorem IsReal.unique (first : a.IsReal x) (second : a.IsReal y) : x = y :=
  first.mass_eq.symm.trans second.mass_eq

theorem isReal_real (x : ℝ) : (Value.real (.finite x)).IsReal x := rfl

theorem isReal_int (n : Int) : (Value.int n : Value Exact).IsReal n := rfl

end Value

theorem Number.add_exact (a b : Number Exact) :
    ∃ x, a.add b = .ok x ∧ x.toExact = a.toExact + b.toExact := by
  cases a with
  | int m =>
    cases b with
    | int n => exact ⟨_, rfl, by simp⟩
    | real y => exact ⟨.real (.finite m + y), by simp [add, combine, pure, Except.pure], by simp⟩
  | real x => exact ⟨.real (x + b.toExact), by cases b <;> simp [add, combine, pure, Except.pure], by simp⟩

theorem Value.IsReal.add {a b : Value Exact} {x y : ℝ} (first : a.IsReal x) (second : b.IsReal y) :
    ∃ s, a.add b = .ok s ∧ s.IsReal (x + y) := by
  obtain ⟨m, number, value⟩ := first.number
  obtain ⟨n, number', value'⟩ := second.number
  obtain ⟨k, sum, value''⟩ := Number.add_exact m n
  refine ⟨.ofNumber k, by simp [Value.add, numeric, number, number', sum, pure, Except.pure], ?_⟩
  simp [IsReal, value, value', value'']

theorem additive_value : Additive Value.add (fun w => ∃ x, w.IsReal x) Value.mass := by
  rintro w w' ⟨x, first⟩ ⟨y, second⟩
  obtain ⟨s, sum, real⟩ := first.add second
  exact ⟨s, sum, ⟨_, real⟩, by rw [real.mass_eq, first.mass_eq, second.mass_eq]⟩

namespace Group

section Keys

variable {W W' : Type}

noncomputable abbrev sameKey (g h : Group Exact W) : Bool :=
  g.key.alike h.key

theorem sameKey_equivalence : Equivalence fun g h : Group Exact W => sameKey g h = true where
  refl g := g.key.alike_refl
  symm := Value.alike_symm
  trans := Value.alike_trans

def mapWeight (f : W → W') (g : Group Exact W) : Group Exact W' :=
  ⟨g.key, g.value, f g.weight⟩

end Keys

/-- The weight of all that has the key. -/
noncomputable def weightAt (groups : List (Group Exact ℝ)) (key : Value Exact) : ℝ :=
  (groups.map fun g => if key.alike g.key then g.weight else 0).sum

noncomputable def total (groups : List (Group Exact ℝ)) : ℝ :=
  (groups.map (·.weight)).sum

theorem sum_shares {groups : List (Group Exact ℝ)} (positive : 0 < total groups) :
    (groups.map fun g => g.weight / total groups).sum = 1 := by
  simp only [div_eq_mul_inv, List.sum_map_mul_right]
  exact mul_inv_cancel₀ positive.ne'

theorem shares_nonneg {groups : List (Group Exact ℝ)} (nonneg : ∀ g ∈ groups, 0 ≤ g.weight)
    (positive : 0 < total groups) : ∀ x ∈ groups.map (fun g => g.weight / total groups), 0 ≤ x := by
  rw [List.forall_mem_map]
  exact fun g member => div_nonneg (nonneg g member) positive.le

noncomputable def merged (groups : List (Group Exact ℝ)) : List (Group Exact ℝ) :=
  (firsts sameKey groups).map fun g => { g with weight := weightAt groups g.key }

/-- What one more item makes of groups with keys that are apart. -/
noncomputable def joined (groups : List (Group Exact ℝ)) (g : Group Exact ℝ) : List (Group Exact ℝ) :=
  if groups.any (sameKey · g) then
    groups.map fun h => if sameKey h g then { h with weight := h.weight + g.weight } else h
  else groups ++ [g]

theorem joined_cons {g h : Group Exact ℝ} (differ : sameKey g h = false) (rest : List (Group Exact ℝ)) :
    joined (g :: rest) h = g :: joined rest h := by
  simp only [joined, List.any_cons, differ, Bool.false_or, List.map_cons]
  split <;> rfl

theorem weightAt_concat (groups : List (Group Exact ℝ)) (g : Group Exact ℝ) (key : Value Exact) :
    weightAt (groups ++ [g]) key = weightAt groups key + if key.alike g.key then g.weight else 0 := by
  simp [weightAt]

theorem any_merged (groups : List (Group Exact ℝ)) (g : Group Exact ℝ) :
    (merged groups).any (sameKey · g) = groups.any (sameKey · g) := by
  rw [Bool.eq_iff_iff, List.any_eq_true, List.any_eq_true]
  constructor
  · rintro ⟨h, listed, same⟩
    obtain ⟨h', first, rfl⟩ := List.mem_map.mp listed
    exact ⟨h', mem_of_firsts first, same⟩
  · rintro ⟨h, listed, same⟩
    obtain ⟨h', first, same'⟩ := exists_first sameKey_equivalence listed
    exact ⟨_, List.mem_map_of_mem first, sameKey_equivalence.trans same' same⟩

theorem merged_concat (groups : List (Group Exact ℝ)) (g : Group Exact ℝ) :
    merged (groups ++ [g]) = joined (merged groups) g := by
  rw [joined, any_merged, merged, merged, firsts_concat]
  -- A key that is known adds to its group, and a new one comes last.
  cases known : groups.any (sameKey · g) with
  | true =>
    rw [if_pos rfl, if_pos rfl, List.append_nil, List.map_map]
    refine List.map_congr_left fun h _ => ?_
    rw [weightAt_concat, Function.comp_apply]
    change _ = if h.key.alike g.key then _ else _
    split <;> simp
  | false =>
    have others (h : Group Exact ℝ) (listed : h ∈ groups) : h.key.alike g.key = false := by
      simpa [sameKey] using List.any_eq_false.mp known h listed
    rw [if_neg (by simp), if_neg (by simp), List.map_append, List.map_singleton]
    congr 1
    · refine List.map_congr_left fun h first => ?_
      simp [weightAt_concat, others h (mem_of_firsts first)]
    · have none : weightAt groups g.key = 0 := by
        refine List.sum_eq_zero fun term listed => ?_
        obtain ⟨h, member, rfl⟩ := List.mem_map.mp listed
        simp [Value.alike_comm g.key, others h member]
      simp [weightAt_concat, none, Value.alike_refl]

theorem merged_apart (groups : List (Group Exact ℝ)) :
    (merged groups).Pairwise fun g h => sameKey g h = false :=
  List.pairwise_map.mpr (firsts_apart _ groups)

theorem mem_of_merged {groups : List (Group Exact ℝ)} {g : Group Exact ℝ} (listed : g ∈ merged groups) :
    ∃ h ∈ groups, g = { h with weight := weightAt groups h.key } := by
  obtain ⟨h, first, rfl⟩ := List.mem_map.mp listed
  exact ⟨h, mem_of_firsts first, rfl⟩

theorem merged_scaled (c : ℝ) (groups : List (Group Exact ℝ)) :
    merged (groups.map (mapWeight (c * ·))) = (merged groups).map (mapWeight (c * ·)) := by
  have weights (key : Value Exact) :
      weightAt (groups.map (mapWeight (c * ·))) key = c * weightAt groups key := by
    simp only [weightAt, List.map_map, ← List.sum_map_mul_left, mul_ite, mul_zero]
    rfl
  simp only [merged, firsts_map, weights, List.map_map]
  rfl

theorem total_scaled (c : ℝ) (groups : List (Group Exact ℝ)) :
    total (groups.map (mapWeight (c * ·))) = c * total groups := by
  simp [total, mapWeight, Function.comp_def, List.sum_map_mul_left]

section Insertion

variable {W : Type} {add : W → W → Outcome Exact W} {fine : W → Prop} {mass : W → ℝ}

theorem insert_joined (additive : Additive add fine mass) {groups : List (Group Exact W)}
    (apart : groups.Pairwise fun g h => sameKey g h = false) (fines : ∀ g ∈ groups, fine g.weight)
    {weight : W} (fits : fine weight) (key value : Value Exact) :
    ∃ groups', insert add key value weight groups = .ok groups' ∧ (∀ g ∈ groups', fine g.weight) ∧
      groups'.map (mapWeight mass) = joined (groups.map (mapWeight mass)) ⟨key, value, mass weight⟩ := by
  induction groups with
  | nil => exact ⟨_, rfl, by simpa using fits, rfl⟩
  | cons g rest ih =>
    have ⟨before, apart⟩ := List.pairwise_cons.mp apart
    have ⟨first, tail⟩ := List.forall_mem_cons.mp fines
    unfold insert
    cases known : g.key.alike key with
    | true =>
      obtain ⟨w, sum, fits, value'⟩ := additive _ _ first fits
      refine ⟨{ g with weight := w } :: rest, by rw [if_pos rfl, sum]; rfl,
        List.forall_mem_cons.mpr ⟨fits, tail⟩, ?_⟩
      -- Keys are apart, so what has the key of the head is not met again.
      have others (h : Group Exact W) (listed : h ∈ rest) : h.key.alike key = false := by
        have differ := before h listed
        rwa [sameKey, Value.alike_congr known, Value.alike_comm] at differ
      rw [joined, if_pos (by simp [sameKey, mapWeight, known])]
      simp only [List.map_cons, List.map_map, List.cons.injEq]
      refine ⟨by simp [sameKey, mapWeight, known, value'], List.map_congr_left fun h listed => ?_⟩
      simp [sameKey, mapWeight, others h listed]
    | false =>
      obtain ⟨rest', inserted, fits', same⟩ := ih apart tail
      refine ⟨g :: rest', by simp [inserted, pure, Except.pure], List.forall_mem_cons.mpr ⟨first, fits'⟩, ?_⟩
      rw [List.map_cons, same, List.map_cons, joined_cons known]

theorem foldlM_insert (additive : Additive add fine mass) (items : List (Group Exact W))
    (fits : ∀ g ∈ items, fine g.weight) :
    ∃ groups, items.foldlM (fun groups g => insert add g.key g.value g.weight groups) [] = .ok groups ∧
      (∀ g ∈ groups, fine g.weight) ∧
        groups.map (mapWeight mass) = merged (items.map (mapWeight mass)) := by
  induction items using List.reverseRecOn with
  | nil => exact ⟨[], rfl, List.forall_mem_nil _, rfl⟩
  | append_singleton items g ih =>
    obtain ⟨groups, folded, fines, same⟩ := ih fun h listed => fits h (List.mem_append_left _ listed)
    have apart := merged_apart (items.map (mapWeight mass))
    rw [← same] at apart
    obtain ⟨groups', inserted, fines', same'⟩ := insert_joined additive (List.pairwise_map.mp apart) fines
      (fits g (List.mem_append_right _ (List.mem_singleton_self g))) g.key g.value
    refine ⟨groups', ?_, fines', ?_⟩
    · rw [List.foldlM_append, folded, Outcome.ok_bind, List.foldlM_cons, inserted]
      rfl
    · rw [same', same, List.map_append, List.map_singleton, merged_concat]
      rfl

end Insertion

/-- Sums over groups do not change when groups merge that count alike. -/
theorem sum_merged {groups : List (Group Exact ℝ)} {h : Value Exact → Value Exact → ℝ}
    (congruent : ∀ g ∈ groups, ∀ g' ∈ groups, sameKey g g' = true → h g.key g.value = h g'.key g'.value) :
    ((merged groups).map fun g => h g.key g.value * g.weight).sum =
      (groups.map fun g => h g.key g.value * g.weight).sum := by
  rw [← sum_firsts sameKey_equivalence congruent, merged, List.map_map]
  rfl

theorem weightAt_eq_sum (groups : List (Group Exact ℝ)) (key : Value Exact) :
    weightAt groups key = (groups.map fun g => (if key.alike g.key then 1 else 0) * g.weight).sum := by
  simp [weightAt]

theorem weightAt_merged (groups : List (Group Exact ℝ)) (key : Value Exact) :
    weightAt (merged groups) key = weightAt groups key := by
  rw [weightAt_eq_sum, weightAt_eq_sum]
  refine sum_merged (h := fun key' _ => if key.alike key' then 1 else 0) fun g _ g' _ same => ?_
  rw [Value.alike_comm key, Value.alike_comm key, Value.alike_congr same]

theorem total_merged (groups : List (Group Exact ℝ)) : total (merged groups) = total groups := by
  simpa [total] using sum_merged (h := fun _ _ => 1) fun g (_ : g ∈ groups) _ _ _ => rfl

theorem merged_merged (groups : List (Group Exact ℝ)) : merged (merged groups) = merged groups := by
  rw [merged, firsts_of_apart (merged_apart groups)]
  refine (List.map_congr_left fun g listed => ?_).trans (List.map_id _)
  obtain ⟨h, -, rfl⟩ := mem_of_merged listed
  simp [weightAt_merged]

theorem find?_merged (groups : List (Group Exact ℝ)) (key : Value Exact) :
    ((find? key (merged groups)).map (·.weight)).getD 0 = weightAt groups key := by
  rw [← weightAt_merged]
  have apart := merged_apart groups
  generalize merged groups = groups' at apart
  induction groups' with
  | nil => rfl
  | cons g rest ih =>
    have ⟨before, apart⟩ := List.pairwise_cons.mp apart
    simp only [find?, weightAt, List.map_cons, List.sum_cons, List.find?_cons] at ih ⊢
    cases known : g.key.alike key with
    | true =>
      have others : (rest.map fun h => if key.alike h.key then h.weight else 0).sum = 0 := by
        refine List.sum_eq_zero fun term listed => ?_
        obtain ⟨h, member, rfl⟩ := List.mem_map.mp listed
        have differ := before h member
        rw [sameKey, Value.alike_congr known] at differ
        simp [differ]
      simp [others, Value.alike_comm key g.key, known]
    | false => simpa [Value.alike_comm key g.key, known] using ih apart

end Group

end ChanceGraph
