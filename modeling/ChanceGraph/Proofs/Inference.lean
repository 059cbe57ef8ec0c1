import ChanceGraph.Proofs.Columns
import ChanceGraph.Proofs.Grouping

/-!
Exact inference: the weights of the enumeration are added up over values that are taken for one another,
and divided by their sum.  A table of the same weights is made in another way and is the same table.
-/

set_option autoImplicit false

namespace ChanceGraph

noncomputable def likeness (t v : Value Exact) : ℝ :=
  if v.alike t then 1 else 0

/-- The table that gives every group its share of the whole weight. -/
noncomputable def Table.shared (k : Grouping Exact) (groups : List (Group Exact ℝ)) : Table Exact :=
  let share x := Exact.finite (x / Group.total groups)
  ⟨k, groups.map (Group.mapWeight share),
    ⟨groups.map (·.value), .ofWeights (groups.map fun g => share g.weight) 1⟩⟩

theorem Table.shared_sampled (k : Grouping Exact) {groups : List (Group Exact ℝ)}
    (nonneg : ∀ g ∈ groups, 0 ≤ g.weight) (positive : 0 < Group.total groups) :
    AliasSampler.build (groups.map (·.value))
        ((groups.map fun g => g.weight / Group.total groups).map Exact.finite) =
      .ok (Table.shared k groups).sampler := by
  have one := Group.sum_shares positive
  rw [AliasSampler.build_finite _ (by simp) (Group.shares_nonneg nonneg positive)
    (by rw [one]; exact one_pos), one]
  simp [Table.shared, Function.comp_def, Exact.one_eq]

open Classical in
/-- What becomes of groups is decided by what their weights come to, and then by the sign of each. -/
theorem Table.ofGroups_real {k : Grouping Exact} {groups : List (Group Exact (Value Exact))}
    (reals : ∀ g ∈ groups, ∃ x, g.weight.IsReal x) {shares : List (Group Exact ℝ)}
    (weights : groups.map (Group.mapWeight Value.mass) = shares) :
    Table.ofGroups k groups =
      if shares = [] then .error .noOutcomes
      else if Group.total shares ≤ 0 then .error .zeroOutcomes
      else if ∃ g ∈ shares, g.weight < 0 then
        .error (.negativeWeight (shares.map fun g => .finite (g.weight / Group.total shares)))
      else .ok (Table.shared k shares) := by
  subst weights
  set shares := groups.map (Group.mapWeight Value.mass) with masses
  have scalar (g : Group Exact (Value Exact)) (member : g ∈ groups) :
      g.weight.toScalar = .ok (.finite g.weight.mass) := by
    obtain ⟨x, real⟩ := reals g member
    rw [real.toScalar, real.mass_eq]
  have summed : exactSumBy (·.weight.toScalar) groups = .ok (.finite (Group.total shares)) := by
    rw [exactSumBy_finite scalar]
    simp [masses, Group.total, Group.mapWeight, Function.comp_def]
  have empty : groups.isEmpty = true ↔ shares = [] := by simp [masses]
  -- The order of the checks: no groups, nothing in total, something negative.
  by_cases none : shares = []
  · rw [if_pos none, Table.ofGroups, if_pos (empty.mpr none)]
    rfl
  rw [if_neg none, Table.ofGroups, if_neg (mt empty.mp none), summed, Outcome.ok_bind]
  by_cases low : Group.total shares ≤ 0
  · have atMost : Exact.finite (Group.total shares) ≤ 0 := low
    rw [if_pos low, if_pos atMost]
    rfl
  have positive := not_le.mp low
  have above : ¬ Exact.finite (Group.total shares) ≤ 0 := low
  let share (g : Group Exact ℝ) : Group Exact Exact :=
    g.mapWeight fun x => Exact.finite (x / Group.total shares)
  have divided (g : Group Exact (Value Exact)) (member : g ∈ groups) :
      (do return ⟨g.key, g.value, (← g.weight.toScalar) / Exact.finite (Group.total shares)⟩ : Outcome Exact _) =
        .ok (share (g.mapWeight Value.mass)) := by
    rw [scalar g member, Outcome.ok_bind, Exact.finite_div positive.ne']
    rfl
  have made : groups.map (fun g => share (g.mapWeight Value.mass)) = shares.map share := by
    simp [masses, Function.comp_def]
  have values : (shares.map share).map (·.value) = shares.map (·.value) := by
    simp [share, Group.mapWeight, Function.comp_def]
  have ratios : (shares.map share).map (·.weight) =
      (shares.map fun g => g.weight / Group.total shares).map Exact.finite := by
    simp [share, Group.mapWeight, Function.comp_def]
  rw [if_neg low, if_neg above, Outcome.mapM_eq_map divided, Outcome.ok_bind, made, values, ratios]
  by_cases negative : ∃ g ∈ shares, g.weight < 0
  · have below : ∃ x ∈ shares.map (fun g => g.weight / Group.total shares), x < 0 := by
      obtain ⟨g, member, below⟩ := negative
      exact ⟨_, List.mem_map_of_mem member, div_neg_of_neg_of_pos below positive⟩
    rw [if_pos negative, AliasSampler.build_negative _ (by simp) below, List.map_map]
    rfl
  · have nonneg : ∀ g ∈ shares, 0 ≤ g.weight := by simpa using negative
    rw [if_neg negative, Table.shared_sampled k nonneg positive]
    rfl

/-- A weighted value as an item of a table. -/
def Weighted.item (w : Weighted Exact) : TableItem Exact :=
  (w.value, .ofNumber w.weight)

/-- The key of a value that has one. -/
noncomputable def keyed (k : Grouping Exact) (v : Value Exact) : Value Exact :=
  (checkedKey k v).toOption.getD v

theorem keyed_eq {k : Grouping Exact} {v key : Value Exact} (known : checkedKey k v = .ok key) :
    keyed k v = key := by
  simp [keyed, known, Except.toOption]

noncomputable def labels (k : Grouping Exact) (items : List (Weighted Exact)) : List (Group Exact ℝ) :=
  items.map fun w => ⟨keyed k w.value, w.value, w.weight.toExact.toReal⟩

def Keyed (k : Grouping Exact) (items : List (Weighted Exact)) : Prop :=
  ∀ w ∈ items, checkedKey k w.value = .ok (keyed k w.value)

theorem Outcome.foldlM_congr {S α β : Type} {f g : β → α → Outcome S β} {xs : List α}
    (same : ∀ b, ∀ x ∈ xs, f b x = g b x) (start : β) : xs.foldlM f start = xs.foldlM g start := by
  induction xs generalizing start with
  | nil => rfl
  | cons x rest ih =>
    rw [List.foldlM_cons, List.foldlM_cons, same start x List.mem_cons_self]
    exact bind_congr fun b => ih (fun b y listed => same b y (List.mem_cons_of_mem _ listed)) b

section Grouped

variable {k : Grouping Exact} {items : List (Weighted Exact)}

/-- Each value with its key and the number that its weight stands for. -/
noncomputable def Table.parts (k : Grouping Exact) (items : List (TableItem Exact)) : List (Group Exact ℝ) :=
  items.map fun item => ⟨keyed k item.1, item.1, item.2.mass⟩

theorem groupItems_real {items : List (TableItem Exact)} (reals : ∀ item ∈ items, ∃ x, item.2.IsReal x)
    (keys : ∀ item ∈ items, checkedKey k item.1 = .ok (keyed k item.1)) :
    ∃ groups, groupItems k items = .ok groups ∧ (∀ g ∈ groups, ∃ x, g.weight.IsReal x) ∧
      groups.map (Group.mapWeight Value.mass) = Group.merged (Table.parts k items) := by
  obtain ⟨groups, folded, fines, same⟩ := Group.foldlM_insert additive_value
    (items.map fun item => ⟨keyed k item.1, item.1, item.2⟩) fun g listed => by
      obtain ⟨item, member, rfl⟩ := List.mem_map.mp listed
      exact reals item member
  refine ⟨groups, ?_, fines, by simpa [Table.parts, Group.mapWeight, Function.comp_def] using same⟩
  rw [groupItems, ← folded, List.foldlM_map]
  refine Outcome.foldlM_congr (fun groups item listed => ?_) []
  have known := keys item listed
  obtain ⟨v, w⟩ := item
  simp only [known, Outcome.ok_bind]

open Classical in
/-- What is made of items with keys: what all weights come to decides first, and then what those of each key
come to. -/
theorem Table.build_real {items : List (TableItem Exact)} (reals : ∀ item ∈ items, ∃ x, item.2.IsReal x)
    (keys : ∀ item ∈ items, checkedKey k item.1 = .ok (keyed k item.1)) :
    Table.build k items =
      let given := Table.parts k items
      if items = [] then .error .noOutcomes
      else if Group.total given ≤ 0 then .error .zeroOutcomes
      else if ∃ g ∈ Group.merged given, g.weight < 0 then
        .error (.negativeWeight ((Group.merged given).map fun g => .finite (g.weight / Group.total given)))
      else .ok (Table.shared k (Group.merged given)) := by
  obtain ⟨groups, grouped, fines, same⟩ := groupItems_real reals keys
  have none : Group.merged (Table.parts k items) = [] ↔ items = [] := by
    cases items <;> simp [Group.merged, Table.parts, firsts]
  rw [Table.build, grouped, Outcome.ok_bind, Table.ofGroups_real fines same, Group.total_merged]
  simp only [none]

theorem groupWeights_keyed (masses : ∀ w ∈ items, w.weight.toExact.IsMass) (keys : Keyed k items)
    (some : items ≠ []) : groupWeights k items =
      .ok ((Group.merged (labels k items)).map (Group.mapWeight Exact.finite)) := by
  have formed := Outcome.mapM_eq_map keys
  have weights : items.mapM (·.weight.toScalar) =
      (.ok (items.map (·.weight.toExact)) : Outcome Exact (List Exact)) :=
    Outcome.mapM_eq_map fun w _ => Number.toScalar_exact w.weight
  have zipped (items : List (Weighted Exact)) :
      (items.map fun w => keyed k w.value).zip (items.zip (items.map (·.weight.toExact))) =
        items.map fun w => (keyed k w.value, w, w.weight.toExact) := by
    induction items with
    | nil => rfl
    | cons w rest ih => simp [ih]
  obtain ⟨groups, folded, fines, same⟩ := Group.foldlM_insert additive_exact
    (items.map fun w => ⟨keyed k w.value, w.value, w.weight.toExact⟩) fun g listed => by
      obtain ⟨w, member, rfl⟩ := List.mem_map.mp listed
      exact masses w member
  have merged : Group.merged (labels k items) = groups.map (Group.mapWeight Exact.toReal) := by
    simpa [labels, Group.mapWeight, Function.comp_def] using same.symm
  have started (g : Group Exact Exact) (listed : g ∈ groups) :
      { g with weight := 0 + g.weight } = (g.mapWeight Exact.toReal).mapWeight Exact.finite := by
    obtain ⟨key, value, weight⟩ := g
    obtain ⟨r, rfl, -⟩ := fines _ listed
    simp [Exact.zero_eq, Group.mapWeight]
  rw [List.foldlM_map] at folded
  simp only [groupWeights, formed, weights, zipped, Outcome.ok_bind, List.foldlM_map, folded,
    List.isEmpty_iff, some, merged, List.map_map, List.map_congr_left started]
  rfl

theorem total_labels (k : Grouping Exact) (items : List (Weighted Exact)) :
    Group.total (labels k items) = mass items fun _ => 1 := by
  simp [Group.total, labels, mass, Function.comp_def]

theorem weightAt_labels (k : Grouping Exact) (items : List (Weighted Exact)) (key : Value Exact) :
    Group.weightAt (labels k items) key = mass items fun v => if key.alike (keyed k v) then 1 else 0 := by
  simp [Group.weightAt, labels, mass, Function.comp_def]

theorem merged_nonneg (masses : ∀ w ∈ items, w.weight.toExact.IsMass) :
    ∀ g ∈ Group.merged (labels k items), 0 ≤ g.weight := by
  intro g listed
  obtain ⟨h, -, rfl⟩ := Group.mem_of_merged listed
  refine List.sum_nonneg fun x term => ?_
  obtain ⟨h', member, rfl⟩ := List.mem_map.mp term
  obtain ⟨w, listed, rfl⟩ := List.mem_map.mp member
  split
  · exact (masses w listed).toReal_nonneg
  · exact le_rfl

theorem parts_item (k : Grouping Exact) (items : List (Weighted Exact)) :
    Table.parts k (items.map Weighted.item) = labels k items := by
  simp [Table.parts, labels, Weighted.item, Function.comp_def]

theorem isReal_item (masses : ∀ w ∈ items, w.weight.toExact.IsMass) :
    ∀ item ∈ items.map Weighted.item, ∃ x, item.2.IsReal x := by
  intro item listed
  obtain ⟨w, member, rfl⟩ := List.mem_map.mp listed
  obtain ⟨x, value, -⟩ := masses w member
  exact ⟨x, by simp [Weighted.item, Value.IsReal, value]⟩

theorem build_keyed (masses : ∀ w ∈ items, w.weight.toExact.IsMass)
    (positive : 0 < mass items fun _ => 1) (keys : Keyed k items) :
    Table.build k (items.map Weighted.item) = .ok (Table.shared k (Group.merged (labels k items))) := by
  have nonneg : ¬ ∃ g ∈ Group.merged (labels k items), g.weight < 0 := by
    simpa using merged_nonneg (k := k) masses
  have some : items.map Weighted.item ≠ [] := by
    rintro none
    obtain rfl := List.map_eq_nil_iff.mp none
    simp [mass] at positive
  rw [Table.build_real (isReal_item masses) (List.forall_mem_map.mpr keys), parts_item, if_neg some, total_labels,
    if_neg positive.not_ge, if_neg nonneg]

theorem Table.shared_scaled (k : Grouping Exact) {c : ℝ} (nonzero : c ≠ 0) (groups : List (Group Exact ℝ)) :
    Table.shared k (groups.map (Group.mapWeight (c * ·))) = Table.shared k groups := by
  simp only [Table.shared, Group.total_scaled, List.map_map, Function.comp_def, Group.mapWeight,
    mul_div_mul_left _ _ nonzero]
  rfl

/-- The group with the key that another grouping has for its value. -/
noncomputable def Group.relabel (k : Grouping Exact) (g : Group Exact ℝ) : Group Exact ℝ :=
  { g with key := keyed k g.value }

theorem relabel_labels (k' k : Grouping Exact) (items : List (Weighted Exact)) :
    (labels k' items).map (Group.relabel k) = labels k items := by
  simp [labels, Group.relabel, Function.comp_def]

theorem labels_support (k' k : Grouping Exact) (groups : List (Group Exact ℝ)) :
    labels k (Table.shared k' groups).support =
      (groups.map (Group.relabel k)).map (Group.mapWeight ((Group.total groups)⁻¹ * ·)) := by
  simp [labels, Table.support, Table.shared, Group.relabel, Group.mapWeight, Function.comp_def,
    div_eq_inv_mul]

theorem mass_support (k : Grouping Exact) (groups : List (Group Exact ℝ)) (h : Value Exact → ℝ) :
    mass (Table.shared k groups).support h =
      (groups.map fun g => g.weight * h g.value).sum / Group.total groups := by
  simp only [mass, Table.support, Table.shared, Group.mapWeight, List.map_map, Function.comp_def,
    Number.toExact_real, Exact.toReal_finite, div_eq_inv_mul, mul_assoc, List.sum_map_mul_left]

theorem masses_support (k : Grouping Exact) {groups : List (Group Exact ℝ)}
    (nonneg : ∀ g ∈ groups, 0 ≤ g.weight) :
    ∀ w ∈ (Table.shared k groups).support, w.weight.toExact.IsMass := by
  intro w listed
  simp only [Table.support, Table.shared, List.map_map, List.mem_map] at listed
  obtain ⟨g, member, rfl⟩ := listed
  have whole : 0 ≤ Group.total groups := by
    refine List.sum_nonneg fun x term => ?_
    obtain ⟨h, listed, rfl⟩ := List.mem_map.mp term
    exact nonneg h listed
  exact Exact.isMass_finite (div_nonneg (nonneg g member) whole)

theorem total_support (k : Grouping Exact) {groups : List (Group Exact ℝ)} (nonzero : Group.total groups ≠ 0) :
    (mass (Table.shared k groups).support fun _ => 1) = 1 := by
  rw [mass_support]
  simp only [mul_one]
  exact div_self nonzero

theorem shared_support (k' k : Grouping Exact) {groups : List (Group Exact ℝ)}
    (nonzero : Group.total groups ≠ 0) :
    Table.shared k (Group.merged (labels k (Table.shared k' groups).support)) =
      Table.shared k (Group.merged (groups.map (Group.relabel k))) := by
  rw [labels_support, Group.merged_scaled, Table.shared_scaled k (inv_ne_zero nonzero)]

theorem relabel_merged (k : Grouping Exact) (items : List (Weighted Exact)) :
    (Group.merged (labels k items)).map (Group.relabel k) = Group.merged (labels k items) := by
  refine (List.map_congr_left fun g listed => ?_).trans (List.map_id _)
  obtain ⟨h, member, rfl⟩ := Group.mem_of_merged listed
  obtain ⟨w, -, rfl⟩ := List.mem_map.mp member
  rfl

theorem Keyed.support {k' : Grouping Exact} (keys : Keyed k items) :
    Keyed k (Table.shared k' (Group.merged (labels k' items))).support := by
  intro w listed
  simp only [Table.support, Table.shared, List.map_map, List.mem_map] at listed
  obtain ⟨g, member, rfl⟩ := listed
  obtain ⟨h, labelled, rfl⟩ := Group.mem_of_merged member
  obtain ⟨w, listed, rfl⟩ := List.mem_map.mp labelled
  exact keys w listed

theorem posterior_grouped (masses : ∀ w ∈ items, w.weight.toExact.IsMass) (keys : Keyed k items)
    (some : items ≠ []) : posterior k items =
      if 0 < mass items fun _ => 1 then
        Table.build k ((Table.shared k (Group.merged (labels k items))).support.map Weighted.item)
      else .error .zeroSamples := by
  set groups := Group.merged (labels k items) with known
  have total : (mass items fun _ => 1) = Group.total groups := by
    rw [known, Group.total_merged, total_labels]
  have summed : ((groups.map (Group.mapWeight Exact.finite)).map (·.weight)).foldl (· + ·) 0 =
      Exact.finite (Group.total groups) := by
    have sum := foldl_finite (groups.map (·.weight)) 0
    rw [zero_add, ← Exact.zero_eq] at sum
    simpa [Group.mapWeight, Group.total, Function.comp_def] using sum
  rw [posterior, groupWeights_keyed masses keys some, Outcome.ok_bind, ← known, total]
  simp only [summed]
  -- The shares are taken before the table is built of them, which takes them once more.
  by_cases positive : 0 < Group.total groups
  · have above : (0 : Exact) < Exact.finite (Group.total groups) := positive
    have shares : (groups.map (Group.mapWeight Exact.finite)).map (fun g =>
        (g.value, Value.real (g.weight / Exact.finite (Group.total groups)))) =
          (Table.shared k groups).support.map Weighted.item := by
      simp only [Table.support, Table.shared, List.map_map]
      refine List.map_congr_left fun g _ => ?_
      simp [Group.mapWeight, Weighted.item, Value.ofNumber, Exact.finite_div positive.ne']
    rw [if_pos above, if_pos positive, shares]
  · have above : ¬ (0 : Exact) < Exact.finite (Group.total groups) := positive
    rw [if_neg above, if_neg positive]
    rfl

theorem ne_nil_of_mass (positive : 0 < mass items fun _ => 1) : items ≠ [] := by
  rintro rfl
  simp [mass] at positive

/-- Weights that are added up first and divided by their sum make the same table. -/
theorem posterior_keyed (masses : ∀ w ∈ items, w.weight.toExact.IsMass)
    (positive : 0 < mass items fun _ => 1) (keys : Keyed k items) :
    posterior k items = .ok (Table.shared k (Group.merged (labels k items))) := by
  have nonzero : Group.total (Group.merged (labels k items)) ≠ 0 := by
    rw [Group.total_merged, total_labels]
    exact positive.ne'
  rw [posterior_grouped masses keys (ne_nil_of_mass positive), if_pos positive,
    build_keyed (masses_support k (merged_nonneg masses)) _ keys.support,
    shared_support k k nonzero, relabel_merged, Group.merged_merged]
  rw [total_support k nonzero]
  exact one_pos

theorem posterior_weightless (masses : ∀ w ∈ items, w.weight.toExact.IsMass) (keys : Keyed k items)
    (zero : (mass items fun _ => 1) = 0) :
    posterior k items = .error .noSamples ∨ posterior k items = .error .zeroSamples := by
  rcases eq_or_ne items [] with rfl | some
  · exact .inl rfl
  · exact .inr (by rw [posterior_grouped masses keys some, zero, if_neg (lt_irrefl _)])

theorem Table.shared_density (k : Grouping Exact) (groups : List (Group Exact ℝ)) (v : Value Exact) :
    (Table.shared k (Group.merged groups)).density v = do
      let key ← checkedKey k v
      return .finite (Group.weightAt groups key / Group.total groups) := by
  rw [density_eq]
  refine bind_congr fun key => ?_
  rw [← Group.find?_merged]
  simp only [Table.shared, Group.total_merged]
  rw [Group.find?, List.find?_map]
  change pure ((Option.map _ (Option.map _ (Group.find? key (Group.merged groups)))).getD _) = _
  cases Group.find? key (Group.merged groups) with
  | none => simp [Exact.zero_eq]
  | some g => simp [Group.mapWeight]

theorem Table.density_of_mem (keys : Keyed k items) {g : Group Exact ℝ}
    (listed : g ∈ Group.merged (labels k items)) :
    (Table.shared k (Group.merged (labels k items))).density g.value =
      .ok (.finite (g.weight / mass items fun _ => 1)) := by
  obtain ⟨h, labelled, rfl⟩ := Group.mem_of_merged listed
  obtain ⟨w, member, rfl⟩ := List.mem_map.mp labelled
  rw [shared_density, keys w member, Outcome.ok_bind, total_labels]
  rfl

theorem checkedKey_of_isKey {v : Value Exact} (hashable : v.isKey = true) :
    checkedKey .ok v = (.ok v : Outcome Exact (Value Exact)) := by
  simp [checkedKey, hashable, pure, Except.pure]

theorem keyed_of_isKey {v : Value Exact} (hashable : v.isKey = true) : keyed .ok v = v :=
  keyed_eq (checkedKey_of_isKey hashable)

theorem Countable.keyed (countable : Countable items) : Keyed .ok items := fun w listed => by
  rw [keyed_of_isKey (countable w listed).2, checkedKey_of_isKey (countable w listed).2]

/-- In a table of weighted values every value has its part of the mass of all. -/
theorem Table.density_countable (countable : Countable items) {v : Value Exact} (hashable : v.isKey = true) :
    (Table.shared .ok (Group.merged (labels .ok items))).density v =
      .ok (.finite (mass items (likeness v) / mass items fun _ => 1)) := by
  rw [shared_density, checkedKey_of_isKey hashable, Outcome.ok_bind, weightAt_labels, total_labels]
  have same : (mass items fun u => if v.alike (keyed .ok u) then 1 else 0) = mass items (likeness v) := by
    refine mass_congr fun w listed => ?_
    rw [keyed_of_isKey (countable w listed).2, Value.alike_comm]
    rfl
  rw [same]
  rfl

/-- Exact inference gives every value its part of the mass of all. -/
theorem posterior_density (countable : Countable items) (positive : 0 < mass items fun _ => 1) :
    ∃ table, posterior .ok items = .ok table ∧ ∀ t : Value Exact, t.isKey = true →
      table.density t = .ok (.finite (mass items (likeness t) / mass items fun _ => 1)) :=
  ⟨_, posterior_keyed (fun w listed => (countable w listed).1) positive countable.keyed,
    fun _ hashable => Table.density_countable countable hashable⟩

end Grouped

end ChanceGraph
