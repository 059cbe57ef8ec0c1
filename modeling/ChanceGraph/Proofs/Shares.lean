import ChanceGraph.Proofs.Coarsening

/-!
Enumerated leaves.  Weights of either sign may be merged to zero or to less, so it is only what is left of
each group, and of all, that decides whether there is a table.
-/

set_option autoImplicit false

namespace ChanceGraph

section Groups

/-- Two numbers from the unit interval draw a value that has some weight. -/
theorem Table.shared_draws (k : Grouping Exact) {groups : List (Group Exact ℝ)}
    (nonneg : ∀ g ∈ groups, 0 ≤ g.weight) (positive : 0 < Group.total groups) (u : Exact) {v : ℝ}
    (unit : v ∈ Set.Ico (0 : ℝ) 1) :
    ∃ g ∈ groups, 0 < g.weight ∧ (Table.shared k groups).sampler.pick? u (.finite v) = some g.value := by
  set weights := groups.map fun g => g.weight / Group.total groups with divisions
  have atLeast : ∀ x ∈ weights, 0 ≤ x := Group.shares_nonneg nonneg positive
  have one : weights.sum = 1 := Group.sum_shares positive
  obtain ⟨size, represents⟩ := Columns.ofWeights_represents atLeast (by rw [one]; exact one_pos)
  have sampler : (Table.shared k groups).sampler =
      ⟨groups.map (·.value), .ofWeights (weights.map Exact.finite) (.finite weights.sum)⟩ := by
    simp [Table.shared, one, weights, Exact.one_eq, Function.comp_def]
  set c := Columns.ofWeights (weights.map Exact.finite) (.finite weights.sum)
  have length : c.own.size = groups.length := by simp [size, weights]
  have some : 0 < groups.length := by
    rw [List.length_pos_iff]
    rintro rfl
    exact positive.ne rfl
  have column : Scalar.index u groups.length < c.own.size := by
    rw [Scalar.index, length]
    omega
  have inside := represents.choose_lt column (.finite v)
  rw [length] at inside
  refine ⟨groups[c.choose (Scalar.index u groups.length) (.finite v)], List.getElem_mem inside, ?_, ?_⟩
  · -- What has no weight is never chosen.
    refine (nonneg _ (List.getElem_mem inside)).lt_of_ne fun none => ?_
    refine represents.never (length ▸ inside) ?_ column unit rfl
    rw [Columns.getD_scaled (by simpa [weights] using inside)]
    simp [weights, ← none]
  · simp [sampler, AliasSampler.pick?, AliasSampler.size, inside]

/-- One entry for each key, in the order in which the keys first appear, with the first value that has it and
its share of the whole. -/
structure Table.Divides (t : Table Exact) (k : Grouping Exact) (given : List (Group Exact ℝ)) : Prop where
  groups : t.groups = (firsts Group.sameKey given).map fun g =>
    ⟨g.key, g.value, .finite (Group.weightAt given g.key / Group.total given)⟩
  apart : t.groups.Pairwise fun g h => g.key.alike h.key = false
  shares : ∃ xs : List ℝ, t.groups.map (·.weight) = xs.map Exact.finite ∧ (∀ x ∈ xs, 0 ≤ x) ∧ xs.sum = 1
  density : ∀ v, t.density v = do
    let key ← checkedKey k v
    return .finite (Group.weightAt given key / Group.total given)
  draws : ∀ before, ∀ u ∈ Set.Ico (0 : ℝ) 1, ∀ v ∈ Set.Ico (0 : ℝ) 1, ∃ g ∈ t.groups, 0 < g.weight ∧
    (Distribution.finite .enumeration t).draw before [.finite u, .finite v] = .ok g.value

theorem Table.shared_divides (k : Grouping Exact) {given : List (Group Exact ℝ)}
    (positive : 0 < Group.total given) (nonneg : ∀ g ∈ Group.merged given, 0 ≤ g.weight) :
    (Table.shared k (Group.merged given)).Divides k given := by
  have whole : 0 < Group.total (Group.merged given) := by rwa [Group.total_merged]
  constructor
  · simp [Table.shared, Group.merged, ← Group.total_merged given, Group.mapWeight, Function.comp_def]
  · exact List.pairwise_map.mpr (Group.merged_apart given)
  · refine ⟨(Group.merged given).map fun g => g.weight / Group.total (Group.merged given), ?_, ?_, ?_⟩
    · simp [Table.shared, Group.mapWeight, Function.comp_def]
    · exact Group.shares_nonneg nonneg whole
    · exact Group.sum_shares whole
  · exact Table.shared_density k given
  · intro before u _ v unit
    obtain ⟨g, member, some, drawn⟩ := Table.shared_draws k nonneg whole (.finite u) unit
    refine ⟨_, List.mem_map_of_mem member, div_pos some whole, ?_⟩
    simp only [Distribution.draw, drawn]
    rfl

end Groups

/-- An item as it is given: a plain value has the weight of one. -/
noncomputable def itemOf (item : Value Exact × Option (Value Exact)) : TableItem Exact :=
  (item.1, item.2.getD (.real 1))

theorem isReal_itemOf {item : Value Exact × Option (Value Exact)}
    (real : ∀ w, item.2 = some w → ∃ x, w.IsReal x) : ∃ x, (itemOf item).2.IsReal x := by
  obtain ⟨v, - | w⟩ := item
  · exact ⟨1, rfl⟩
  · exact real w rfl

/-- An enumeration is the merged table of its items in shares of the whole.  There is none without items or
with weights that come to nothing, nor is there one if the weights of a key come to less than nothing. -/
theorem enumeration_divides (k : Grouping Exact) (items : List (Value Exact × Option (Value Exact)))
    (reals : ∀ item ∈ items, ∀ w, item.2 = some w → ∃ x, w.IsReal x) :
    let made := Distribution.makeEnumeration (items.map itemOf) k
    let given := Table.parts k (items.map itemOf)
    (∀ fault, items.mapM (fun item => checkedKey k item.1) = .error fault → made = .error fault) ∧
      ((∀ item ∈ items, ∃ key, checkedKey k item.1 = .ok key) →
        (made = .error .noOutcomes ↔ items = []) ∧
        (made = .error .zeroOutcomes ↔ items ≠ [] ∧ Group.total given ≤ 0) ∧
        ((∃ weights, made = .error (.negativeWeight weights)) ↔
          0 < Group.total given ∧ ∃ g ∈ Group.merged given, g.weight < 0) ∧
        (0 < Group.total given → (∀ g ∈ Group.merged given, 0 ≤ g.weight) →
          ∃ t, made = .ok (.finite .enumeration t) ∧ t.Divides k given)) := by
  intro made given
  have real : ∀ item ∈ items.map itemOf, ∃ x, item.2.IsReal x := by
    intro item listed
    obtain ⟨source, member, rfl⟩ := List.mem_map.mp listed
    exact isReal_itemOf (reals source member)
  constructor
  · intro fault fails
    have keyless : (items.map itemOf).mapM (fun item => checkedKey k item.1) = .error fault := by
      rw [List.mapM_map]
      exact fails
    simp only [made, Distribution.makeEnumeration, Table.build_keyless real keyless]
    rfl
  · intro keys
    have known : ∀ item ∈ items.map itemOf, checkedKey k item.1 = .ok (keyed k item.1) := by
      intro item listed
      obtain ⟨source, member, rfl⟩ := List.mem_map.mp listed
      obtain ⟨key, formed⟩ := keys source member
      rw [itemOf, keyed_eq formed, formed]
    have table : made = do return .finite .enumeration (← Table.build k (items.map itemOf)) := rfl
    have none : items.map itemOf = [] ↔ items = [] := List.map_eq_nil_iff
    rw [Table.build_real real known] at table
    simp only [none, show Table.parts k (items.map itemOf) = given from rfl] at table
    have nothing : items = [] → Group.total given ≤ 0 := by
      rintro rfl
      exact le_rfl
    clear_value made given
    -- Each of the four outcomes of the checks excludes the others.
    split_ifs at table with empty low negative
    · simp [table, empty, (nothing empty).not_gt]
    · simp [table, empty, low, low.not_gt]
    · have positive := not_le.mp low
      simp [table, empty, positive, negative]
    · have positive := not_le.mp low
      have nonneg : ∀ g ∈ Group.merged given, 0 ≤ g.weight := by simpa using negative
      refine ⟨by simp [table, empty], by simp [table, low], by simp [table, negative], fun _ _ => ?_⟩
      exact ⟨_, table, Table.shared_divides k positive nonneg⟩

/-- By parity, two and minus one come to three for the odd number and nothing is left for the even one. -/
theorem enumeration_divides_parity :
    ∃ t, Distribution.makeEnumeration ([(.int 1, some (.int 2)), (.int 2, some (.real (.finite (-1)))),
        (.text "a", none), (.int 3, some (.int 1)), (.int 4, some (.bool true))].map itemOf) parity =
          .ok (.finite .enumeration t) ∧
      t.groups = [⟨.int 1, .int 1, .finite (3 / 4)⟩, ⟨.int 0, .int 2, .finite 0⟩,
        ⟨.text "a", .text "a", .finite (1 / 4)⟩] := by
  set items : List (Value Exact × Option (Value Exact)) := [(.int 1, some (.int 2)),
    (.int 2, some (.real (.finite (-1)))), (.text "a", none), (.int 3, some (.int 1)),
    (.int 4, some (.bool true))]
  have reals : ∀ item ∈ items, ∀ w, item.2 = some w → ∃ x, w.IsReal x := by
    simp [items, Value.IsReal, Value.number?]
  have keys : ∀ item ∈ items, ∃ key, checkedKey parity item.1 = .ok key := by
    simp [items, parity, checkedKey, Value.isKey, pure, Except.pure]
  let groups : List (Group Exact ℝ) := [⟨.int 1, .int 1, 2⟩, ⟨.int 0, .int 2, -1⟩, ⟨.text "a", .text "a", 1⟩,
    ⟨.int 1, .int 3, 1⟩, ⟨.int 0, .int 4, 1⟩]
  have given : Table.parts parity (items.map itemOf) = groups := by
    simp [Table.parts, items, groups, itemOf, keyed, checkedKey, parity, Value.isKey, Value.mass, Value.number?,
      pure, Except.pure, Except.toOption, Exact.one_eq]
  have ints (m n : Int) : (Value.int m : Value Exact).alike (.int n) = (m == n) := by
    simp [Value.alike, Value.equalBy, Value.number?, Number.equalBy]
  have text (n : Int) : (Value.int n : Value Exact).alike (.text "a") = false := by
    simp [Value.alike, Value.equalBy, Value.number?]
  have text' (n : Int) : (Value.text "a" : Value Exact).alike (.int n) = false := by
    rw [Value.alike_comm, text]
  have first : firsts Group.sameKey groups =
      [⟨.int 1, .int 1, 2⟩, ⟨.int 0, .int 2, -1⟩, ⟨.text "a", .text "a", 1⟩] := by
    simp [groups, firsts, ints, text, text']
  have odd : Group.weightAt groups (.int 1) = 3 := by
    norm_num [groups, Group.weightAt, ints, text]
  have even : Group.weightAt groups (.int 0) = 0 := by
    norm_num [groups, Group.weightAt, ints, text]
  have other : Group.weightAt groups (.text "a") = 1 := by
    norm_num [groups, Group.weightAt, text', Value.alike_refl]
  have total : Group.total groups = 4 := by
    norm_num [groups, Group.total]
  obtain ⟨-, made⟩ := enumeration_divides parity items reals
  obtain ⟨-, -, -, divides⟩ := made keys
  rw [given] at divides
  obtain ⟨t, made, table⟩ := divides (by rw [total]; norm_num)
    (by simp [Group.merged, first, odd, even, other])
  refine ⟨t, made, ?_⟩
  simp [table.groups, first, odd, even, other, total]

end ChanceGraph
