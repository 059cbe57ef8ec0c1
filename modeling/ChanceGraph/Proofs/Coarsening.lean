import ChanceGraph.Proofs.Inference

/-!
What a posterior depends on.  It is the table of its samples, made in two steps; grouped again by a coarser
key it is what that key makes of the samples; neither their order nor a factor in all weights matters.
-/

set_option autoImplicit false

namespace ChanceGraph

section Faults

variable {S α β : Type}

theorem Outcome.mapM_error {f : α → Outcome S β} {xs : List α} {fault : Fault S}
    (fails : xs.mapM f = .error fault) :
    ∃ before x after, xs = before ++ x :: after ∧ (∀ y ∈ before, ∃ z, f y = .ok z) ∧ f x = .error fault := by
  induction xs with
  | nil => cases fails
  | cons x rest ih =>
    rw [List.mapM_cons] at fails
    cases head : f x with
    | error fault' =>
      rw [head] at fails
      cases fails
      exact ⟨[], x, rest, rfl, List.forall_mem_nil _, head⟩
    | ok z =>
      rw [head, ok_bind] at fails
      cases tail : rest.mapM f with
      | error fault' =>
        rw [tail] at fails
        cases fails
        obtain ⟨before, y, after, rfl, total, failed⟩ := ih tail
        exact ⟨x :: before, y, after, rfl, List.forall_mem_cons.mpr ⟨⟨z, head⟩, total⟩, failed⟩
      | ok zs =>
        rw [tail] at fails
        cases fails

end Faults

section Keys

variable {k : Grouping Exact} {items items' : List (Weighted Exact)}

theorem keyed_iff : Keyed k items ↔ ∀ w ∈ items, ∃ key, checkedKey k w.value = .ok key := by
  refine forall₂_congr fun w _ => ⟨fun known => ⟨_, known⟩, ?_⟩
  rintro ⟨key, known⟩
  rw [keyed_eq known, known]

theorem keyed_or_fault (k : Grouping Exact) (items : List (Weighted Exact)) :
    Keyed k items ∨ ∃ fault, items.mapM (fun w => checkedKey k w.value) = .error fault := by
  cases known : items.mapM fun w => checkedKey k w.value with
  | error fault => exact .inr ⟨fault, rfl⟩
  | ok keys =>
    refine .inl (keyed_iff.mpr fun w listed => ?_)
    obtain ⟨key, -, formed⟩ := Outcome.mem_of_mapM known listed
    exact ⟨key, formed⟩

theorem posterior_fault {fault : Fault Exact}
    (fails : items.mapM (fun w => checkedKey k w.value) = .error fault) : posterior k items = .error fault := by
  rw [posterior, groupWeights, fails]
  rfl

theorem Table.build_keyless {items : List (TableItem Exact)} (reals : ∀ item ∈ items, ∃ x, item.2.IsReal x)
    {fault : Fault Exact} (fails : items.mapM (fun item => checkedKey k item.1) = .error fault) :
    Table.build k items = .error fault := by
  obtain ⟨before, ⟨v, w⟩, after, rfl, total, failed⟩ := Outcome.mapM_error fails
  have keys : ∀ item ∈ before, checkedKey k item.1 = .ok (keyed k item.1) := by
    intro item listed
    obtain ⟨key, known⟩ := total item listed
    rw [keyed_eq known, known]
  obtain ⟨groups, grouped, -⟩ :=
    groupItems_real (fun item listed => reals item (List.mem_append_left _ listed)) keys
  have stopped : groupItems k (before ++ (v, w) :: after) = .error fault := by
    rw [groupItems] at grouped ⊢
    rw [List.foldlM_append, grouped, Outcome.ok_bind, List.foldlM_cons]
    simp only [failed]
    rfl
  rw [Table.build, stopped]
  rfl

theorem build_fault (masses : ∀ w ∈ items, w.weight.toExact.IsMass) {fault : Fault Exact}
    (fails : items.mapM (fun w => checkedKey k w.value) = .error fault) :
    Table.build k (items.map Weighted.item) = .error fault :=
  Table.build_keyless (isReal_item masses) (by rwa [List.mapM_map])

/-- The weights may be added up before they are divided or after. -/
theorem posterior_eq_build (masses : ∀ w ∈ items, w.weight.toExact.IsMass)
    (positive : 0 < mass items fun _ => 1) : posterior k items = Table.build k (items.map Weighted.item) := by
  rcases keyed_or_fault k items with keys | ⟨fault, fails⟩
  · rw [posterior_keyed masses positive keys, build_keyed masses positive keys]
  · rw [posterior_fault fails, build_fault masses fails]

end Keys

section Coarser

/-- Of these values the second grouping has keys, alike where the keys of the first one are. -/
def Coarser (fine coarse : Grouping Exact) (items : List (Weighted Exact)) : Prop :=
  ∀ u ∈ items, ∀ v ∈ items, ∀ x y : Value Exact,
    checkedKey fine u.value = .ok x → checkedKey fine v.value = .ok y → x.alike y = true →
      ∃ x' y', checkedKey coarse u.value = .ok x' ∧ checkedKey coarse v.value = .ok y' ∧ x'.alike y' = true

variable {fine coarse : Grouping Exact} {items : List (Weighted Exact)}

theorem Coarser.keyed (coarser : Coarser fine coarse items) (keys : Keyed fine items) :
    Keyed coarse items := by
  refine keyed_iff.mpr fun w listed => ?_
  obtain ⟨key, -, known, -⟩ :=
    coarser w listed w listed _ _ (keys w listed) (keys w listed) (Value.alike_refl _)
  exact ⟨key, known⟩

theorem Coarser.relabel (coarser : Coarser fine coarse items) (keys : Keyed fine items) :
    ∀ g ∈ labels fine items, ∀ h ∈ labels fine items, Group.sameKey g h = true →
      Group.sameKey (g.relabel coarse) (h.relabel coarse) = true := by
  intro g listed h listed' same
  obtain ⟨u, member, rfl⟩ := List.mem_map.mp listed
  obtain ⟨v, member', rfl⟩ := List.mem_map.mp listed'
  obtain ⟨x, y, known, known', alike⟩ :=
    coarser u member v member' _ _ (keys u member) (keys v member') same
  change (ChanceGraph.keyed coarse u.value).alike (ChanceGraph.keyed coarse v.value) = true
  rwa [keyed_eq known, keyed_eq known']

/-- Groups that are relabelled with coarser keys merge as what they were merged of. -/
theorem Group.merged_relabel {k : Grouping Exact} {groups : List (Group Exact ℝ)}
    (coarser : ∀ g ∈ groups, ∀ h ∈ groups, sameKey g h = true → sameKey (g.relabel k) (h.relabel k) = true) :
    merged ((merged groups).map (relabel k)) = merged (groups.map (relabel k)) := by
  have equivalence : Equivalence fun g h : Group Exact ℝ => sameKey (g.relabel k) (h.relabel k) = true :=
    sameKey_equivalence.comap (relabel k)
  have weights (key : Value Exact) : weightAt ((merged groups).map (relabel k)) key =
      weightAt (groups.map (relabel k)) key := by
    rw [weightAt_eq_sum, weightAt_eq_sum, List.map_map, List.map_map]
    refine sum_merged (h := fun _ value => if key.alike (keyed k value) then 1 else 0)
      fun g listed g' listed' same => ?_
    have alike : (keyed k g.value).alike (keyed k g'.value) = true := coarser g listed g' listed' same
    rw [Value.alike_comm key, Value.alike_comm key, Value.alike_congr alike]
  -- The weights agree at every key, so the first values decide.
  calc merged ((merged groups).map (relabel k))
    _ = (firsts sameKey ((firsts sameKey groups).map fun g =>
          { g.relabel k with weight := weightAt groups g.key })).map fun g =>
            { g with weight := weightAt (groups.map (relabel k)) g.key } := by
      simp only [merged, List.map_map] at weights ⊢
      simp only [weights]
      rfl
    _ = (firsts (fun g h => sameKey (g.relabel k) (h.relabel k)) groups).map fun g =>
          { g.relabel k with weight := weightAt (groups.map (relabel k)) (g.relabel k).key } := by
      rw [firsts_map, List.map_map, ← firsts_firsts equivalence coarser]
      rfl
    _ = merged (groups.map (relabel k)) := by
      rw [merged, firsts_map, List.map_map]
      rfl

/-- A posterior that is grouped by a coarser key is what that key makes of the samples. -/
theorem posterior_support (masses : ∀ w ∈ items, w.weight.toExact.IsMass)
    (positive : 0 < mass items fun _ => 1) (keys : Keyed fine items) (coarser : Coarser fine coarse items) :
    posterior coarse (Table.shared fine (Group.merged (labels fine items))).support =
      posterior coarse items := by
  have nonzero : Group.total (Group.merged (labels fine items)) ≠ 0 := by
    rw [Group.total_merged, total_labels]
    exact positive.ne'
  have positive' : 0 < mass (Table.shared fine (Group.merged (labels fine items))).support fun _ => 1 := by
    rw [total_support fine nonzero]
    exact one_pos
  rw [posterior_keyed masses positive (coarser.keyed keys),
    posterior_keyed (masses_support fine (merged_nonneg masses)) positive' (coarser.keyed keys).support,
    shared_support fine coarse nonzero, Group.merged_relabel (coarser.relabel keys), relabel_labels]

end Coarser

section Invariance

variable {k : Grouping Exact} {items items' : List (Weighted Exact)}

theorem mass_perm (permuted : items'.Perm items) (h : Value Exact → ℝ) : mass items' h = mass items h :=
  (permuted.map _).sum_eq

/-- The same values in the same order, with weights that differ by one factor. -/
def Rescaled (c : ℝ) (items items' : List (Weighted Exact)) : Prop :=
  List.Forall₂ (fun w w' => w'.value = w.value ∧
    w'.weight.toExact = .finite (c * w.weight.toExact.toReal)) items items'

theorem Rescaled.labels {c : ℝ} (rescaled : Rescaled c items items') (k : Grouping Exact) :
    labels k items' = (labels k items).map (Group.mapWeight (c * ·)) := by
  induction rescaled with
  | nil => rfl
  | @cons w w' _ _ head _ ih =>
    simp only [ChanceGraph.labels, List.map_cons, List.cons.injEq] at ih ⊢
    exact ⟨by simp [head.1, head.2, Group.mapWeight], ih⟩

theorem Rescaled.values {c : ℝ} (rescaled : Rescaled c items items') :
    items'.map (·.value) = items.map (·.value) := by
  induction rescaled with
  | nil => rfl
  | cons head _ ih => rw [List.map_cons, List.map_cons, head.1, ih]

theorem Rescaled.masses {c : ℝ} (rescaled : Rescaled c items items') (positive : 0 ≤ c)
    (masses : ∀ w ∈ items, w.weight.toExact.IsMass) : ∀ w ∈ items', w.weight.toExact.IsMass := by
  induction rescaled with
  | nil => exact List.forall_mem_nil _
  | cons head _ ih =>
    have ⟨first, later⟩ := List.forall_mem_cons.mp masses
    refine List.forall_mem_cons.mpr ⟨?_, ih later⟩
    rw [head.2]
    exact Exact.isMass_finite (mul_nonneg positive first.toReal_nonneg)

theorem Rescaled.formed {c : ℝ} (rescaled : Rescaled c items items') (k : Grouping Exact) :
    items'.mapM (fun w => checkedKey k w.value) = items.mapM fun w => checkedKey k w.value := by
  have values := congrArg (List.mapM (checkedKey k)) rescaled.values
  rwa [List.mapM_map, List.mapM_map] at values

theorem Rescaled.keyed {c : ℝ} (rescaled : Rescaled c items items') (keys : Keyed k items) :
    Keyed k items' := by
  rw [Keyed, ← List.forall_mem_map (P := fun v => checkedKey k v = .ok (ChanceGraph.keyed k v))] at keys ⊢
  rwa [rescaled.values]

theorem Rescaled.total {c : ℝ} (rescaled : Rescaled c items items') :
    (mass items' fun _ => 1) = c * mass items fun _ => 1 := by
  rw [← total_labels .ok, ← total_labels .ok, rescaled.labels, Group.total_scaled]

theorem posterior_rescaled {c : ℝ} (above : 0 < c) (rescaled : Rescaled c items items')
    (masses : ∀ w ∈ items, w.weight.toExact.IsMass) (positive : 0 < mass items fun _ => 1) :
    posterior k items' = posterior k items := by
  rcases keyed_or_fault k items with keys | ⟨fault, fails⟩
  · rw [posterior_keyed masses positive keys, posterior_keyed (rescaled.masses above.le masses)
      (by rw [rescaled.total]; exact mul_pos above positive) (rescaled.keyed keys), rescaled.labels,
      Group.merged_scaled, Table.shared_scaled k above.ne']
  · rw [posterior_fault fails, posterior_fault ((rescaled.formed k).trans fails)]

theorem posterior_perm (permuted : items'.Perm items)
    (masses : ∀ w ∈ items, w.weight.toExact.IsMass) (positive : 0 < mass items fun _ => 1)
    (keys : Keyed k items) : ∃ table, posterior k items' = .ok table ∧ ∀ v,
      table.density v = (Table.shared k (Group.merged (labels k items))).density v := by
  refine ⟨_, posterior_keyed (fun w listed => masses w (permuted.mem_iff.mp listed))
    (by rwa [mass_perm permuted]) fun w listed => keys w (permuted.mem_iff.mp listed), fun v => ?_⟩
  simp only [Table.shared_density, weightAt_labels, total_labels, mass_perm permuted]

end Invariance

section Factors

variable {k : Grouping Exact} {items : List (Weighted Exact)}

theorem coarser_self (k : Grouping Exact) (items : List (Weighted Exact)) : Coarser k k items :=
  fun _ _ _ _ x y known known' alike => ⟨x, y, known, known', alike⟩

/-- Weights that are added up, divided by their sum and grouped once more make one table, in whatever way
that is done: the table of the samples at once, the same table from its own support, the table of a coarser
key from that support, and again the same where all weights have a factor.  The order of the samples decides
only which of them stand for their groups, and in which order: it does not change the density of a value. -/
theorem posterior_factors (masses : ∀ w ∈ items, w.weight.toExact.IsMass)
    (positive : 0 < mass items fun _ => 1) :
    posterior k items = Table.build k (items.map Weighted.item) ∧
    (∀ (c : ℝ) (items' : List (Weighted Exact)), 0 < c → Rescaled c items items' →
      posterior k items' = posterior k items) ∧
    ((∀ w ∈ items, ∃ key, checkedKey k w.value = .ok key) → ∃ table, posterior k items = .ok table ∧
      posterior k table.support = .ok table ∧
      (∀ coarse, Coarser k coarse items → ∃ table', posterior coarse items = .ok table' ∧
        posterior coarse table.support = .ok table') ∧
      ∀ items' : List (Weighted Exact), items'.Perm items → ∃ table', posterior k items' = .ok table' ∧
        ∀ v, table'.density v = table.density v) := by
  refine ⟨posterior_eq_build masses positive, fun c items' above rescaled =>
    posterior_rescaled above rescaled masses positive, fun formed => ?_⟩
  have keys := keyed_iff.mpr formed
  have made := posterior_keyed masses positive keys
  refine ⟨_, made, ?_, fun coarse coarser => ?_, fun items' permuted => ?_⟩
  · rw [posterior_support masses positive keys (coarser_self k items), made]
  · have made' := posterior_keyed masses positive (coarser.keyed keys)
    exact ⟨_, made', (posterior_support masses positive keys coarser).trans made'⟩
  · exact posterior_perm permuted masses positive keys

/-- One value twice, and one without weight. -/
noncomputable def numerals : List (Weighted Exact) :=
  [⟨.int 1, .real (.finite 1)⟩, ⟨.int 2, .int 0⟩, ⟨.int 3, .int 2⟩, ⟨.int 1, .int 3⟩]

def parity : Grouping Exact
  | .int n => .ok (.int (n % 2))
  | v => .ok v

theorem int_of_numerals {w : Weighted Exact} (listed : w ∈ numerals) : ∃ n, w.value = .int n := by
  simp only [numerals, List.mem_cons, List.not_mem_nil, or_false] at listed
  rcases listed with rfl | rfl | rfl | rfl <;> exact ⟨_, rfl⟩

theorem coarser_parity : Coarser .ok parity numerals := by
  intro u listed v listed' x y known known' alike
  obtain ⟨m, value⟩ := int_of_numerals listed
  obtain ⟨n, value'⟩ := int_of_numerals listed'
  rw [value] at known ⊢
  rw [value'] at known' ⊢
  cases known
  cases known'
  obtain rfl : m = n := Value.integer_of_alike alike rfl rfl
  exact ⟨_, _, rfl, rfl, Value.alike_refl _⟩

theorem posterior_factors_numerals :
    posterior .ok numerals = Table.build .ok (numerals.map Weighted.item) ∧
    ∃ table, posterior .ok numerals = .ok table ∧ posterior .ok table.support = .ok table ∧
      (∃ table', posterior parity numerals = .ok table' ∧ posterior parity table.support = .ok table') ∧
      ∃ table', posterior .ok numerals.reverse = .ok table' ∧ ∀ v, table'.density v = table.density v := by
  have masses : ∀ w ∈ numerals, w.weight.toExact.IsMass := by
    norm_num [numerals, Exact.IsMass]
  have positive : 0 < mass numerals fun _ => 1 := by
    norm_num [mass, numerals]
  obtain ⟨built, -, factors⟩ := posterior_factors (k := .ok) masses positive
  obtain ⟨table, made, again, coarser, permuted⟩ := factors fun w listed => by
    obtain ⟨n, value⟩ := int_of_numerals listed
    exact ⟨.int n, by rw [value]; rfl⟩
  exact ⟨built, table, made, again, coarser parity coarser_parity, permuted _ numerals.reverse_perm⟩

end Factors

end ChanceGraph
