import ChanceGraph.Proofs.Conditioning

/-!
Inference over a filter: what passes keeps its density, out of all that passes.
-/

set_option autoImplicit false

namespace ChanceGraph

/-- The density of all outcomes of a table that pass. -/
noncomputable def Table.evidence (t : Table Exact) (p : Value Exact → Outcome Exact Bool) : ℝ :=
  (t.support.map fun w => answering p true (fun v => (t.density v).worth Exact.toReal) w.value).sum

/-- Both predicates, the second one only where the first one holds. -/
def both (p q : Value Exact → Outcome Exact Bool) (v : Value Exact) : Outcome Exact Bool := do
  if ← p v then q v else return false

/-- The predicate does not tell apart values that are taken for one another. -/
def Congruent (p : Value Exact → Outcome Exact Bool) : Prop :=
  ∀ u v : Value Exact, u.alike v = true → p u = p v

section Passing

variable {p q : Value Exact → Outcome Exact Bool} {v : Value Exact}

theorem answering_eq_mul (h : Value Exact → ℝ) (v : Value Exact) :
    answering p true h v = answering p true (fun _ => 1) v * h v := by
  cases known : p v with
  | error fault => simp [answering_error known]
  | ok b => cases b <;> simp [answering_ok known]

theorem answering_likeness (congruent : Congruent p) (u : Value Exact) :
    answering p true (likeness v) u = answering p true (fun _ => 1) v * likeness v u := by
  rw [answering_eq_mul]
  by_cases alike : u.alike v = true
  · rw [answering, answering, congruent u v alike]
  · have apart : likeness v u = 0 := if_neg alike
    rw [apart, mul_zero, mul_zero]

theorem answering_true (passes : p v = .ok true) : answering p true (fun _ => 1) v = 1 := by
  rw [answering_ok passes, if_pos rfl]

theorem answering_other (refuses : p v ≠ .ok true) : answering p true (fun _ => 1) v = 0 := by
  cases known : p v with
  | error fault => exact answering_error known _ _
  | ok b =>
    rw [answering_ok known, if_neg]
    rintro rfl
    exact refuses known

end Passing

section Posterior

variable {items : List (Weighted Exact)} {p : Value Exact → Outcome Exact Bool}

theorem evidence_posterior (countable : Countable items) (congruent : Congruent p) :
    (Table.shared .ok (Group.merged (labels .ok items))).evidence p =
      mass items (answering p true fun _ => 1) / mass items fun _ => 1 := by
  have each (g : Group Exact ℝ) (listed : g ∈ Group.merged (labels .ok items)) :
      answering p true (fun v =>
        ((Table.shared .ok (Group.merged (labels .ok items))).density v).worth Exact.toReal) g.value =
          answering p true (fun _ => 1) g.value * g.weight / mass items fun _ => 1 := by
    rw [answering_eq_mul, Table.density_of_mem countable.keyed listed, Outcome.worth, Exact.toReal_finite,
      mul_div_assoc]
  -- Values of one group pass together.
  have passes : ∀ g ∈ labels .ok items, ∀ g' ∈ labels .ok items, Group.sameKey g g' = true →
      answering p true (fun _ => 1) g.value = answering p true (fun _ => 1) g'.value := by
    intro g listed g' listed' same
    obtain ⟨w, member, rfl⟩ := List.mem_map.mp listed
    obtain ⟨w', member', rfl⟩ := List.mem_map.mp listed'
    rw [Group.sameKey, keyed_of_isKey (countable w member).2, keyed_of_isKey (countable w' member').2] at same
    rw [answering, answering, congruent _ _ same]
  have sum := Group.sum_merged (h := fun _ value => answering p true (fun _ => 1) value) passes
  calc (Table.shared .ok (Group.merged (labels .ok items))).evidence p
    _ = ((Group.merged (labels .ok items)).map fun g =>
          answering p true (fun _ => 1) g.value * g.weight / mass items fun _ => 1).sum := by
      simp only [Table.evidence, Table.support, List.map_map]
      rw [← List.map_congr_left each]
      simp only [Table.shared, List.map_map]
      rfl
    _ = ((labels .ok items).map fun g => answering p true (fun _ => 1) g.value * g.weight).sum /
          mass items fun _ => 1 := by
      simp only [div_eq_mul_inv, List.sum_map_mul_right, sum]
    _ = mass items (answering p true fun _ => 1) / mass items fun _ => 1 := by
      simp only [labels, List.map_map, Function.comp_def, mul_comm]
      rfl

theorem mass_answering_nonneg (countable : Countable items) : 0 ≤ mass items (answering p true fun _ => 1) := by
  refine mass_nonneg countable fun v => ?_
  by_cases passes : p v = .ok true
  · rw [answering_true passes]
    exact zero_le_one
  · rw [answering_other passes]

/-- What passes has its density out of all that passes, and nothing else has any. -/
theorem posterior_kept {kept : List (Weighted Exact)}
    (positive : 0 < mass items fun _ => 1) (congruent : Congruent p) (countable' : Countable kept)
    (masses : ∀ h, mass kept h = mass items (answering p true h))
    (some : 0 < mass items (answering p true fun _ => 1)) :
    ∃ given, posterior .ok kept = .ok given ∧ ∀ v : Value Exact, v.isKey = true →
      given.density v = .ok (.finite (answering p true (fun _ => 1) v *
        ((mass items (likeness v) / mass items fun _ => 1) /
          (mass items (answering p true fun _ => 1) / mass items fun _ => 1)))) := by
  obtain ⟨given, made, density⟩ := posterior_density countable' (by rwa [masses])
  refine ⟨given, made, fun v hashable => ?_⟩
  have share : mass items (answering p true (likeness v)) =
      answering p true (fun _ => 1) v * mass items (likeness v) := by
    rw [← mass_mul]
    exact mass_congr fun w _ => answering_likeness congruent w.value
  rw [density v hashable, masses, masses, share, div_div_div_cancel_right₀ positive.ne', mul_div_assoc]

end Posterior

namespace Node

variable {n : Node Exact} {items : List (Weighted Exact)} {p q : Value Exact → Outcome Exact Bool}

theorem enumerate_both (listed : enumerate n = .ok items) (decides : Decides p items)
    (decides' : Decides q items) :
    enumerate ((n.filter p).filter q) = enumerate (n.filter (both p q)) ∧
      enumerate ((n.filter q).filter p) = enumerate (n.filter (both p q)) := by
  have each (w : Weighted Exact) (member : w ∈ items) :
      both p q w.value = .ok (holds p w && holds q w) := by
    rw [both, decides.holds member, Outcome.ok_bind, decides'.holds member]
    cases holds p w <;> rfl
  have together : enumerate (n.filter (both p q)) = .ok (items.filter fun w => holds p w && holds q w) := by
    rw [enumerate, listed, Outcome.ok_bind, Outcome.filterM_decided each]
  rw [together, (decides'.filter _).enumerate (decides.enumerate listed),
    (decides.filter _).enumerate (decides'.enumerate listed), List.filter_filter, List.filter_filter]
  simp only [Bool.and_comm, and_self]

theorem Enumerates.evidence (source : n.Enumerates items) (positive : 0 < mass items fun _ => 1)
    (congruent : Congruent p) {post : Table Exact} (inferred : infer .ok n = .ok post) :
    post.evidence p = mass items (answering p true fun _ => 1) / mass items fun _ => 1 := by
  have countable := source.countable
  have made := posterior_keyed (fun w listed => (countable w listed).1) positive countable.keyed
  rw [infer, source.enumerated, Outcome.ok_bind, made, Except.ok.injEq] at inferred
  rw [← inferred, evidence_posterior countable congruent]

theorem Enumerates.infer (source : n.Enumerates items) : ChanceGraph.infer .ok n = posterior .ok items := by
  rw [ChanceGraph.infer, source.enumerated, Outcome.ok_bind]

end Node

/-- Inference over a filter is conditional probability.  Among what passes the densities are those before,
divided by the evidence, which is the density of all that passes; where nothing that has weight passes there
is no posterior.  Of two filters it does not matter which one comes first, and one for both does the same. -/
theorem infer_filter {n : Node Exact} {items : List (Weighted Exact)} {p : Value Exact → Outcome Exact Bool}
    (source : n.Enumerates items) (positive : 0 < mass items fun _ => 1) (decides : Node.Decides p items)
    (congruent : Congruent p) :
    ∃ post, infer .ok n = .ok post ∧ 0 ≤ post.evidence p ∧
      (0 < post.evidence p → ∃ given, infer .ok (n.filter p) = .ok given ∧
        ∀ v : Value Exact, v.isKey = true → ∃ x, post.density v = .ok (.finite x) ∧
          (p v = .ok true → given.density v = .ok (.finite (x / post.evidence p))) ∧
          (p v ≠ .ok true → given.density v = .ok (.finite 0))) ∧
      (post.evidence p = 0 →
        infer .ok (n.filter p) = .error .noSamples ∨ infer .ok (n.filter p) = .error .zeroSamples) ∧
      ∀ q, Node.Decides q items → ∀ k,
        infer k ((n.filter p).filter q) = infer k (n.filter (both p q)) ∧
          infer k ((n.filter q).filter p) = infer k (n.filter (both p q)) := by
  have countable := source.countable
  obtain ⟨kept, filtered, masses⟩ := source.filter decides
  obtain ⟨post, made, density⟩ := posterior_density countable positive
  have inferred : infer .ok n = .ok post := source.infer.trans made
  have evidence := source.evidence positive congruent inferred
  have nonneg : 0 ≤ mass items (answering p true fun _ => 1) := mass_answering_nonneg countable
  refine ⟨post, inferred, ?_, fun some => ?_, fun zero => ?_, fun q decides' k => ?_⟩
  · rw [evidence]
    exact div_nonneg nonneg positive.le
  · rw [evidence] at some ⊢
    obtain ⟨given, conditioned, density'⟩ := posterior_kept positive congruent filtered.countable masses
      ((div_pos_iff_of_pos_right positive).mp some)
    refine ⟨given, filtered.infer.trans conditioned, fun v hashable =>
      ⟨_, density v hashable, fun passes => ?_, fun refuses => ?_⟩⟩
    · rw [density' v hashable, answering_true passes, one_mul]
    · rw [density' v hashable, answering_other refuses, zero_mul]
  · -- The evidence is a part of a positive mass, so none of it means that nothing with weight has passed.
    have weightless : (mass kept fun _ => 1) = 0 := by
      rw [masses]
      exact (div_eq_zero_iff.mp (evidence.symm.trans zero)).resolve_right positive.ne'
    rw [filtered.infer]
    exact posterior_weightless (fun w listed => (filtered.countable w listed).1) filtered.countable.keyed
      weightless
  · have ⟨first, second⟩ := Node.enumerate_both source.enumerated decides decides'
    rw [infer, infer, infer, first, second]
    exact ⟨rfl, rfl⟩

/-- A flip, and another one that is sure after heads and like the first one after tails. -/
noncomputable def flippedTwice (x : ℝ) : Node Exact :=
  (firstFlip x).bind (biased 1 x) Node.second

noncomputable def heads (v : Value Exact) : Outcome Exact Bool :=
  .ok (v.alike (.bool true))

theorem congruent_heads : Congruent heads :=
  fun _ _ alike => congrArg Except.ok (Value.alike_congr alike _)

theorem heads_bool (b : Bool) : heads (.bool b) = .ok b := by
  cases b <;> simp [heads, Value.alike, Value.equalBy, Value.number?, Number.equalBy, Bool.toInt]

theorem enumerates_flippedTwice : ∃ items, (flippedTwice (1 / 2)).Enumerates items ∧
    ∀ h, mass items h = 3 / 4 * h (.bool true) + 1 / 4 * h (.bool false) := by
  have half : (0 : ℝ) < 1 / 2 ∧ (1 / 2 : ℝ) ≤ 1 := by norm_num
  have source := (flipOf_leaf ⟨0, 0⟩ half.1.le half.2 1).2.1
  have calls (a : Value Exact) := (biased_leaf ⟨one_pos, le_rfl⟩ half a 0 1).2.1
  obtain ⟨joint, enumerated, sums⟩ : ∃ joint, (flippedTwice (1 / 2)).Enumerates joint ∧ ∀ h, mass joint h =
      mass (flipItems (1 / 2)) fun v => mass (flipItems (bias 1 (1 / 2) v)) fun u =>
        Outcome.worth h (Node.second v u) :=
    source.bind (fun a _ => calls a.value) fun a _ c listed =>
      ⟨c.value, rfl, ((calls a.value).countable c listed).2⟩
  refine ⟨joint, enumerated, fun h => ?_⟩
  simp only [sums, mass_flipItems, bias, Node.second, Outcome.worth]
  ring

theorem infer_filter_flippedTwice : ∃ post given,
    infer .ok (flippedTwice (1 / 2)) = .ok post ∧ post.evidence heads = 3 / 4 ∧
    infer .ok ((flippedTwice (1 / 2)).filter heads) = .ok given ∧ given.density (.bool true) = .ok (.finite 1) ∧
      given.density (.bool false) = .ok (.finite 0) := by
  obtain ⟨items, source, masses⟩ := enumerates_flippedTwice
  have positive : 0 < mass items fun _ => 1 := by
    norm_num [masses]
  have decides : Node.Decides heads items := fun _ _ => ⟨_, rfl⟩
  obtain ⟨post, inferred, -, conditioned, -⟩ := infer_filter source positive decides congruent_heads
  have evidence : post.evidence heads = 3 / 4 := by
    rw [source.evidence positive congruent_heads inferred, masses, masses, answering_true (heads_bool true),
      answering_other (by rw [heads_bool]; simp)]
    norm_num
  obtain ⟨given, made, shares⟩ := conditioned (by norm_num [evidence])
  obtain ⟨x, density, share, -⟩ := shares (.bool true) rfl
  obtain ⟨-, -, -, none⟩ := shares (.bool false) rfl
  refine ⟨post, given, inferred, evidence, made, ?_, none (by rw [heads_bool]; simp)⟩
  have known : x = 3 / 4 := by
    obtain ⟨post', made', density'⟩ := posterior_density source.countable positive
    obtain rfl : post' = post := Except.ok.inj (made'.symm.trans (source.infer.symm.trans inferred))
    have same := (density' (.bool true) rfl).symm.trans density
    rw [masses, masses, Except.ok.injEq, Exact.finite.injEq] at same
    rw [← same]
    norm_num [likeness, Value.alike, Value.equalBy, Value.number?, Number.equalBy, Bool.toInt]
  rw [share (heads_bool true), evidence, known, div_self (by norm_num)]

end ChanceGraph
