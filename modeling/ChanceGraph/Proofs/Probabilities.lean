import ChanceGraph.Normalize
import ChanceGraph.Proofs.Summation
import ChanceGraph.Proofs.Tables

/-!
What tables of doubles hold.  No comparison refuses an undefined number, so a table is one of probabilities
just when the weights that its groups have come to are finite: those that are not negative do not exceed their
sum, as it is rounded, and negative ones pass only where their share is rounded to zero.
-/

set_option autoImplicit false

namespace ChanceGraph

/-- Every weight in the table is a probability. -/
def Table.Probable {S : Type} [Scalar S] (t : Table S) : Prop :=
  ∀ g ∈ t.groups, 0 ≤ g.weight ∧ g.weight ≤ 1

/-- A weight that stands for a finite number. -/
def Value.IsFinite {S : Type} [Scalar S] (w : Value S) : Prop :=
  ∃ x, w.toScalar = .ok x ∧ Scalar.isFinite x = true

theorem Value.isFinite_real {S : Type} [Scalar S] {x : S} :
    (Value.real x).IsFinite ↔ Scalar.isFinite x = true := by
  constructor
  · rintro ⟨_, known, finite⟩
    cases known
    exact finite
  · exact fun finite => ⟨x, rfl, finite⟩

namespace Group

section Regroup

variable {S W : Type} {groups groups' : List (Group S W)}

theorem length_foldlM {α : Type} {step : List (Group S W) → α → Outcome S (List (Group S W))}
    (grows : ∀ groups a groups', step groups a = .ok groups' → groups'.length ≤ groups.length + 1)
    {items : List α} (folded : items.foldlM step groups = .ok groups') :
    groups'.length ≤ groups.length + items.length := by
  induction items generalizing groups with
  | nil =>
    cases folded
    exact le_rfl
  | cons a rest ih =>
    rw [List.foldlM_cons] at folded
    obtain ⟨next, stepped, folded⟩ := Outcome.bind_ok.mp folded
    have first := grows groups a next stepped
    have others := ih folded
    rw [List.length_cons]
    omega

variable [Scalar S] {k : Grouping S} {add : W → W → Outcome S W} {key v : Value S} {w : W}

theorem length_insert (inserted : insert add key v w groups = .ok groups') :
    groups'.length ≤ groups.length + 1 := by
  induction groups generalizing groups' with
  | nil =>
    cases inserted
    exact le_rfl
  | cons g rest ih =>
    simp only [insert, Outcome.ite_ok, Outcome.bind_ok, Outcome.pure_ok] at inserted
    rcases inserted with ⟨-, _, -, rfl⟩ | ⟨-, rest', inserted, rfl⟩
    · exact Nat.le_succ _
    · exact Nat.succ_le_succ (ih inserted)

theorem insert_new (absent : ∀ g ∈ groups, g.key.alike key = false) :
    insert add key v w groups = .ok (groups ++ [⟨key, v, w⟩]) := by
  induction groups with
  | nil => rfl
  | cons g rest ih =>
    obtain ⟨first, others⟩ := List.forall_mem_cons.mp absent
    rw [insert, first, ih others]
    rfl

/-- Each group has the key of its value, and no key is taken for a later one. -/
structure Grouped (k : Grouping S) (groups : List (Group S W)) : Prop where
  keys : ∀ g ∈ groups, checkedKey k g.value = .ok g.key
  apart : groups.Pairwise fun g h => g.key.alike h.key = false

theorem Grouped.insert (grouped : Grouped k groups) (known : checkedKey k v = .ok key)
    (inserted : Group.insert add key v w groups = .ok groups') : Grouped k groups' := by
  refine ⟨fun h member => ?_, insert_apart grouped.apart inserted⟩
  rcases mem_insert inserted member with ⟨g, listed, same, same'⟩ | ⟨same, same'⟩
  · rw [same, same']
    exact grouped.keys g listed
  · rw [same, same']
    exact known

/-- What has been grouped is not merged any further when it is grouped again. -/
theorem Grouped.regroup (grouped : Grouped k groups) (weight : Group S W → Value S) :
    groupItems k (groups.map fun g => (g.value, weight g)) =
      .ok (groups.map fun g => ⟨g.key, g.value, weight g⟩) := by
  obtain ⟨keys, apart⟩ := grouped
  induction groups using List.reverseRecOn with
  | nil => rfl
  | append_singleton before g ih =>
    obtain ⟨apart, -, earlier⟩ := List.pairwise_append.mp apart
    have known := keys g (by simp)
    have grouped := ih (fun h member => keys h (List.mem_append_left _ member)) apart
    rw [groupItems] at grouped ⊢
    rw [List.map_append, List.foldlM_append, grouped, Outcome.ok_bind, List.map_append]
    simp only [List.map_singleton, List.foldlM_cons, List.foldlM_nil, known, Outcome.ok_bind]
    rw [insert_new]
    · rfl
    · exact List.forall_mem_map.mpr fun h member => earlier h member g List.mem_cons_self

end Regroup

end Group

section Groups

variable {S : Type} [Scalar S] {k : Grouping S}

theorem length_groupItems {items : List (TableItem S)} {given : List (Group S (Value S))}
    (grouped : groupItems k items = .ok given) : given.length ≤ items.length := by
  have grows := Group.length_foldlM (fun groups item groups' stepped => ?_) grouped
  · simpa using grows
  · obtain ⟨_, -, inserted⟩ := Outcome.bind_ok.mp stepped
    exact Group.length_insert inserted

theorem grouped_groupWeights {samples : List (Weighted S)} {groups : List (Group S S)}
    (grouped : groupWeights k samples = .ok groups) :
    Group.Grouped k groups ∧ groups.length ≤ samples.length := by
  unfold groupWeights at grouped
  simp only [Outcome.bind_ok, Outcome.ite_ok, Outcome.pure_ok, Outcome.throw_ne_ok, false_and,
    exists_false, and_false, false_or] at grouped
  obtain ⟨keys, known, -, weights, scalars, merged, folded, rfl⟩ := grouped
  have formed := Outcome.mapM_ok.mp known
  have keyed : Group.Grouped k merged := by
    refine Outcome.foldlM_preserves (fun groups item member groups' keyed inserted => ?_)
      ⟨List.forall_mem_nil _, .nil⟩ folded
    refine keyed.insert ?_ inserted
    obtain ⟨i, bound, same⟩ := List.mem_iff_getElem.mp member
    rw [List.getElem_zip, List.getElem_zip] at same
    rw [← same]
    exact formed.get _ _
  have grows := Group.length_foldlM (fun groups item groups' inserted => Group.length_insert inserted) folded
  refine ⟨⟨List.forall_mem_map.mpr keyed.keys, List.pairwise_map.mpr keyed.apart⟩, ?_⟩
  rw [List.length_map]
  refine grows.trans ?_
  simp

end Groups

namespace Binary64

/-- Negative numbers whose share in a positive one is rounded to zero are too few to make up for a number that
exceeds it. -/
theorem lt_double_sum {vs : List ℤ} {t v c n : ℤ} (few : vs.length ≤ n) (enough : 2 ^ 55 * n ≤ c)
    (positive : 0 < t) (small : ∀ u ∈ vs, u < 0 → -u * c ≤ t) (member : v ∈ vs) (above : t < v)
    (first : Short t) (second : Short v) : t + v < 2 * vs.sum := by
  have some : 0 < (vs.length : ℤ) := by exact_mod_cast List.length_pos_of_mem member
  have unit : 0 < c := by linarith
  have each : ∀ u ∈ vs, -t ≤ u * c := by
    intro u listed
    rcases lt_or_ge u 0 with negative | nonneg
    · have bound := small u listed negative
      linarith
    · have product : 0 ≤ u * c := by positivity
      linarith
  have others : -(n * t) ≤ (vs.erase v).sum * c := by
    have lower := List.card_nsmul_le_sum ((vs.erase v).map (· * c)) (-t)
      (List.forall_mem_map.mpr fun u listed => each u (List.mem_of_mem_erase listed))
    rw [List.length_map, List.sum_map_mul_right, List.map_id', nsmul_eq_mul, mul_neg] at lower
    have most : ((vs.erase v).length : ℤ) ≤ n := le_trans (by exact_mod_cast List.length_erase_le) few
    have product : ((vs.erase v).length : ℤ) * t ≤ n * t := mul_le_mul_of_nonneg_right most positive.le
    linarith
  rw [← List.sum_erase member]
  generalize (vs.erase v).sum = rest at others
  by_contra reached
  have gap : 0 < v - t := by linarith
  have short : t ≤ 2 ^ 53 * (v - t) := first.gap second above
  have below : 2 * rest ≤ -(v - t) := by linarith
  have scaled : 2 * rest * c ≤ -(v - t) * c := mul_le_mul_of_nonneg_right below unit.le
  have bounded : n * t ≤ n * (2 ^ 53 * (v - t)) := mul_le_mul_of_nonneg_left short (by linarith)
  have room : 2 ^ 55 * n * (v - t) ≤ c * (v - t) := mul_le_mul_of_nonneg_right enough gap.le
  have product : 0 < n * (v - t) := mul_pos (by linarith) gap
  linarith

section Shares

variable {t : Table Float} {given : List (Group Float (Value Float))} {total : Float}
  {x : Group Float (Value Float) → Float}

/-- The weights do not exceed their sum, since what is negative among them hardly counts. -/
theorem units_le_total (parts : t.Apportions given total) (few : given.length < 2 ^ 1000)
    (each : ∀ g ∈ given, g.weight.toScalar = .ok (x g) ∧ Scalar.isFinite (x g) = true)
    (finite : Scalar.isFinite total = true) (positive : 0 < units total)
    (covers : Covers (units total) (given.map fun g => units (x g)).sum) :
    ∀ g ∈ given, units (x g) ≤ units total := by
  intro g member
  by_contra above
  rw [not_le] at above
  have small : ∀ u ∈ given.map fun g => units (x g), u < 0 → -u * 2 ^ 1075 ≤ units total := by
    refine List.forall_mem_map.mpr fun h listed negative => ?_
    obtain ⟨known, finite'⟩ := each h listed
    have kept := parts.not_negative (parts.share_mem listed known)
    exact (negative_share finite' finite positive negative kept).1
  have count : ((given.map fun g => units (x g)).length : ℤ) ≤ 2 ^ 1000 := by
    rw [List.length_map]
    exact_mod_cast few.le
  have enough : (2 : ℤ) ^ 55 * 2 ^ 1000 ≤ 2 ^ 1075 := by
    rw [← pow_add]
    exact pow_le_pow_right₀ (by norm_num) (by norm_num)
  have low := lt_double_sum count enough positive small (List.mem_map_of_mem member) above (short_units _)
    (short_units _)
  have high := covers _ (short_units (x g)) ((le_abs_self _).trans_lt (abs_units_lt _)) positive above
  omega

/-- Shares of finite weights are probabilities, since negative ones are refused. -/
theorem probable_of_finite (parts : t.Apportions given total) (few : given.length < 2 ^ 1000)
    (finite : ∀ g ∈ given, g.weight.IsFinite) : t.Probable := by
  choose! x each using finite
  have summed : Scalar.sum (given.map x) = .ok total := by
    have sums := parts.sums
    rwa [exactSumBy_of_ok fun g member => (each g member).1, ofSumError_ok] at sums
  have rounded := sum_rounded (List.forall_mem_map.mpr fun g member => (each g member).2) summed
  rw [List.map_map] at rounded
  intro h listed
  obtain ⟨g, member, w, known, rfl⟩ := parts.exists_share listed
  obtain rfl := Except.ok.inj (known.symm.trans (each g member).1)
  have finite := (each g member).2
  rcases rounded with infinite | ⟨finite', covers⟩
  · obtain ⟨defined, none⟩ := div_infinite finite infinite
    refine (probability_iff defined).mpr ?_
    rw [none]
    exact ⟨le_rfl, pow_nonneg (by norm_num) _⟩
  · have positive : 0 < units total := by
      have above := parts.positive
      rwa [le_iff finite' isFinite_zero, units_zero, not_le] at above
    rcases lt_or_ge (units (x g)) 0 with negative | nonneg
    · have kept := parts.not_negative listed
      exact (negative_share finite finite' positive negative kept).2
    · exact share_probability finite finite' positive nonneg
        (units_le_total parts few each finite' positive covers g member)

theorem probable_ofGroups_iff {k : Grouping Float} (few : given.length < 2 ^ 1000)
    (built : Table.ofGroups k given = .ok t) : t.Probable ↔ ∀ g ∈ given, g.weight.IsFinite := by
  obtain ⟨-, total, parts⟩ := Table.ofGroups_ok built
  refine ⟨fun probable g member => ?_, probable_of_finite parts few⟩
  -- A probability is finite, and only what is finite has a finite share.
  obtain ⟨h, listed, weighed⟩ := Outcome.mem_of_mapM parts.shares member
  obtain ⟨w, known, rfl⟩ := Group.share_ok.mp weighed
  obtain ⟨atLeast, atMost⟩ := probable _ listed
  refine ⟨w, known, ?_⟩
  by_contra special
  rw [Bool.not_eq_true] at special
  have share := isFinite_of_probability atLeast atMost
  rw [div_special special] at share
  cases share

theorem probable_build_iff {k : Grouping Float} {items : List (TableItem Float)}
    (few : items.length < 2 ^ 1000) (built : Table.build k items = .ok t) :
    ∃ given, groupItems k items = .ok given ∧ (t.Probable ↔ ∀ g ∈ given, g.weight.IsFinite) := by
  obtain ⟨given, grouped, built⟩ := Outcome.bind_ok.mp built
  exact ⟨given, grouped, probable_ofGroups_iff ((length_groupItems grouped).trans_lt few) built⟩

/-- The shares are made twice: before the table is built, and by it. -/
theorem probable_posterior_iff {k : Grouping Float} {samples : List (Weighted Float)}
    (few : samples.length < 2 ^ 1000) (made : posterior k samples = .ok t) :
    ∃ groups, groupWeights k samples = .ok groups ∧ (t.Probable ↔ ∀ g ∈ groups,
      Scalar.isFinite (g.weight / (groups.map (·.weight)).foldl (· + ·) 0) = true) := by
  obtain ⟨groups, grouped, made⟩ := Outcome.bind_ok.mp made
  simp only [Outcome.ite_ok, Outcome.bind_ok, Outcome.throw_ne_ok, false_and, exists_false, and_false,
    or_false] at made
  obtain ⟨-, built⟩ := made
  obtain ⟨keyed, length⟩ := grouped_groupWeights grouped
  have few := length.trans_lt few
  obtain ⟨given, regrouped, probable⟩ := probable_build_iff (by rwa [List.length_map]) built
  rw [keyed.regroup, Except.ok.injEq] at regrouped
  subst regrouped
  refine ⟨groups, grouped, probable.trans ?_⟩
  rw [List.forall_mem_map]
  exact forall₂_congr fun g _ => Value.isFinite_real

end Shares

end Binary64

/-- A table that is built is one of probabilities just when the weights that its groups have come to are
finite; if one is not, the table is built all the same when no comparison refuses it, and then it is none.  It
would take more items than the bound allows for negative weights with shares of zero to hide a share beyond
one. -/
theorem probable_iff_finite (k : Grouping Float) :
    (∀ (items : List (TableItem Float)) d, items.length < 2 ^ 1000 →
      Distribution.makeEnumeration items k = .ok d →
        ∃ given t, groupItems k items = .ok given ∧ d = .finite .enumeration t ∧
          (t.Probable ↔ ∀ g ∈ given, g.weight.IsFinite)) ∧
    (∀ (states weights : List (Value Float)) d, states.length < 2 ^ 1000 →
      Distribution.makeMultinomial states (some weights) = .ok d →
        ∃ given t, groupItems .ok (states.zip weights) = .ok given ∧ d = .finite .multinomial t ∧
          (t.Probable ↔ ∀ g ∈ given, g.weight.IsFinite)) ∧
    ∀ (samples : List (Weighted Float)) t, samples.length < 2 ^ 1000 → posterior k samples = .ok t →
      ∃ groups, groupWeights k samples = .ok groups ∧ (t.Probable ↔ ∀ g ∈ groups,
        Scalar.isFinite (g.weight / (groups.map (·.weight)).foldl (· + ·) 0) = true) := by
  refine ⟨fun items d few made => ?_, fun states weights d few made => ?_, fun samples t few made => ?_⟩
  · obtain ⟨t, built, made⟩ := Outcome.bind_ok.mp made
    cases made
    obtain ⟨given, grouped, probable⟩ := Binary64.probable_build_iff few built
    exact ⟨given, t, grouped, rfl, probable⟩
  · obtain ⟨t, built, rfl⟩ := Distribution.build_of_multinomial made
    obtain ⟨given, grouped, probable⟩ := Binary64.probable_build_iff
      (by rw [List.length_zip]; exact (min_le_left _ _).trans_lt few) built
    exact ⟨given, t, grouped, rfl, probable⟩
  · exact Binary64.probable_posterior_iff few made

theorem probable_iff_finite_halves : ∃ t t' t'' : Table Float,
    Distribution.makeEnumeration [(.int 1, .real 1), (.int 2, .real 2), (.int 1, .real 1)] .ok =
      .ok (.finite .enumeration t) ∧
    Distribution.makeMultinomial [.int 1] (some [.real 1]) = .ok (.finite .multinomial t') ∧
    posterior .ok [⟨.int 1, .real 1⟩, ⟨.int 2, .real 1⟩] = .ok t'' ∧
    t.Probable ∧ t'.Probable ∧ t''.Probable := by
  obtain ⟨t, enumeration⟩ : ∃ t : Table Float,
      Distribution.makeEnumeration [(.int 1, .real 1), (.int 2, .real 2), (.int 1, .real 1)] .ok =
        .ok (.finite .enumeration t) := ⟨_, rfl⟩
  obtain ⟨t', multinomial⟩ : ∃ t : Table Float,
      Distribution.makeMultinomial [.int 1] (some [.real 1]) = .ok (.finite .multinomial t) := ⟨_, rfl⟩
  obtain ⟨t'', inference⟩ : ∃ t : Table Float,
      posterior .ok [⟨.int 1, .real 1⟩, ⟨.int 2, .real 1⟩] = .ok t := ⟨_, rfl⟩
  refine ⟨t, t', t'', enumeration, multinomial, inference, ?_, ?_, ?_⟩
  · obtain ⟨given, _, grouped, same, probable⟩ :=
      (probable_iff_finite .ok).1 _ _ (by decide +kernel) enumeration
    have merged : groupItems .ok [(.int 1, .real 1), (.int 2, .real 2), (.int 1, .real 1)] =
        (.ok [⟨.int 1, .int 1, .real (1 + 1)⟩, ⟨.int 2, .int 2, .real 2⟩] : Outcome Float _) := rfl
    cases same
    cases merged.symm.trans grouped
    refine probable.mpr ?_
    simp only [List.forall_mem_cons, Value.isFinite_real, List.not_mem_nil, false_imp_iff, implies_true]
    decide +kernel
  · obtain ⟨given, _, grouped, same, probable⟩ :=
      (probable_iff_finite .ok).2.1 _ _ _ (by decide +kernel) multinomial
    have merged : groupItems .ok [(.int 1, .real 1)] =
        (.ok [⟨.int 1, .int 1, .real 1⟩] : Outcome Float _) := rfl
    cases same
    cases merged.symm.trans grouped
    refine probable.mpr ?_
    simp only [List.forall_mem_cons, Value.isFinite_real, List.not_mem_nil, false_imp_iff, implies_true]
    decide +kernel
  · obtain ⟨groups, grouped, probable⟩ := (probable_iff_finite .ok).2.2 _ _ (by decide +kernel) inference
    have merged : groupWeights .ok [⟨.int 1, .real 1⟩, ⟨.int 2, .real 1⟩] =
        (.ok [⟨.int 1, .int 1, 0 + 1⟩, ⟨.int 2, .int 2, 0 + 1⟩] : Outcome Float _) := rfl
    cases merged.symm.trans grouped
    refine probable.mpr ?_
    simp only [List.forall_mem_cons, List.not_mem_nil, false_imp_iff, implies_true]
    decide +kernel

/-- The double nearest to 1e308, which is finite, while twice as much is not. -/
def huge : Float :=
  .ofBits 0x7FE1CCF385EBC8A0

/-- An undefined weight passes every check, and so does the share of an infinite one, also where finite weights
have been merged to an infinity. -/
theorem undefined_shares :
    (∃ t : Table Float, Distribution.makeEnumeration [(.int 1, .real Scalar.nan)] .ok =
      .ok (.finite .enumeration t) ∧ ¬ t.Probable) ∧
    (∃ t : Table Float, Distribution.makeMultinomial [.int 1] (some [.real Scalar.nan]) =
      .ok (.finite .multinomial t) ∧ ¬ t.Probable) ∧
    (∃ t : Table Float, posterior .ok [⟨.int 1, .real Scalar.infinity⟩] = .ok t ∧ ¬ t.Probable) ∧
    Scalar.isFinite huge = true ∧
    (∃ t : Table Float, Distribution.makeEnumeration [(.int 1, .real huge), (.int 1, .real huge)] .ok =
      .ok (.finite .enumeration t) ∧ ¬ t.Probable) ∧
    ∃ t : Table Float, posterior .ok [⟨.int 1, .real huge⟩, ⟨.int 1, .real huge⟩] = .ok t ∧ ¬ t.Probable := by
  have undefined {t : Table Float} {g : Group Float Float} (member : g ∈ t.groups) (special : ¬ 0 ≤ g.weight) :
      ¬ t.Probable := fun probable => special (probable g member).1
  refine ⟨⟨_, rfl, undefined List.mem_cons_self ?_⟩, ⟨_, rfl, undefined List.mem_cons_self ?_⟩,
    ⟨_, rfl, undefined List.mem_cons_self ?_⟩, ?_, ⟨_, rfl, undefined List.mem_cons_self ?_⟩,
    ⟨_, rfl, undefined List.mem_cons_self ?_⟩⟩ <;> decide +kernel

end ChanceGraph
