import ChanceGraph.Leaf.Build
import ChanceGraph.Proofs.Law
import ChanceGraph.Proofs.Traces

/-!
Leaves whose parameters list their values: tables of distinct values, and what equal keys say of two
of them.
-/

set_option autoImplicit false

namespace ChanceGraph

section Alike

variable {S : Type} [Scalar S] {eq : S → S → Bool}

theorem Number.equalBy_refl (refl : ∀ x, eq x x = true) (n : Number S) :
    n.equalBy eq n = true := by
  cases n with
  | int n => simp [equalBy]
  | real x => exact refl x

theorem Number.equalBy_comm (comm : ∀ x y, eq x y = eq y x) (m n : Number S) :
    m.equalBy eq n = n.equalBy eq m := by
  cases m <;> cases n <;> simp [equalBy, comm, eq_comm]

theorem Value.equalBy_number {v : Value S} {n : Number S} (number : v.number? = some n)
    (w : Value S) : v.equalBy eq w = (w.number?.map (n.equalBy eq)).getD false := by
  cases v <;> cases number <;> simp [equalBy]

omit [Scalar S] in
theorem all_zip_self (refl : ∀ x, eq x x = true) (xs : List S) :
    ((xs.zip xs).all fun (x, y) => eq x y) = true := by
  induction xs with
  | nil => rfl
  | cons x xs ih => simp_all

omit [Scalar S] in
theorem all_zip_comm (comm : ∀ x y, eq x y = eq y x) (xs ys : List S) :
    ((xs.zip ys).all fun (x, y) => eq x y) = (ys.zip xs).all fun (x, y) => eq x y := by
  induction xs generalizing ys with
  | nil => simp
  | cons x xs ih =>
    cases ys with
    | nil => rfl
    | cons y ys => simp [comm x y, ih ys]

mutual

theorem Value.equalBy_refl (refl : ∀ x, eq x x = true) : ∀ v : Value S, v.equalBy eq v = true
  | .nothing => by simp [Value.equalBy]
  | .text s => by simp [Value.equalBy]
  | .tuple vs => by simpa [Value.equalBy] using allEqualBy_refl refl vs
  | .list vs => by simpa [Value.equalBy] using allEqualBy_refl refl vs
  | .vector xs => by simpa [Value.equalBy] using all_zip_self refl xs
  | .bool b => by simp [Value.equalBy, Value.number?, Number.equalBy_refl refl]
  | .int n => by simp [Value.equalBy, Value.number?, Number.equalBy_refl refl]
  | .real x => by simp [Value.equalBy, Value.number?, Number.equalBy_refl refl]

theorem allEqualBy_refl (refl : ∀ x, eq x x = true) :
    ∀ vs : List (Value S), allEqualBy eq vs vs = true
  | [] => by simp [allEqualBy]
  | v :: vs => by simp [allEqualBy, Value.equalBy_refl refl v, allEqualBy_refl refl vs]

end

mutual

theorem Value.equalBy_comm (comm : ∀ x y, eq x y = eq y x) :
    ∀ v w : Value S, v.equalBy eq w = w.equalBy eq v
  | .nothing, w => by cases w <;> simp [Value.equalBy, Value.number?]
  | .text s, w => by cases w <;> simp [Value.equalBy, Value.number?, Bool.beq_comm]
  | .tuple vs, w => by
    cases w with
    | tuple ws => simpa [Value.equalBy] using allEqualBy_comm comm vs ws
    | _ => simp [Value.equalBy, Value.number?]
  | .list vs, w => by
    cases w with
    | list ws => simpa [Value.equalBy] using allEqualBy_comm comm vs ws
    | _ => simp [Value.equalBy, Value.number?]
  | .vector xs, w => by
    cases w with
    | vector ys => simp [Value.equalBy, all_zip_comm comm xs ys, Bool.beq_comm]
    | _ => simp [Value.equalBy, Value.number?]
  | .bool b, w => by
    cases w <;> simp [Value.equalBy, Value.number?, Number.equalBy_comm comm (.int b.toInt)]
  | .int n, w => by
    cases w <;> simp [Value.equalBy, Value.number?, Number.equalBy_comm comm (.int n)]
  | .real x, w => by
    cases w <;> simp [Value.equalBy, Value.number?, Number.equalBy_comm comm (.real x)]

theorem allEqualBy_comm (comm : ∀ x y, eq x y = eq y x) :
    ∀ vs ws : List (Value S), allEqualBy eq vs ws = allEqualBy eq ws vs
  | [], [] => rfl
  | [], _ :: _ => by simp [allEqualBy]
  | _ :: _, [] => by simp [allEqualBy]
  | v :: vs, w :: ws => by
    simp [allEqualBy, Value.equalBy_comm comm v w, allEqualBy_comm comm vs ws]

end

end Alike

theorem allKeys_iff {S : Type} (vs : List (Value S)) :
    allKeys vs = true ↔ ∀ v ∈ vs, v.isKey = true := by
  induction vs with
  | nil => simp [allKeys]
  | cons v vs ih => simp [allKeys, ih]

theorem Exact.alike_iff (x y : Exact) :
    (x == y || (Scalar.isNaN x && Scalar.isNaN y)) = true ↔ x = y := by
  change (same x y || (isUndefined x && isUndefined y)) = true ↔ _
  cases x <;> cases y <;> simp [same, isUndefined]

theorem Value.alike_refl (v : Value Exact) : v.alike v = true :=
  equalBy_refl (fun x => (Exact.alike_iff x x).mpr rfl) v

theorem Value.alike_comm (v w : Value Exact) : v.alike w = w.alike v :=
  equalBy_comm (fun x y => by rw [Bool.eq_iff_iff, Exact.alike_iff, Exact.alike_iff, eq_comm]) v w

theorem Number.alike_exact {m n : Number Exact}
    (alike : m.equalBy (fun x y => x == y || (Scalar.isNaN x && Scalar.isNaN y)) n = true) :
    m.toExact = n.toExact := by
  have integral (k : Int) (x : Exact)
      (same : (Scalar.floor? x == some k && Scalar.isIntegral x) = true) : x = .finite k := by
    cases x with
    | finite x =>
      simp only [Exact.finite_floor, Exact.finite_isIntegral, Bool.and_eq_true, beq_iff_eq,
        Option.some.injEq, decide_eq_true_eq] at same
      obtain ⟨rfl, whole⟩ := same
      rw [whole]
    | _ => simp [Scalar.floor?, Exact.floor?] at same
  cases m with
  | int m =>
    cases n with
    | int n => simpa [equalBy] using alike
    | real y => exact (integral m y alike).symm
  | real x =>
    cases n with
    | int n => exact integral n x alike
    | real y => exact (Exact.alike_iff x y).mp alike

theorem Exact.div_eq_finite {x y : Exact} (share : 0 < (x / y).toReal) :
    ∃ a b, x = .finite a ∧ y = .finite b ∧ b ≠ 0 := by
  have product : x / y = x * y.inv := rfl
  rw [product] at share
  by_cases finite : ∃ a b, x = .finite a ∧ y.inv = .finite b
  · obtain ⟨a, b, rfl, inverse⟩ := finite
    cases y with
    | finite y =>
      by_cases zero : y = 0
      · simp [inv, zero] at inverse
      · exact ⟨a, y, rfl, rfl, zero⟩
    | infinite positive =>
      rw [inverse] at share
      simp only [inv, Exact.finite.injEq] at inverse
      simp [← inverse] at share
    | undefined => simp [inv] at inverse
  · rw [mul_eq_ofSign _ _ finite] at share
    cases h : x.sign * y.inv.sign <;> simp [h, ofSign, toReal] at share

namespace Group

section Insert

variable {S W : Type} [Scalar S] {add : W → W → Outcome S W} {key value : Value S} {weight : W}
  {groups groups' : List (Group S W)}

theorem mem_insert (inserted : insert add key value weight groups = .ok groups') {h : Group S W}
    (member : h ∈ groups') :
    (∃ g ∈ groups, h.key = g.key ∧ h.value = g.value) ∨ h.key = key ∧ h.value = value := by
  induction groups generalizing groups' with
  | nil =>
    cases inserted
    obtain rfl := List.mem_singleton.mp member
    exact .inr ⟨rfl, rfl⟩
  | cons g rest ih =>
    simp only [insert, Outcome.ite_ok, Outcome.bind_ok, Outcome.pure_ok] at inserted
    rcases inserted with ⟨-, w, -, rfl⟩ | ⟨-, rest', inserted, rfl⟩
    · rcases List.mem_cons.mp member with rfl | member
      · exact .inl ⟨g, List.mem_cons_self, rfl, rfl⟩
      · exact .inl ⟨h, List.mem_cons_of_mem _ member, rfl, rfl⟩
    · rcases List.mem_cons.mp member with rfl | member
      · exact .inl ⟨h, List.mem_cons_self, rfl, rfl⟩
      · rcases ih inserted member with ⟨g', member, same⟩ | new
        · exact .inl ⟨g', List.mem_cons_of_mem _ member, same⟩
        · exact .inr new

/-- An insertion changes a weight, or comes to the end past keys that are all different. -/
theorem insert_apart (apart : groups.Pairwise fun g h => g.key.alike h.key = false)
    (inserted : insert add key value weight groups = .ok groups') :
    groups'.Pairwise fun g h => g.key.alike h.key = false := by
  induction groups generalizing groups' with
  | nil =>
    cases inserted
    exact List.pairwise_singleton _ _
  | cons g rest ih =>
    have ⟨before, apart⟩ := List.pairwise_cons.mp apart
    simp only [insert, Outcome.ite_ok, Outcome.bind_ok, Outcome.pure_ok] at inserted
    rcases inserted with ⟨-, w, -, rfl⟩ | ⟨differs, rest', inserted, rfl⟩
    · exact List.pairwise_cons.mpr ⟨before, apart⟩
    · refine List.pairwise_cons.mpr ⟨fun h member => ?_, ih apart inserted⟩
      rcases mem_insert inserted member with ⟨g', member, same, -⟩ | ⟨same, -⟩
      · rw [same]
        exact before g' member
      · rw [same]
        simpa using differs

end Insert

variable {W : Type}

/-- Every group is keyed by its value, and no two keys are taken for one another. -/
structure Distinct (groups : List (Group Exact W)) : Prop where
  keyed : ∀ g ∈ groups, g.key = g.value ∧ g.key.isKey = true
  apart : groups.Pairwise fun g h => g.key.alike h.key = false

theorem Distinct.insert {add : W → W → Outcome Exact W} {v : Value Exact} {weight : W}
    {groups groups' : List (Group Exact W)} (distinct : Distinct groups) (hashable : v.isKey = true)
    (inserted : Group.insert add v v weight groups = .ok groups') : Distinct groups' := by
  refine ⟨fun h member => ?_, insert_apart distinct.apart inserted⟩
  rcases mem_insert inserted member with ⟨g, listed, key, value⟩ | ⟨key, value⟩
  · rw [key, value]
    exact distinct.keyed g listed
  · rw [key, value]
    exact ⟨rfl, hashable⟩

theorem Distinct.find? {groups : List (Group Exact W)} (distinct : Distinct groups)
    {g : Group Exact W} (member : g ∈ groups) : Group.find? g.key groups = some g := by
  induction groups with
  | nil => cases member
  | cons h rest ih =>
    have ⟨before, apart⟩ := List.pairwise_cons.mp distinct.apart
    rcases List.mem_cons.mp member with rfl | member
    · simp [Group.find?, Value.alike_refl]
    · have found := ih ⟨fun g' tail => distinct.keyed g' (List.mem_cons_of_mem _ tail), apart⟩ member
      rw [Group.find?, List.find?_cons, before g member]
      exact found

theorem Distinct.weight_eq {groups groups' : List (Group Exact W)} (distinct : Distinct groups)
    (distinct' : Distinct groups')
    (alike : List.Forall₂ (fun g h => g.key.alike h.key = true ∧ g.weight = h.weight) groups groups')
    {g h : Group Exact W} (member : g ∈ groups) (member' : h ∈ groups') (same : g.key = h.key) :
    g.weight = h.weight := by
  -- Both tables have their groups in the same order, so the two groups are reached together.
  induction alike with
  | nil => cases member
  | @cons a b rest rest' head _ ih =>
    have ⟨before, apart⟩ := List.pairwise_cons.mp distinct.apart
    have ⟨before', apart'⟩ := List.pairwise_cons.mp distinct'.apart
    have tail : Distinct rest := ⟨fun g listed => distinct.keyed g (List.mem_cons_of_mem _ listed), apart⟩
    have tail' : Distinct rest' :=
      ⟨fun g listed => distinct'.keyed g (List.mem_cons_of_mem _ listed), apart'⟩
    obtain rfl | listed := List.mem_cons.mp member <;> obtain rfl | listed' := List.mem_cons.mp member'
    · exact head.2
    · -- The head of the second table would have the key of a later group.
      have clash := before' h listed'
      rw [← same, Value.alike_comm, head.1] at clash
      cases clash
    · have clash := before g listed
      rw [same, head.1] at clash
      cases clash
    · exact ih tail tail' listed listed'

theorem forall₂_of_alike {groups groups' : List (Group Exact Exact)}
    (alike : (Value.tuple (groups.map fun g => .tuple [g.key, .real g.weight])).alike
      (.tuple (groups'.map fun g => .tuple [g.key, .real g.weight])) = true) :
    List.Forall₂ (fun g h => g.key.alike h.key = true ∧ g.weight = h.weight) groups groups' := by
  unfold Value.alike Value.equalBy at alike
  induction groups generalizing groups' with
  | nil =>
    cases groups' with
    | nil => exact .nil
    | cons h rest' => simp [allEqualBy] at alike
  | cons g rest ih =>
    cases groups' with
    | nil => simp [allEqualBy] at alike
    | cons h rest' =>
      simp only [List.map_cons, allEqualBy, Value.equalBy, Value.number?, Option.map_some,
        Option.getD_some, Number.equalBy, List.isEmpty_nil, Bool.and_true, Bool.and_eq_true,
        Exact.alike_iff] at alike
      exact .cons alike.1 (ih alike.2)

theorem Distinct.reweigh {W' : Type} {groups : List (Group Exact W)} {groups' : List (Group Exact W')}
    (distinct : Distinct groups)
    (same : groups.map (fun g => (g.key, g.value)) = groups'.map fun g => (g.key, g.value)) :
    Distinct groups' := by
  constructor
  · intro h member
    have listed : (h.key, h.value) ∈ groups'.map fun g => (g.key, g.value) :=
      List.mem_map_of_mem member
    rw [← same] at listed
    obtain ⟨g, member, entry⟩ := List.mem_map.mp listed
    have ⟨key, value⟩ := Prod.mk.injEq .. ▸ entry
    rw [← key, ← value]
    exact distinct.keyed g member
  · have apart : (groups.map fun g => (g.key, g.value)).Pairwise fun a b => a.1.alike b.1 = false :=
      List.pairwise_map.mpr distinct.apart
    rw [same] at apart
    exact List.pairwise_map.mp apart

/-- The group with its share of the total for its weight. -/
def share {S : Type} [Scalar S] (total : S) (g : Group S (Value S)) : Outcome S (Group S S) := do
  return ⟨g.key, g.value, (← g.weight.toScalar) / total⟩

theorem share_ok {S : Type} [Scalar S] {total : S} {g : Group S (Value S)} {h : Group S S} :
    g.share total = .ok h ↔ ∃ w, g.weight.toScalar = .ok w ∧ h = ⟨g.key, g.value, w / total⟩ := by
  simp only [share, Outcome.bind_ok, Outcome.pure_ok]
  exact exists_congr fun w => and_congr_right fun _ => eq_comm

end Group

namespace Table

theorem density_eq (t : Table Exact) (v : Value Exact) : t.density v = do
    let key ← checkedKey t.keyOf v
    return ((Group.find? key t.groups).map (·.weight)).getD 0 := by
  unfold density
  cases checkedKey t.keyOf v with
  | error e => rfl
  | ok key =>
    rw [Outcome.ok_bind, Outcome.ok_bind]
    cases Group.find? key t.groups <;> rfl

/-- A table whose values are its keys, with weights that are shares of a whole where they are
positive. -/
structure Plain (t : Table Exact) : Prop where
  keyOf : t.keyOf = .ok
  distinct : Group.Distinct t.groups
  share : ∀ g ∈ t.groups, 0 < g.weight.toReal → g.weight.toReal ≤ 1

/-- What an insertion under a key that may be hashed keeps holds of the groups of the items. -/
theorem groupItems_preserves {S : Type} [Scalar S] {keyOf : Grouping S} {P : List (Group S (Value S)) → Prop}
    (kept : ∀ groups v w key groups', P groups → keyOf v = .ok key → key.isKey = true →
      Group.insert Value.add key v w groups = .ok groups' → P groups')
    {items : List (TableItem S)} {groups : List (Group S (Value S))} (start : P [])
    (grouped : groupItems keyOf items = .ok groups) : P groups := by
  refine Outcome.foldlM_preserves (fun before item _ after holds stepped => ?_) start grouped
  obtain ⟨key, checked, inserted⟩ := Outcome.bind_ok.mp stepped
  simp only [checkedKey, Outcome.bind_ok, Outcome.ite_ok, Outcome.pure_ok, Outcome.throw_ne_ok,
    and_false, or_false] at checked
  obtain ⟨_, known, hashable, rfl⟩ := checked
  exact kept before item.1 item.2 _ after holds known hashable inserted

theorem distinct_groupItems {items : List (TableItem Exact)} {groups : List (Group Exact (Value Exact))}
    (grouped : groupItems .ok items = .ok groups) : Group.Distinct groups := by
  refine groupItems_preserves (fun groups v w key groups' distinct known hashable inserted => ?_)
    ⟨by simp, .nil⟩ grouped
  obtain rfl := Except.ok.inj known
  exact distinct.insert hashable inserted

theorem keys_of_groupItems {keyOf : Grouping Exact} {items : List (TableItem Exact)}
    {groups : List (Group Exact (Value Exact))} (grouped : groupItems keyOf items = .ok groups) :
    ∀ g ∈ groups, g.key.isKey = true := by
  refine groupItems_preserves (P := fun groups => ∀ g ∈ groups, g.key.isKey = true)
    (fun groups v w key groups' keys _ hashable inserted h member => ?_) (by simp) grouped
  rcases Group.mem_insert inserted member with ⟨g, listed, same, -⟩ | ⟨same, -⟩
  · rw [same]
    exact keys g listed
  · rw [same]
    exact hashable

section Built

variable {S : Type} [Scalar S]

theorem not_negative {elements : List (Value S)} {weights : List S} {sampler : AliasSampler (Value S) S}
    (built : AliasSampler.build elements weights = .ok sampler) : ∀ w ∈ weights, ¬ w < 0 := by
  simp only [AliasSampler.build, Outcome.ite_ok, reduceCtorEq, and_false, false_or] at built
  obtain ⟨-, -, nonnegative, -⟩ := built
  simpa using nonnegative

/-- The table has for groups the shares of the given ones in the total of their weights, which is positive,
and its sampler is built over them. -/
structure Apportions (t : Table S) (given : List (Group S (Value S))) (total : S) : Prop where
  sums : exactSumBy (fun g => g.weight.toScalar) given = .ok total
  positive : ¬ total ≤ 0
  shares : given.mapM (Group.share total) = .ok t.groups
  sampled : AliasSampler.build (t.groups.map (·.value)) (t.groups.map (·.weight)) = .ok t.sampler

theorem ofGroups_ok {keyOf : Grouping S} {given : List (Group S (Value S))} {t : Table S}
    (built : ofGroups keyOf given = .ok t) : t.keyOf = keyOf ∧ ∃ total, t.Apportions given total := by
  unfold ofGroups at built
  simp only [Outcome.bind_ok, Outcome.ite_ok, Outcome.pure_ok, Outcome.throw_ne_ok, false_and,
    exists_false, and_false, false_or] at built
  obtain ⟨-, total, sums, positive, groups, shares, sampler, sampled, rfl⟩ := built
  exact ⟨rfl, total, sums, positive, shares, sampled⟩

namespace Apportions

variable {t : Table S} {given : List (Group S (Value S))} {total : S}

theorem not_negative (parts : t.Apportions given total) {h : Group S S} (member : h ∈ t.groups) :
    ¬ h.weight < 0 :=
  Table.not_negative parts.sampled _ (List.mem_map_of_mem member)

theorem share_mem (parts : t.Apportions given total) {g : Group S (Value S)} (source : g ∈ given)
    {w : S} (known : g.weight.toScalar = .ok w) : ⟨g.key, g.value, w / total⟩ ∈ t.groups := by
  obtain ⟨h, member, shared⟩ := Outcome.mem_of_mapM parts.shares source
  obtain ⟨w', known', rfl⟩ := Group.share_ok.mp shared
  rw [known, Except.ok.injEq] at known'
  exact known' ▸ member

theorem exists_share (parts : t.Apportions given total) {h : Group S S} (member : h ∈ t.groups) :
    ∃ g ∈ given, ∃ w, g.weight.toScalar = .ok w ∧ h = ⟨g.key, g.value, w / total⟩ := by
  obtain ⟨g, source, shared⟩ := Outcome.exists_of_mem_mapM parts.shares member
  exact ⟨g, source, Group.share_ok.mp shared⟩

theorem same_entries (parts : t.Apportions given total) :
    given.map (fun g => (g.key, g.value)) = t.groups.map fun g => (g.key, g.value) := by
  rw [← List.forall₂_eq_eq_eq, List.forall₂_map_left_iff, List.forall₂_map_right_iff]
  refine (Outcome.mapM_ok.mp parts.shares).imp fun g h shared => ?_
  obtain ⟨w, -, rfl⟩ := Group.share_ok.mp shared
  rfl

end Apportions

end Built

namespace Apportions

variable {t : Table Exact} {given : List (Group Exact (Value Exact))} {total : Exact}

theorem share_le_one (parts : t.Apportions given total) {h : Group Exact Exact} (member : h ∈ t.groups)
    (share : 0 < h.weight.toReal) : h.weight.toReal ≤ 1 := by
  obtain ⟨g, source, w, known, rfl⟩ := parts.exists_share member
  -- A positive share is finite, so the total is, and then all weights are.
  obtain ⟨a, b, rfl, rfl, nonzero⟩ := Exact.div_eq_finite share
  have above : 0 < b := by
    simpa [Exact.zero_eq] using parts.positive
  obtain ⟨r, each, sum⟩ := finite_of_exactSumBy parts.sums
  have weight : r g = a := by
    have same := each g source
    rw [known] at same
    simpa using same.symm
  have nonneg : ∀ g ∈ given, 0 ≤ r g := by
    intro g source
    have sign := parts.not_negative (parts.share_mem source (each g source))
    rw [Exact.finite_div nonzero, Exact.zero_eq, Exact.finite_lt, not_lt] at sign
    simpa using (le_div_iff₀ above).mp sign
  have part : a ≤ b := by
    rw [← weight, ← sum]
    exact List.single_le_sum (by simpa using nonneg) _ (List.mem_map_of_mem source)
  rw [Exact.finite_div nonzero, Exact.toReal_finite]
  exact (div_le_one above).mpr part

end Apportions

/-- A table keeps the keys and values that its items are grouped by, with shares for their weights. -/
theorem groups_of_build {keyOf : Grouping Exact} {items : List (TableItem Exact)} {t : Table Exact}
    (built : Table.build keyOf items = .ok t) : t.keyOf = keyOf ∧
      (∃ given, groupItems keyOf items = .ok given ∧
        given.map (fun g => (g.key, g.value)) = t.groups.map fun g => (g.key, g.value)) ∧
      ∀ g ∈ t.groups, 0 < g.weight.toReal → g.weight.toReal ≤ 1 := by
  obtain ⟨given, grouped, built⟩ := Outcome.bind_ok.mp built
  obtain ⟨keys, total, parts⟩ := ofGroups_ok built
  exact ⟨keys, ⟨given, grouped, parts.same_entries⟩, fun g member => parts.share_le_one member⟩

theorem keys_of_build {keyOf : Grouping Exact} {items : List (TableItem Exact)} {t : Table Exact}
    (built : Table.build keyOf items = .ok t) : ∀ g ∈ t.groups, g.key.isKey = true := by
  obtain ⟨-, ⟨given, grouped, same⟩, -⟩ := groups_of_build built
  intro g member
  have listed : (g.key, g.value) ∈ t.groups.map fun g => (g.key, g.value) := List.mem_map_of_mem member
  rw [← same] at listed
  obtain ⟨h, source, entry⟩ := List.mem_map.mp listed
  have key := keys_of_groupItems grouped h source
  rwa [(Prod.mk.inj entry).1] at key

theorem plain_of_build {items : List (TableItem Exact)} {t : Table Exact}
    (built : Table.build .ok items = .ok t) : t.Plain := by
  obtain ⟨keyOf, ⟨given, grouped, same⟩, share⟩ := groups_of_build built
  exact ⟨keyOf, (distinct_groupItems grouped).reweigh same, share⟩

end Table

/-- The parameters of the leaf give its values, and no function groups them. -/
inductive Distribution.Tabular : Distribution Exact → Prop where
  | flip {p : Value Exact} {d : Distribution Exact} (made : makeFlip p = .ok d) : Tabular d
  | multinomial {states : List (Value Exact)} {probabilities : Option (List (Value Exact))}
    {d : Distribution Exact} (made : makeMultinomial states probabilities = .ok d) : Tabular d
  | enumeration {items : List (TableItem Exact)} {d : Distribution Exact}
    (made : makeEnumeration items .ok = .ok d) : Tabular d

/-- The table of the leaf has an item with the value. -/
def Leaf.Lists {S : Type} [Scalar S] (l : Leaf S) (v : Value S) (w : Weighted S) : Prop :=
  ∃ table, l.distribution.support = .ok table ∧ w ∈ table ∧ w.value = v

noncomputable def Leaf.chance (l : Leaf Exact) (v : Value Exact) : ℝ :=
  Outcome.worth (fun d => d.toExact.toReal) (l.distribution.density v)

namespace Distribution

variable {d : Distribution Exact}

theorem flip_of_make {p : Value Exact} (made : makeFlip p = .ok d) :
    ∃ n x, d = .flip p n ∧ p.number? = some n ∧ n.toExact = .finite x ∧ 0 ≤ x ∧ x ≤ 1 := by
  unfold makeFlip at made
  simp only [Value.within, Outcome.bind_ok, Outcome.ite_ok, Outcome.pure_ok, Outcome.throw_ne_ok,
    false_and, exists_false, and_false, or_false] at made
  obtain ⟨within, ⟨_, low, ⟨rfl, high⟩ | ⟨-, rfl⟩⟩, holds, n, number, rfl⟩ := made
  · subst holds
    obtain ⟨m, known, above⟩ := Value.holds_of_precedes rfl low
    obtain ⟨_, one, below⟩ := Value.holds_of_precedes known high
    cases one
    obtain rfl : m = n := by simpa [Value.toNumber, known] using number
    have above : (0 : Exact) ≤ m.toExact := (Number.le_exact (.real 0) m).mp above
    have below : m.toExact ≤ 1 := (Number.le_exact m (.real 1)).mp below
    -- What lies between zero and one is no infinity, and defined.
    cases value : m.toExact with
    | finite x =>
      rw [value] at above below
      exact ⟨m, x, rfl, known, value, above, below⟩
    | infinite positive =>
      rw [value] at above below
      cases positive with
      | false => cases above
      | true => cases below
    | undefined =>
      rw [value] at above
      cases above
  · cases holds

theorem build_of_multinomial {S : Type} [Scalar S] {states : List (Value S)}
    {probabilities : Option (List (Value S))} {d : Distribution S}
    (made : makeMultinomial states probabilities = .ok d) :
    ∃ t, Table.build .ok (states.zip (probabilities.getD
        (List.replicate states.length (.real (1 / Scalar.ofNat states.length))))) = .ok t ∧
      d = .finite .multinomial t := by
  unfold makeMultinomial at made
  simp only [Outcome.bind_ok, Outcome.ite_ok, Outcome.pure_ok, Outcome.throw_ne_ok, false_and,
    exists_false, and_false, or_false, false_or] at made
  obtain ⟨-, -, _, -, _, -, -, t, built, rfl⟩ := made
  exact ⟨t, built, rfl⟩

theorem Tabular.shape (tabular : d.Tabular) :
    (∃ given n x, d = .flip given n ∧ given.number? = some n ∧ n.toExact = .finite x ∧ 0 ≤ x ∧ x ≤ 1) ∨
      ∃ origin t, d = .finite origin t ∧ t.Plain ∧
        (origin = .enumeration ∨ origin = .multinomial) := by
  cases tabular with
  | flip made =>
    obtain ⟨n, x, shape⟩ := flip_of_make made
    exact .inl ⟨_, n, x, shape⟩
  | multinomial made =>
    obtain ⟨t, built, rfl⟩ := build_of_multinomial made
    exact .inr ⟨_, t, rfl, Table.plain_of_build built, .inr rfl⟩
  | enumeration made =>
    obtain ⟨t, built, made⟩ := Outcome.bind_ok.mp made
    cases made
    exact .inr ⟨_, t, rfl, Table.plain_of_build built, .inl rfl⟩

theorem Tabular.ne_constant (tabular : d.Tabular) (v : Value Exact) : d ≠ .constant v := by
  obtain ⟨_, _, _, rfl, -⟩ | ⟨_, _, rfl, -⟩ := tabular.shape <;> exact nofun

/-- Distinct values, each with its density, which is a share of a whole where it is positive. -/
structure Tabulates (d : Distribution Exact) (table : List (Weighted Exact)) : Prop where
  support : d.support = .ok table
  distinct : (table.map (·.value)).Nodup
  density : ∀ w ∈ table, ∃ n, d.density w.value = .ok n ∧ n.toExact = w.weight.toExact
  share : ∀ w ∈ table, 0 < w.weight.toExact.toReal → w.weight.toExact.toReal ≤ 1

theorem tabulates_flip {given : Value Exact} {n : Number Exact} {x : ℝ} (value : n.toExact = .finite x)
    (nonnegative : 0 ≤ x) (atMost : x ≤ 1) :
    ∃ table, (Distribution.flip given n).Tabulates table := by
  have rest : Number.sub .one n = .ok (.real (1 - n.toExact)) := by
    simp [Number.sub, Number.combine, Number.one]
  refine ⟨[⟨.bool true, n⟩, ⟨.bool false, .real (1 - n.toExact)⟩], by simp [support, rest], by simp, ?_, ?_⟩
  · simp [Distribution.density, Value.truth, rest, pure, Except.pure]
  · simp [value, Exact.one_eq, nonnegative, atMost]

theorem tabulates_finite {origin : Origin Exact} {t : Table Exact} (plain : t.Plain) :
    (Distribution.finite origin t).Tabulates t.support := by
  have ⟨keyOf, distinct, share⟩ := plain
  refine ⟨rfl, ?_, ?_, ?_⟩
  · rw [Table.support, List.map_map]
    refine List.pairwise_map.mpr (distinct.apart.imp_of_mem fun {g h} first second apart same => ?_)
    have key : g.key = h.key :=
      (distinct.keyed g first).1.trans (same.trans (distinct.keyed h second).1.symm)
    rw [key, Value.alike_refl] at apart
    cases apart
  · intro w listed
    obtain ⟨g, member, rfl⟩ := List.mem_map.mp listed
    have ⟨key, hashable⟩ := distinct.keyed g member
    have found := distinct.find? member
    rw [key] at hashable found
    exact ⟨.real g.weight, by simp [density, Table.density, checkedKey, keyOf, hashable, found, pure,
      Except.pure], rfl⟩
  · intro w listed
    obtain ⟨g, member, rfl⟩ := List.mem_map.mp listed
    exact share g member

theorem Tabular.tabulates (tabular : d.Tabular) : ∃ table, d.Tabulates table := by
  rcases tabular.shape with ⟨_, _, _, rfl, -, value, nonnegative, atMost⟩ | ⟨_, t, rfl, plain, -⟩
  · exact tabulates_flip value nonnegative atMost
  · exact ⟨t.support, tabulates_finite plain⟩

theorem Tabular.logDensity (tabular : d.Tabular) (v : Value Exact) :
    d.logDensity v = do return .real (logOfDensity (← d.density v)) := by
  obtain ⟨_, _, _, rfl, -⟩ | ⟨_, t, rfl, -⟩ := tabular.shape <;> rfl

end Distribution

theorem sum_of_distinct {α β : Type} {xs : List α} {key : α → β} {f : α → ℝ}
    (distinct : (xs.map key).Nodup) {a : α} (member : a ∈ xs)
    (vanishes : ∀ x ∈ xs, key x ≠ key a → f x = 0) : (xs.map f).sum = f a := by
  induction xs with
  | nil => cases member
  | cons x rest ih =>
    have ⟨new, distinct⟩ := List.nodup_cons.mp distinct
    rw [List.map_cons, List.sum_cons]
    rcases List.mem_cons.mp member with rfl | member
    · have others : (rest.map f).sum = 0 := by
        refine List.sum_eq_zero fun y term => ?_
        obtain ⟨z, listed, rfl⟩ := List.mem_map.mp term
        refine vanishes z (List.mem_cons_of_mem _ listed) fun same => ?_
        exact new (same ▸ List.mem_map_of_mem listed)
      rw [others, add_zero]
    · have differs : key x ≠ key a := by
        intro same
        exact new (same ▸ List.mem_map_of_mem member)
      rw [vanishes x List.mem_cons_self differs, zero_add]
      exact ih distinct member fun y listed => vanishes y (List.mem_cons_of_mem _ listed)

namespace Leaf

variable {l l' : Leaf Exact}

theorem chance_of_mem {table : List (Weighted Exact)} (tabulates : l.distribution.Tabulates table)
    {w : Weighted Exact} (member : w ∈ table) : l.chance w.value = w.weight.toExact.toReal := by
  obtain ⟨n, known, same⟩ := tabulates.density w member
  rw [chance, known, Outcome.worth, same]

theorem Lists.tabulated {v : Value Exact} {w : Weighted Exact} (listed : l.Lists v w)
    (tabular : l.distribution.Tabular) :
    ∃ table, l.distribution.Tabulates table ∧ w ∈ table ∧ w.value = v := by
  obtain ⟨table, tabulates⟩ := tabular.tabulates
  obtain ⟨_, supported, member, value⟩ := listed
  rw [tabulates.support, Except.ok.injEq] at supported
  subst supported
  exact ⟨table, tabulates, member, value⟩

theorem mean_law (tabular : l.distribution.Tabular) {v : Value Exact} {w : Weighted Exact}
    (listed : l.Lists v w) {g : Value Exact → ℝ} (vanishes : ∀ u, u ≠ v → g u = 0) :
    l.law.mean (Outcome.worth g) = l.chance v * g v := by
  obtain ⟨table, tabulates, member, rfl⟩ := listed.tabulated tabular
  have law : l.law = ⟨table.map fun w => (.ok w.value, w.weight.toExact.toReal)⟩ := by
    rw [Leaf.law, tabulates.support]
  rw [law, chance_of_mem tabulates member]
  simp only [Law.mean, List.map_map, Function.comp_def, Outcome.worth]
  refine sum_of_distinct tabulates.distinct member fun u _ differs => ?_
  rw [vanishes u.value differs, mul_zero]

theorem chance_le_one (tabular : l.distribution.Tabular) {v : Value Exact} {w : Weighted Exact}
    (listed : l.Lists v w) (positive : 0 < l.chance v) : l.chance v ≤ 1 := by
  obtain ⟨table, tabulates, member, rfl⟩ := listed.tabulated tabular
  rw [chance_of_mem tabulates member] at positive ⊢
  exact tabulates.share w member positive

theorem logDensity_of_chance (tabular : l.distribution.Tabular) {v : Value Exact}
    (positive : 0 < l.chance v) :
    l.distribution.logDensity v = .ok (.real (.finite (Real.log (l.chance v)))) := by
  rw [tabular.logDensity]
  cases known : l.distribution.density v with
  | error fault => simp [chance, known] at positive
  | ok d =>
    simp only [chance, known, Outcome.worth] at positive ⊢
    cases value : d.toExact with
    | finite x =>
      simp only [value, Exact.toReal_finite] at positive ⊢
      have above : d.le (.int 0) = false := by
        rw [Bool.eq_false_iff, ne_eq, Number.le_exact, value, Number.toExact_int, Exact.finite_le]
        simpa using positive
      simp [logOfDensity, above, Number.log_exact value positive, pure, Except.pure]
    | infinite sign => simp [value, Exact.toReal] at positive
    | undefined => simp [value, Exact.toReal] at positive

theorem hashable (tabular : l.distribution.Tabular) : ∃ k, checkedLeafKey l = .ok k := by
  obtain ⟨id, d⟩ := l
  rcases tabular.shape with ⟨given, _, _, rfl, number, -⟩ | ⟨origin, t, rfl, plain, rfl | rfl⟩
  · refine ⟨_, checkedLeafKey_ok.mpr ⟨rfl, ?_⟩⟩
    cases given <;> simp_all [LeafKey.isKey, Value.isKey, allKeys, Value.number?]
  all_goals
    refine ⟨_, checkedLeafKey_ok.mpr ⟨rfl, ?_⟩⟩
    simp only [LeafKey.isKey, Value.isKey, allKeys_iff, List.mem_map]
    rintro _ ⟨g, member, rfl⟩
    simp [Value.isKey, allKeys, (plain.distinct.keyed g member).2]

theorem chance_finite {origin : Origin Exact} {t : Table Exact} {id : ObjectId} {v : Value Exact}
    {w : Weighted Exact} (plain : t.Plain) (listed : (⟨id, .finite origin t⟩ : Leaf Exact).Lists v w) :
    ∃ g ∈ t.groups, g.key = v ∧ (⟨id, .finite origin t⟩ : Leaf Exact).chance v = g.weight.toReal := by
  obtain ⟨_, supported, member, rfl⟩ := listed
  cases supported
  have chance := chance_of_mem (l := ⟨id, .finite origin t⟩) (Distribution.tabulates_finite plain) member
  obtain ⟨g, source, rfl⟩ := List.mem_map.mp member
  exact ⟨g, source, (plain.distinct.keyed g source).1, chance⟩

theorem chance_flip {id id' : ObjectId} {given given' v : Value Exact} {n n' : Number Exact}
    (same : n.toExact = n'.toExact) :
    (⟨id, .flip given n⟩ : Leaf Exact).chance v = (⟨id', .flip given' n'⟩ : Leaf Exact).chance v := by
  cases truth : v.truth with
  | error fault => simp [chance, Distribution.density, truth, bind, Except.bind]
  | ok b =>
    cases b <;>
      simp [chance, Distribution.density, truth, Number.sub, Number.combine, Number.one, same, pure,
        Except.pure]

theorem chance_eq (tabular : l.distribution.Tabular) (tabular' : l'.distribution.Tabular)
    {k k' : LeafKey Exact} (key : l.key = .ok k) (key' : l'.key = .ok k') (same : k.same k' = true)
    {v : Value Exact} {w w' : Weighted Exact} (listed : l.Lists v w) (listed' : l'.Lists v w') :
    l.chance v = l'.chance v := by
  obtain ⟨id, d⟩ := l
  obtain ⟨id', d'⟩ := l'
  have parameters : k.name = k'.name ∧ k.parameters.alike k'.parameters = true := by
    simpa [LeafKey.same] using same
  -- Leaves of different shapes have different names in their keys.
  obtain ⟨given, n, _, rfl, number, -⟩ | ⟨origin, t, rfl, plain, names⟩ := tabular.shape <;>
    rcases tabular'.shape with ⟨given', n', _, rfl, number', -⟩ | ⟨origin', t', rfl, plain', names'⟩
  · cases key
    cases key'
    have alike := parameters.2
    simp only [Value.alike, Value.equalBy, allEqualBy, List.isEmpty_nil, Bool.and_true,
      Value.equalBy_number number, number', Option.map_some, Option.getD_some] at alike
    exact chance_flip (Number.alike_exact alike)
  · cases key
    obtain rfl | rfl := names' <;> cases key' <;> simp [Distribution.name] at parameters
  · cases key'
    obtain rfl | rfl := names <;> cases key <;> simp [Distribution.name] at parameters
  · obtain ⟨g, member, rfl, chance⟩ := chance_finite plain listed
    obtain ⟨h, member', keys, chance'⟩ := chance_finite plain' listed'
    have alike := parameters.2
    have weight : g.weight = h.weight := by
      obtain rfl | rfl := names <;> obtain rfl | rfl := names' <;> cases key <;> cases key' <;>
        exact plain.distinct.weight_eq plain'.distinct (Group.forall₂_of_alike alike) member member'
          keys.symm
    rw [chance, chance', weight]

end Leaf

end ChanceGraph
