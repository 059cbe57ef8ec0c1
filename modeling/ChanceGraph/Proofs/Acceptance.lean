import ChanceGraph.Proofs.Trajectories

/-!
The acceptance of one trace in place of another in exact arithmetic: the sizes of the two, and the
choices of the old one that the new one has no match for.
-/

set_option autoImplicit false

namespace ChanceGraph

section Sums

variable {α β : Type}

open Classical in
/-- A number that counts where something holds. -/
noncomputable def counted (P : Prop) (x : ℝ) : ℝ :=
  if P then x else 0

theorem counted_pos {P : Prop} (holds : P) (x : ℝ) : counted P x = x :=
  if_pos holds

theorem counted_neg {P : Prop} (fails : ¬ P) (x : ℝ) : counted P x = 0 :=
  if_neg fails

theorem counted_or {P Q R : Prop} (either : P ↔ Q ∨ R) (apart : ¬ (Q ∧ R)) (x : ℝ) :
    counted P x = counted Q x + counted R x := by
  by_cases left : Q
  · have right : ¬ R := fun right => apart ⟨left, right⟩
    rw [counted_pos (either.mpr (.inl left)), counted_pos left, counted_neg right, add_zero]
  · by_cases right : R
    · rw [counted_pos (either.mpr (.inr right)), counted_neg left, counted_pos right, zero_add]
    · have neither : ¬ P := fun holds => (either.mp holds).elim left right
      rw [counted_neg neither, counted_neg left, counted_neg right, add_zero]

theorem sum_unique {xs : List α} {P : α → Prop} (unique : xs.Pairwise fun x x' => ¬ (P x ∧ P x'))
    (a : ℝ) : (xs.map fun x => counted (P x) a).sum = counted (∃ x ∈ xs, P x) a := by
  induction xs with
  | nil => rw [counted_neg (by simp)]; rfl
  | cons x xs ih =>
    have ⟨apart, unique⟩ := List.pairwise_cons.mp unique
    rw [List.map_cons, List.sum_cons, ih unique, ← counted_or]
    · simp
    · rintro ⟨holds, y, member, also⟩
      exact apart y member ⟨holds, also⟩

theorem sum_matched (xs : List α) (ys : List β) {R : α → β → Prop} {f : α → ℝ} {g : β → ℝ}
    (left : ∀ x, ys.Pairwise fun y y' => ¬ (R x y ∧ R x y'))
    (right : ∀ y, xs.Pairwise fun x x' => ¬ (R x y ∧ R x' y))
    (agree : ∀ x ∈ xs, ∀ y ∈ ys, R x y → f x = g y) :
    (xs.map fun x => counted (∃ y ∈ ys, R x y) (f x)).sum =
      (ys.map fun y => counted (∃ x ∈ xs, R x y) (g y)).sum := by
  -- A match is unique from either side, so both sums are the sum over all pairs that match.
  simp only [← sum_unique (left _), ← sum_unique (right _)]
  rw [sum_swap]
  congr 1
  refine List.map_congr_left fun y member' => congrArg List.sum (List.map_congr_left fun x member => ?_)
  by_cases related : R x y
  · rw [agree x member y member' related]
  · rw [counted_neg related, counted_neg related]

theorem sum_split (xs : List α) (P : α → Prop) (f : α → ℝ) :
    (xs.map f).sum =
      (xs.map fun x => counted (P x) (f x)).sum + (xs.map fun x => counted (¬ P x) (f x)).sum := by
  rw [← List.sum_map_add]
  congr 1
  refine List.map_congr_left fun x _ => ?_
  by_cases holds : P x
  · rw [counted_pos holds, counted_neg (not_not_intro holds), add_zero]
  · rw [counted_neg holds, counted_pos holds, zero_add]

theorem sum_filter (xs : List α) (p : α → Bool) (f : α → ℝ) :
    ((xs.filter p).map f).sum = (xs.map fun x => counted (p x = true) (f x)).sum := by
  induction xs with
  | nil => rfl
  | cons x xs ih => by_cases keep : p x = true <;> simp [keep, ih, counted]

end Sums

theorem Exact.min_zero (x : ℝ) :
    (if Exact.finite x < 0 then Exact.finite x else 0) = .finite (min 0 x) := by
  rw [zero_eq]
  by_cases negative : x < 0
  · rw [if_pos ((finite_lt x 0).mpr negative), min_eq_right negative.le]
  · rw [if_neg (mt (finite_lt x 0).mp negative), min_eq_left (not_lt.mp negative)]

theorem Choice.Shares.chance_eq {c d : Choice Exact} (shares : c.Shares d) (sound : c.Sound)
    (sound' : d.Sound) (agree : c.value = d.value) : c.chance = d.chance := by
  obtain ⟨-, k, k', key, key', same⟩ := shares
  obtain ⟨w, listed⟩ := sound.listed
  obtain ⟨w', listed'⟩ := sound'.listed
  rw [chance, chance, ← agree]
  rw [← agree] at listed'
  exact Leaf.chance_eq sound.tabular sound'.tabular key key' same listed listed'

/-- The score that a choice was recorded with. -/
def Choice.score (c : Choice Exact) : ℝ :=
  c.logScore.toExact.toReal

theorem Choice.score_eq {c : Choice Exact} {x : ℝ} (scored : c.logScore.toScalar = .ok (.finite x)) :
    c.score = x := by
  rw [Number.toScalar_exact, Except.ok.injEq] at scored
  rw [score, scored, Exact.toReal_finite]

namespace Trace

/-- Choices of positive density, each at an address of its own. -/
structure Proper (t : Trace Exact) : Prop where
  sound : ∀ c ∈ t.choices, c.Sound
  addresses : (t.choices.map (·.address)).Nodup
  positive : ∀ c ∈ t.choices, 0 < c.chance

/-- Choices that can be looked up, each at an address of its own, with finite scores. -/
structure Valued (t : Trace Exact) : Prop where
  known : ∀ c ∈ t.choices, ∃ k, checkedLeafKey c.leaf = .ok k
  addresses : (t.choices.map (·.address)).Nodup
  scored : ∀ c ∈ t.choices, c.logScore.toScalar = .ok (.finite c.score)

/-- Choices that can be looked up, each at an address of its own, with the logarithms of their densities. -/
structure Weighed (t : Trace Exact) : Prop where
  known : ∀ c ∈ t.choices, ∃ k, checkedLeafKey c.leaf = .ok k
  addresses : (t.choices.map (·.address)).Nodup
  scored : ∀ c ∈ t.choices, c.logScore.toScalar = .ok (.finite (Real.log c.chance))

theorem find?_known {t : Trace Exact} (each : ∀ c ∈ t.choices, ∃ k, checkedLeafKey c.leaf = .ok k)
    {d : Choice Exact} {key : LeafKey Exact} (checked : checkedLeafKey d.leaf = .ok key) :
    (∃ c ∈ t.choices, c.Shares d ∧ t.find? d.address d.leaf = .ok (some c)) ∨
      (∀ c ∈ t.choices, ¬ c.Shares d) ∧ t.find? d.address d.leaf = .ok none := by
  have known := (checkedLeafKey_ok.mp checked).1
  obtain ⟨index, indexed⟩ : ∃ index, t.index = .ok index := by
    refine Outcome.mapM_total fun c member => ?_
    obtain ⟨k, checked⟩ := each c member
    exact ⟨(k, c), by rw [checked, Outcome.ok_bind]; rfl⟩
  have entries : ∀ e ∈ index, e.2 ∈ t.choices ∧ e.2.leaf.key = .ok e.1 := by
    intro e member
    obtain ⟨c, source, made⟩ := Outcome.exists_of_mem_mapM indexed member
    obtain ⟨k, checked, made⟩ := Outcome.bind_ok.mp made
    cases made
    exact ⟨source, (checkedLeafKey_ok.mp checked).1⟩
  have looked : t.find? d.address d.leaf = .ok ((index.find? fun (k, c) =>
      c.address == d.address && k.same key).map (·.2)) := by
    rw [find?, indexed, Outcome.ok_bind, checked, Outcome.ok_bind]
    rfl
  -- All keys can be made, so the search depends on the addresses and keys alone.
  rw [looked]
  cases found : index.find? fun (k, c) => c.address == d.address && k.same key with
  | some e =>
    left
    have ⟨member, keyed⟩ := entries e (List.mem_of_find?_eq_some found)
    have matched := List.find?_some found
    rw [Bool.and_eq_true, beq_iff_eq] at matched
    exact ⟨e.2, member, ⟨matched.1, e.1, key, keyed, known, matched.2⟩, rfl⟩
  | none =>
    right
    refine ⟨fun c member ⟨address, k, k', keyed, known', same⟩ => ?_, rfl⟩
    obtain ⟨e, listed, made⟩ := Outcome.mem_of_mapM indexed member
    obtain ⟨_, checked', made⟩ := Outcome.bind_ok.mp made
    cases made
    have keys := (checkedLeafKey_ok.mp checked').1
    rw [keyed, Except.ok.injEq] at keys
    rw [known, Except.ok.injEq] at known'
    subst keys known'
    have absent := List.find?_eq_none.mp found _ listed
    simp [address, same] at absent

theorem find?_shares {t : Trace Exact} (sound : ∀ c ∈ t.choices, c.Sound) {d : Choice Exact}
    (tabular : d.leaf.distribution.Tabular) :
    (∃ c ∈ t.choices, c.Shares d ∧ t.find? d.address d.leaf = .ok (some c)) ∨
      (∀ c ∈ t.choices, ¬ c.Shares d) ∧ t.find? d.address d.leaf = .ok none := by
  obtain ⟨key, checked⟩ := Leaf.hashable tabular
  exact find?_known (fun c member => Leaf.hashable (sound c member).tabular) checked

namespace Proper

variable {t : Trace Exact}

theorem apart (proper : t.Proper) : t.choices.Pairwise fun c d => c.address ≠ d.address :=
  List.pairwise_map.mp proper.addresses

theorem eq_of_address (proper : t.Proper) {c d : Choice Exact} (member : c ∈ t.choices)
    (member' : d ∈ t.choices) (same : c.address = d.address) : c = d :=
  List.inj_on_of_nodup_map proper.addresses member member' same

theorem eq_of_shares (proper : t.Proper) {c c' d : Choice Exact} (member : c ∈ t.choices)
    (member' : c' ∈ t.choices) (shares : c.Shares d) (shares' : c'.Shares d) : c = c' :=
  proper.eq_of_address member member' (shares.1.trans shares'.1.symm)

theorem sum_at (proper : t.Proper) {c : Choice Exact} (member : c ∈ t.choices) :
    (t.choices.map fun d => counted (d = c) (Real.log d.chance)).sum = Real.log c.chance := by
  rw [sum_of_distinct proper.addresses member, counted_pos rfl]
  intro d _ differs
  exact counted_neg (fun same => differs (congrArg _ same)) _

theorem logScore (proper : t.Proper) {c : Choice Exact} (member : c ∈ t.choices) :
    c.logScore = .real (.finite (Real.log c.chance)) := by
  have scored := (proper.sound c member).scored
  have density := Leaf.logDensity_of_chance (proper.sound c member).tabular (proper.positive c member)
  rw [scored, Except.ok.injEq] at density
  exact density

theorem weighed (proper : t.Proper) : t.Weighed where
  known c member := Leaf.hashable (proper.sound c member).tabular
  addresses := proper.addresses
  scored c member := by rw [proper.logScore member, Number.toScalar_exact, Number.toExact_real]

end Proper

section Valued

variable {new old : Trace Exact}

theorem Valued.apart (valued : new.Valued) : new.choices.Pairwise fun c d => c.address ≠ d.address :=
  List.pairwise_map.mp valued.addresses

theorem Valued.eq_of_shares (valued : new.Valued) {c c' d : Choice Exact} (member : c ∈ new.choices)
    (member' : c' ∈ new.choices) (shares : c.Shares d) (shares' : c'.Shares d) : c = c' :=
  List.inj_on_of_nodup_map valued.addresses member member' (shares.1.trans shares'.1.symm)

theorem Valued.score (valued : new.Valued) :
    new.score = .ok (.finite (new.choices.map Choice.score).sum) :=
  exactSumBy_finite valued.scored

theorem redrawn_exact (valued : new.Valued) {olds : List (Choice Exact)}
    (known : ∀ c ∈ olds, ∃ k, checkedLeafKey c.leaf = .ok k)
    (scored : ∀ c ∈ olds, c.logScore.toScalar = .ok (.finite c.score)) (start : ℝ) :
    redrawn new (.finite start) olds = .ok (.finite (start + (olds.map fun c =>
      counted (∃ n ∈ new.choices, n.Shares c ∧ n.reused = false) c.score).sum)) := by
  induction olds generalizing start with
  | nil => simp [redrawn]
  | cons c rest ih =>
    have ⟨⟨key, checked⟩, known⟩ := List.forall_mem_cons.mp known
    have ⟨score, scored⟩ := List.forall_mem_cons.mp scored
    rw [redrawn, (checkedLeafKey_ok.mp checked).1, Outcome.ok_bind, List.map_cons, List.sum_cons]
    rcases find?_known valued.known checked with ⟨n, member, shares, found⟩ | ⟨nothing, found⟩
    · -- At most one choice of the new trace answers to an address and a key.
      have unique : (∃ n ∈ new.choices, n.Shares c ∧ n.reused = false) ↔ n.reused = false := by
        constructor
        · rintro ⟨n', member', shares', fresh⟩
          rw [valued.eq_of_shares member member' shares shares']
          exact fresh
        · exact fun fresh => ⟨n, member, shares, fresh⟩
      rw [found, Outcome.ok_bind]
      cases flag : n.reused with
      | true =>
        rw [counted_neg (by simp [unique, flag]), zero_add]
        simp only [flag, if_true]
        exact ih known scored start
      | false =>
        rw [counted_pos (unique.mpr flag), ← add_assoc]
        simp only [flag, Bool.false_eq_true, if_false, score, Outcome.ok_bind]
        exact ih known scored _
    · have none : ¬ ∃ n ∈ new.choices, n.Shares c ∧ n.reused = false :=
        fun ⟨n, member, shares, _⟩ => nothing n member shares
      rw [found, Outcome.ok_bind, counted_neg none, zero_add]
      exact ih known scored start

theorem size_pos {t : Trace Exact} (nonempty : t.choices ≠ []) : (0 : ℝ) < t.size := by
  exact_mod_cast List.length_pos_iff.mpr nonempty

theorem drawn_exact (valued : new.Valued) :
    exactSumBy (·.logScore.toScalar) (new.choices.filter (!·.reused)) = .ok (.finite
      (new.choices.map fun c => counted (¬ c.reused = true) c.score).sum) := by
  rw [exactSumBy_finite fun c member => valued.scored c (List.mem_filter.mp member).1]
  simp [sum_filter]

theorem sum_kept (valued : new.Valued) (valued' : old.Valued) (kept : ∀ n ∈ new.choices,
      n.reused = true → ∃ c ∈ old.choices, n.Shares c ∧ n.score = c.score) :
    (old.choices.map fun c => counted (∃ n ∈ new.choices, n.Shares c) c.score).sum =
      (new.choices.map fun n => counted (n.reused = true) n.score).sum +
        (old.choices.map fun c =>
          counted (∃ n ∈ new.choices, n.Shares c ∧ n.reused = false) c.score).sum := by
  -- A kept choice has the score of the old one, so what was kept is in the old score as well.
  have reused := sum_matched old.choices new.choices
    (R := fun c n => n.Shares c ∧ n.reused = true) (f := Choice.score) (g := Choice.score)
    (fun c => valued.apart.imp fun differ ⟨first, second⟩ => differ (first.1.1.trans second.1.1.symm))
    (fun n => valued'.apart.imp fun differ ⟨first, second⟩ => differ (first.1.1.symm.trans second.1.1))
    (by
      intro c member n member' ⟨shares, flag⟩
      obtain ⟨d, listed, shares', agree⟩ := kept n member' flag
      obtain rfl := valued'.eq_of_shares member listed shares.symm shares'.symm
      rw [agree])
  have flags : (new.choices.map fun n =>
      counted (∃ c ∈ old.choices, n.Shares c ∧ n.reused = true) n.score) =
      new.choices.map fun n => counted (n.reused = true) n.score := by
    refine List.map_congr_left fun n member => congrArg (counted · _) (propext ⟨?_, fun flag => ?_⟩)
    · exact fun ⟨_, _, _, flag⟩ => flag
    · obtain ⟨c, member', shares, -⟩ := kept n member flag
      exact ⟨c, member', shares, flag⟩
  rw [← flags, ← reused, ← List.sum_map_add]
  congr 1
  refine List.map_congr_left fun c member => counted_or ?_ ?_ _
  · constructor
    · rintro ⟨n, member', shares⟩
      cases flag : n.reused with
      | true => exact .inl ⟨n, member', shares, flag⟩
      | false => exact .inr ⟨n, member', shares, flag⟩
    · rintro (⟨n, member', shares, -⟩ | ⟨n, member', shares, -⟩) <;> exact ⟨n, member', shares⟩
  · rintro ⟨⟨n, listed, shares, flag⟩, n', listed', shares', flag'⟩
    obtain rfl := valued.eq_of_shares listed listed' shares shares'
    rw [flag] at flag'
    cases flag'

end Valued

/-- The scores of the choices that another trace has no match for. -/
noncomputable def unmatched (s t : Trace Exact) : ℝ :=
  (s.choices.map fun c => counted (¬ ∃ d ∈ t.choices, d.Shares c) c.score).sum

/-- The old choices without a match are paid for once, though a way back draws them too. -/
theorem Valued.acceptance {new old : Trace Exact} (valued : new.Valued) (valued' : old.Valued)
    (nonempty : new.choices ≠ []) (nonempty' : old.choices ≠ [])
    (kept : ∀ n ∈ new.choices, n.reused = true →
      ∃ c ∈ old.choices, n.Shares c ∧ n.score = c.score) :
    ChanceGraph.acceptance new old =
      .ok (.finite (min 0 (Real.log old.size - Real.log new.size - old.unmatched new))) := by
  have filled : (new.isEmpty || old.isEmpty) = false := by
    simp [isEmpty, nonempty, nonempty']
  -- The scores are split by the flags of the new choices and by which old choices have a match.
  have back := redrawn_exact valued valued'.known valued'.scored (-Real.log new.size)
  have matched := sum_kept valued valued' kept
  have news := sum_split new.choices (fun n => n.reused = true) Choice.score
  have olds := sum_split old.choices (fun c => ∃ n ∈ new.choices, n.Shares c) Choice.score
  unfold ChanceGraph.acceptance
  simp only [filled, valued.score, valued'.score, drawn_exact valued, Outcome.ok_bind, Exact.ofNat_eq,
    Exact.finite_log (size_pos nonempty), Exact.finite_log (size_pos nonempty'), Exact.finite_neg,
    back, Bool.false_eq_true, if_false, Exact.finite_sub, Exact.finite_add, Exact.min_zero]
  refine congrArg (fun x => Except.ok (Exact.finite (min 0 x))) ?_
  rw [unmatched]
  linarith

/-- The logarithm of the density of the choices that another trace has no match for. -/
noncomputable def surplus (s t : Trace Exact) : ℝ :=
  (s.choices.map fun c => counted (¬ ∃ d ∈ t.choices, d.Shares c) (Real.log c.chance)).sum

theorem Weighed.score_eq {t : Trace Exact} (weighed : t.Weighed) {c : Choice Exact}
    (member : c ∈ t.choices) : c.score = Real.log c.chance :=
  Choice.score_eq (weighed.scored c member)

theorem Weighed.valued {t : Trace Exact} (weighed : t.Weighed) : t.Valued where
  known := weighed.known
  addresses := weighed.addresses
  scored c member := by rw [weighed.score_eq member, weighed.scored c member]

theorem Weighed.acceptance {new old : Trace Exact} (weighed : new.Weighed) (weighed' : old.Weighed)
    (nonempty : new.choices ≠ []) (nonempty' : old.choices ≠ [])
    (kept : ∀ n ∈ new.choices, n.reused = true →
      ∃ c ∈ old.choices, n.Shares c ∧ n.chance = c.chance) :
    ChanceGraph.acceptance new old =
      .ok (.finite (min 0 (Real.log old.size - Real.log new.size - old.surplus new))) := by
  have same : old.unmatched new = old.surplus new :=
    congrArg List.sum (List.map_congr_left fun c member => by rw [weighed'.score_eq member])
  rw [← same]
  refine weighed.valued.acceptance weighed'.valued nonempty nonempty' fun n member flag => ?_
  obtain ⟨c, listed, shares, agree⟩ := kept n member flag
  exact ⟨c, listed, shares, by rw [weighed.score_eq member, weighed'.score_eq listed, agree]⟩

theorem acceptance_exact {new old : Trace Exact} (proper : new.Proper) (proper' : old.Proper)
    (nonempty : new.choices ≠ []) (nonempty' : old.choices ≠ [])
    (kept : ∀ n ∈ new.choices, n.reused = true → ∃ c ∈ old.choices, n.Shares c ∧ n.value = c.value) :
    acceptance new old =
      .ok (.finite (min 0 (Real.log old.size - Real.log new.size - old.surplus new))) := by
  refine proper.weighed.acceptance proper'.weighed nonempty nonempty' fun n member flag => ?_
  obtain ⟨c, listed, shares, agree⟩ := kept n member flag
  exact ⟨c, listed, shares, shares.chance_eq (proper.sound n member) (proper'.sound c listed) agree⟩

end Trace

end ChanceGraph
