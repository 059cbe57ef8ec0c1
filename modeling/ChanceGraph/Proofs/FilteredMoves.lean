import ChanceGraph.Proofs.Addresses
import ChanceGraph.Proofs.Balance
import ChanceGraph.Proofs.ForwardLaw
import ChanceGraph.Proofs.Interchange

/-!
The moves of a chain whose program is a filter: all is drawn anew, whatever the trace was before, and yet a
move is charged for the sizes of both traces and for what the new one lacks.
-/

set_option autoImplicit false

namespace ChanceGraph

/-- A leaf of the classes that has a table. -/
structure Leaf.Finite (l : Leaf Exact) : Prop where
  made : l.distribution.Made
  listed : ∃ table, l.distribution.support = .ok table

theorem Node.Leaves.within {S : Type} {P : Leaf S → Prop} {n : Node S} (leaves : n.Leaves P) {l : Leaf S}
    (within : l.Within n) : P l := by
  induction within with
  | leaf => exact leaves
  | weightedMap _ ih => exact ih leaves
  | source _ ih => exact ih leaves.1
  | dependent v stamp _ ih => exact ih (leaves.2 v stamp)
  | filter _ ih => exact ih leaves

theorem Value.isKey_of_number {v : Value Exact} {n : Number Exact} (number : v.number? = some n) :
    v.isKey = true := by
  cases v <;> cases number <;> rfl

theorem logOfDensity_finite {d : Number Exact} {x : ℝ} (finite : logOfDensity d = .finite x) :
    0 < d.toExact.toReal ∧ x = Real.log d.toExact.toReal := by
  unfold logOfDensity at finite
  split_ifs at finite with least
  · cases finite
  · cases value : d.toExact with
    | finite y =>
      have above : 0 < y := by
        rw [Number.le_exact, Number.toExact_int, value, Exact.finite_le, not_le] at least
        simpa using least
      rw [Number.log_exact value above, Exact.finite.injEq] at finite
      exact ⟨above, finite.symm⟩
    | infinite positive =>
      cases d <;> cases value
      cases positive <;> cases finite
    | undefined =>
      cases d <;> cases value
      cases finite

theorem Table.Built.density_le_one {t : Table Exact} (built : t.Built) {v : Value Exact} {x : Exact}
    (known : t.density v = .ok x) (positive : 0 < x.toReal) : x.toReal ≤ 1 := by
  obtain ⟨items, built⟩ := built
  rw [Table.density_eq] at known
  obtain ⟨key, -, weight⟩ := Outcome.bind_ok.mp known
  obtain rfl := Outcome.pure_ok.mp weight
  cases found : Group.find? key t.groups with
  | none => simp [Exact.zero_eq]
  | some g =>
    simp only [found, Option.map_some, Option.getD_some] at positive ⊢
    exact (Table.groups_of_build built).2.2 g (List.mem_of_find?_eq_some found) positive

namespace Leaf.Finite

variable {l : Leaf Exact} {v : Value Exact}

theorem known (finite : l.Finite) (random : ∀ v, l.distribution ≠ .constant v) :
    ∃ k, checkedLeafKey l = .ok k := by
  obtain ⟨made, table, supported⟩ := finite
  obtain ⟨id, d⟩ := l
  -- The keys of a table are hashable, for they were checked as it was built.
  have grouped {t : Table Exact} (built : t.Built) :
      (Value.tuple (t.groups.map fun g => .tuple [g.key, .real g.weight])).isKey = true := by
    obtain ⟨items, built⟩ := built
    simp only [Value.isKey, allKeys_iff, List.mem_map]
    rintro _ ⟨g, member, rfl⟩
    simp [Value.isKey, allKeys, Table.keys_of_build built g member]
  cases made.shape with
  | constant v => exact absurd rfl (random v)
  | flip number =>
    refine ⟨_, checkedLeafKey_ok.mpr ⟨rfl, ?_⟩⟩
    simp [LeafKey.isKey, Value.isKey, allKeys, Value.isKey_of_number number]
  | enumeration built => exact ⟨_, checkedLeafKey_ok.mpr ⟨rfl, grouped built⟩⟩
  | multinomial built => exact ⟨_, checkedLeafKey_ok.mpr ⟨rfl, grouped built⟩⟩
  | truncatedGeometric number first second =>
    refine ⟨_, checkedLeafKey_ok.mpr ⟨rfl, ?_⟩⟩
    have shortest := Value.isKey_of_number (Value.number_of_integer first)
    have longest := Value.isKey_of_number (Value.number_of_integer second)
    simp [LeafKey.isKey, Value.isKey, allKeys, Value.isKey_of_number number, shortest, longest]
  | gaussian | exponential | uniform | geometric | multivariate => cases supported

theorem density_le_one (finite : l.Finite) {d : Number Exact} (known : l.distribution.density v = .ok d)
    (positive : 0 < d.toExact.toReal) : d.toExact.toReal ≤ 1 := by
  obtain ⟨made, table, supported⟩ := finite
  obtain ⟨id, e⟩ := l
  have tabled {t : Table Exact} (built : t.Built)
      (known : (do return .real (← t.density v)) = (.ok d : Outcome Exact (Number Exact))) :
      d.toExact.toReal ≤ 1 := by
    obtain ⟨x, looked, made⟩ := Outcome.bind_ok.mp known
    obtain rfl := Outcome.pure_ok.mp made
    exact built.density_le_one looked positive
  cases made.shape with
  | constant v =>
    cases known
    simp [Exact.one_eq]
  | @flip given p x _ value nonnegative atMost =>
    obtain ⟨b, -, known⟩ := Outcome.bind_ok.mp known
    cases b with
    | true =>
      cases known
      rw [value]
      exact atMost
    | false =>
      have rest : Number.sub .one p = .ok (.real (1 - p.toExact)) := Distribution.sub_one_eq p
      cases rest.symm.trans known
      simp [value, Exact.one_eq, nonnegative]
  | enumeration built => exact tabled built known
  | multinomial built => exact tabled built known
  | truncatedGeometric _ _ _ _ built => exact tabled built known
  | gaussian | exponential | uniform | geometric | multivariate => cases supported

theorem chance_of_scored (finite : l.Finite) (random : ∀ v, l.distribution ≠ .constant v)
    {n : Number Exact} {x : ℝ} (scored : l.distribution.logDensity v = .ok n)
    (value : n.toExact = .finite x) :
    0 < l.chance v ∧ l.chance v ≤ 1 ∧ x = Real.log (l.chance v) := by
  obtain ⟨d, known, log⟩ : ∃ d, l.distribution.density v = .ok d ∧ logOfDensity d = .finite x := by
    -- All classes with a table score a value by the logarithm of its density.
    have logs (scored : (do return .real (logOfDensity (← l.distribution.density v))) =
        (.ok n : Outcome Exact (Number Exact))) :
        ∃ d, l.distribution.density v = .ok d ∧ logOfDensity d = .finite x := by
      obtain ⟨d, known, made⟩ := Outcome.bind_ok.mp scored
      cases made
      exact ⟨d, known, value⟩
    obtain ⟨made, table, supported⟩ := finite
    obtain ⟨id, e⟩ := l
    cases made.shape with
    | constant v => exact absurd rfl (random v)
    | flip | enumeration | multinomial | truncatedGeometric => exact logs scored
    | gaussian | exponential | uniform | geometric | multivariate => cases supported
  obtain ⟨positive, same⟩ := logOfDensity_finite log
  have chance : l.chance v = d.toExact.toReal := by
    rw [chance, known, Outcome.worth]
  rw [chance]
  exact ⟨positive, finite.density_le_one known positive, same⟩

end Leaf.Finite

/-- A choice that was drawn, and not kept. -/
structure Choice.Drawn {S : Type} [Scalar S] (n : Node S) (c : Choice S) : Prop where
  within : c.leaf.Within n
  random : ∀ v, c.leaf.distribution ≠ .constant v
  scored : c.leaf.distribution.logDensity c.value = .ok c.logScore
  fresh : c.reused = false

section Fresh

variable {S σ : Type} [Scalar S] {source : Source (StateM σ) S} {patience : Nat} {p : Proposal S}
  {here there : Progress S} {cache cache' : Cache S} {a : Sample S}

theorem visitLeaf_draws {l : Leaf S} {n : Node S} (within : l.Within n)
    (run : Yields (visitLeaf source p true l here) cache (a, there) cache') :
    here.Gains (·.Drawn n) there := by
  rw [visitLeaf] at run
  split at run
  · obtain ⟨same, -⟩ := yields_pure run
    cases same
    exact .same rfl
  · next indirect =>
    replace run := yields_get run
    simp only [Bool.true_or, if_true] at run
    obtain ⟨v, _, -, recorded⟩ := yields_bind run
    obtain ⟨score, scored, rfl, rfl, -⟩ := recordFresh_yields recorded
    exact .record ⟨within, indirect, scored, rfl⟩

theorem visit_draws {n : Node S}
    (run : Yields (visit source patience p n true here) cache (a, there) cache') :
    here.Gains (·.Drawn n) there := by
  refine visit_gains (fun within anew leaf => ?_) run
  rw [anew rfl] at leaf
  exact visitLeaf_draws within leaf

theorem visit_anew (q : Proposal S) (n : Node S) (here : Progress S) :
    visit source patience p n true here = visit source patience q n true here := by
  induction n generalizing here with
  | leaf l =>
    simp only [visit, visitLeaf]
    split
    · rfl
    · -- Under a filter the old trace is not asked.
      simp only [visitChoice, Bool.true_or, if_true]
  | weightedMap n project ih => simp only [visit, ih]
  | weightedBind n dependent combine ih ihDependent => simp only [visit, ih, ihDependent]
  | filter n predicate ih => simp only [visit, ih]
  | unknown | broken => rfl

theorem propose_draws {n : Node S} {predicate : Predicate S} {current : Option (ChainState S)}
    {s : ChainState S}
    (run : Yields (propose source patience (.filter n predicate) current) cache s cache') :
    ∀ c ∈ s.trace.choices, c.Drawn n := by
  obtain ⟨_, _, there, _, -, visited, rfl⟩ := propose_yields run
  obtain ⟨_, _, attempted, -⟩ := retry_accepted visited
  obtain ⟨choices, added, drawn⟩ := visit_draws attempted
  have trace : there.trace.choices = choices := added
  rw [trace]
  exact drawn

end Fresh

namespace Trace

/-- Choices drawn anew, none of them impossible. -/
structure Anew (t : Trace Exact) : Prop where
  weighed : t.Weighed
  fresh : ∀ c ∈ t.choices, c.reused = false
  nonpos : ∀ c ∈ t.choices, Real.log c.chance ≤ 0

/-- The new trace is larger by no more than what the density of the choices that it lacks makes up for. -/
def GivesWay (old new : Trace Exact) : Prop :=
  new.size * Real.exp (old.surplus new) ≤ old.size

variable {old new : Trace Exact}

theorem Anew.acceptance (anew : new.Anew) (anew' : old.Anew) (nonempty : new.choices ≠ [])
    (nonempty' : old.choices ≠ []) : ChanceGraph.acceptance new old =
      .ok (.finite (min 0 (Real.log old.size - Real.log new.size - old.surplus new))) :=
  anew.weighed.acceptance anew'.weighed nonempty nonempty' fun n member kept => by
    rw [anew.fresh n member] at kept
    cases kept

theorem acceptance_empty (empty : new.choices = [] ∨ old.choices = []) :
    ChanceGraph.acceptance new old = .ok 0 := by
  have nothing : (new.isEmpty || old.isEmpty) = true := by
    rcases empty with empty | empty <;> simp [isEmpty, empty]
  rw [ChanceGraph.acceptance, nothing]
  rfl

theorem givesWay_iff (nonempty : new.choices ≠ []) (nonempty' : old.choices ≠ []) :
    old.GivesWay new ↔ 0 ≤ Real.log old.size - Real.log new.size - old.surplus new := by
  have above := size_pos nonempty
  rw [GivesWay, ← Real.log_le_log_iff (mul_pos above (Real.exp_pos _)) (size_pos nonempty'),
    Real.log_mul above.ne' (Real.exp_pos _).ne', Real.log_exp]
  constructor <;> intro less <;> linarith

theorem givesWay_of_size (anew : old.Anew) (sizes : new.size ≤ old.size) : old.GivesWay new := by
  have density : Real.exp (old.surplus new) ≤ 1 := Real.exp_le_one_iff.mpr (surplus_nonpos anew.nonpos new)
  calc (new.size : ℝ) * Real.exp (old.surplus new)
    _ ≤ new.size := mul_le_of_le_one_right (Nat.cast_nonneg _) density
    _ ≤ old.size := by exact_mod_cast sizes

end Trace

theorem min_zero_eq_iff {x y : ℝ} (sum : 0 ≤ x + y) : min 0 x = min 0 y ↔ 0 ≤ x ∧ 0 ≤ y := by
  constructor
  · intro same
    -- Of two numbers with such a sum only one can be negative.
    by_contra negative
    rw [not_and_or, not_le, not_le] at negative
    rcases negative with less | less
    · rw [min_eq_right less.le, min_eq_left (by linarith)] at same
      exact less.ne same
    · rw [min_eq_right less.le, min_eq_left (by linarith)] at same
      exact less.ne same.symm
  · rintro ⟨left, right⟩
    rw [min_eq_left left, min_eq_left right]

section Filtered

variable {σ : Type} {source : Source (StateM σ) Exact} {patience : Nat} {n : Node Exact}
  {predicate : Predicate Exact} {current current' : Option (ChainState Exact)}
  {cache cache₁ cache' cache₁' : Cache Exact} {s t : ChainState Exact}

theorem propose_anew (finite : n.Leaves Leaf.Finite)
    (run : Yields (propose source patience (.filter n predicate) current) cache s cache₁)
    (possible : ∃ x, s.trace.score = .ok (.finite x)) : s.trace.Anew := by
  have drawn := propose_draws run
  obtain ⟨_, score⟩ := possible
  obtain ⟨r, each, -⟩ := finite_of_exactSumBy score
  have chance (c : Choice Exact) (member : c ∈ s.trace.choices) :
      0 < c.chance ∧ c.chance ≤ 1 ∧ r c = Real.log c.chance := by
    have made := each c member
    rw [Number.toScalar_exact, Except.ok.injEq] at made
    exact (finite.within (drawn c member).within).chance_of_scored (drawn c member).random
      (drawn c member).scored made
  have fresh (c : Choice Exact) (member : c ∈ s.trace.choices) : c.reused = false := (drawn c member).fresh
  refine ⟨⟨fun c member => ?_, ?_, fun c member => ?_⟩, fresh, fun c member => ?_⟩
  · exact (finite.within (drawn c member).within).known (drawn c member).random
  · exact List.pairwise_map.mpr ((propose_adds run).imp Choice.Before.address_ne)
  · rw [← (chance c member).2.2]
    exact each c member
  · exact Real.log_nonpos (chance c member).1.le (chance c member).2.1

/-- A program that is a filter draws all anew, whatever the proposal; and a move between two of its traces has
the acceptance of the way back just if either is accepted for sure. -/
theorem filtered_acceptance_iff (finite : n.Leaves Leaf.Finite)
    (run : Yields (propose source patience (.filter n predicate) current) cache s cache₁)
    (run' : Yields (propose source patience (.filter n predicate) current') cache' t cache₁')
    (possible : ∃ x, s.trace.score = .ok (.finite x)) (possible' : ∃ x, t.trace.score = .ok (.finite x)) :
    (∀ p q fresh here, visit source patience p (.filter n predicate) fresh here =
      visit source patience q (.filter n predicate) fresh here) ∧
    (∀ c ∈ s.trace.choices, c.reused = false) ∧
    ∃ a b, acceptance t.trace s.trace = .ok (.finite a) ∧ acceptance s.trace t.trace = .ok (.finite b) ∧
      (a = b ↔ s.trace.choices = [] ∨ t.trace.choices = [] ∨
        s.trace.GivesWay t.trace ∧ t.trace.GivesWay s.trace) := by
  have left := propose_anew finite run possible
  have right := propose_anew finite run' possible'
  refine ⟨fun p q fresh here => by simp only [visit, visit_anew q], left.fresh, ?_⟩
  by_cases empty : s.trace.choices = [] ∨ t.trace.choices = []
  · -- A trace without choices is left for any other, and any other for it.
    exact ⟨0, 0, Trace.acceptance_empty empty.symm, Trace.acceptance_empty empty,
      iff_of_true rfl (empty.imp_right .inl)⟩
  · obtain ⟨nonempty, nonempty'⟩ := not_or.mp empty
    refine ⟨_, _, right.acceptance left nonempty' nonempty, left.acceptance right nonempty nonempty', ?_⟩
    rw [or_iff_right nonempty, or_iff_right nonempty', Trace.givesWay_iff nonempty' nonempty,
      Trace.givesWay_iff nonempty nonempty']
    refine min_zero_eq_iff ?_
    -- The sizes cancel in the sum, and no surplus is positive.
    linarith [Trace.surplus_nonpos left.nonpos t.trace, Trace.surplus_nonpos right.nonpos s.trace]

end Filtered

/-- A second flip only after truth. -/
noncomputable def flipAgain : Value Exact → Node Exact
  | .bool true => .leaf (fairFlip 1)
  | _ => .constant ⟨0, 2⟩ (.bool false)

noncomputable def secondChance : Node Exact :=
  .filter ((Node.leaf (fairFlip 0)).bind (fun v _ => flipAgain v) Node.second) fun _ => .ok true

noncomputable def flipped (binds : Int) (index : Nat) (b : Bool) : Choice Exact where
  address := { binds, filters := 1 }
  leaf := fairFlip index
  value := .bool b
  logScore := fairScore
  reused := false

noncomputable def twoFlips (b : Bool) : Trace Exact :=
  ⟨[flipped 1 0 true, flipped 2 1 b]⟩

noncomputable def oneFlip : Trace Exact :=
  ⟨[flipped 1 0 false]⟩

theorem secondChance_finite :
    ((Node.leaf (fairFlip 0)).bind (fun v _ => flipAgain v) Node.second).Leaves Leaf.Finite := by
  have flips (index : Nat) : (fairFlip index : Leaf Exact).Finite :=
    ⟨.flip (coin_made ⟨0, index⟩), _, rfl⟩
  refine ⟨flips 0, fun v k => ?_⟩
  dsimp only [flipAgain]
  split
  · exact flips 1
  · exact ⟨.constant _, _, rfl⟩

theorem twoFlips_proposed (b : Bool) : ∃ s cache',
    Yields (propose tosses 1 secondChance none) {} s cache' ∧ s.trace = twoFlips b := by
  have apart : (fairFlip 0 : Leaf Exact).id ≠ (fairFlip 1 : Leaf Exact).id := by simp [fairFlip]
  have first := Cache.get?_advance (S := Exact) Cache.past_new
  refine ⟨_, _, ⟨[true, b], [], runs_propose_first (runs_retry_accept (runs_visit_weightedBind
    (runs_visit_fairFlip (Traversal.runs_sample_absent (first _) rfl)) rfl
    (runs_visit_fairFlip (Traversal.runs_sample_absent ?_ rfl)) rfl rfl) rfl)⟩, rfl⟩
  rw [Cache.get?_put_of_ne apart]
  exact first _

theorem oneFlip_proposed : ∃ s cache',
    Yields (propose tosses 1 secondChance none) {} s cache' ∧ s.trace = oneFlip := by
  have first := Cache.get?_advance (S := Exact) Cache.past_new
  exact ⟨_, _, ⟨[false], [], runs_propose_first (runs_retry_accept (runs_visit_weightedBind
    (runs_visit_fairFlip (Traversal.runs_sample_absent (first _) rfl)) rfl Runs.of_pure rfl rfl) rfl)⟩, rfl⟩

theorem possible_of_fair {t : Trace Exact} (fair : ∀ c ∈ t.choices, c.logScore = fairScore) :
    ∃ x, t.score = .ok (.finite x) := by
  refine ⟨_, exactSumBy_finite (r := fun _ => Real.log (1 / 2)) fun c member => ?_⟩
  rw [fair c member, fairScore_eq, Number.toScalar_exact, Number.toExact_real]

theorem twoFlips_possible (b : Bool) : ∃ x, (twoFlips b).score = .ok (.finite x) :=
  possible_of_fair (by simp [twoFlips, flipped])

theorem oneFlip_possible : ∃ x, oneFlip.score = .ok (.finite x) :=
  possible_of_fair (by simp [oneFlip, flipped])

theorem filtered_acceptance_iff_twoFlips : ∃ s cache₁ t cache₁',
    Yields (propose tosses 1 secondChance none) {} s cache₁ ∧
    Yields (propose tosses 1 secondChance none) {} t cache₁' ∧
    s.trace = twoFlips true ∧ t.trace = twoFlips false ∧
    ∃ a, acceptance t.trace s.trace = .ok (.finite a) ∧ acceptance s.trace t.trace = .ok (.finite a) := by
  obtain ⟨s, cache₁, run, trace⟩ := twoFlips_proposed true
  obtain ⟨t, cache₁', run', trace'⟩ := twoFlips_proposed false
  have possible : ∃ x, s.trace.score = .ok (.finite x) := trace ▸ twoFlips_possible true
  have possible' : ∃ x, t.trace.score = .ok (.finite x) := trace' ▸ twoFlips_possible false
  obtain ⟨-, -, a, b, there, back, symmetric⟩ :=
    filtered_acceptance_iff secondChance_finite run run' possible possible'
  have left := propose_anew secondChance_finite run possible
  have right := propose_anew secondChance_finite run' possible'
  have sizes : s.trace.size = t.trace.size := by
    rw [trace, trace']
    rfl
  have smaller := Trace.givesWay_of_size left sizes.ge
  have larger := Trace.givesWay_of_size right sizes.le
  obtain rfl := symmetric.mpr (.inr (.inr ⟨smaller, larger⟩))
  exact ⟨s, cache₁, t, cache₁', run, run', trace, trace', a, there, back⟩

/-- Both moves draw all anew, but from the trace of one flip to that of two only half of them are accepted. -/
theorem secondChance_unbalanced : ∃ s cache₁ t cache₁',
    Yields (propose tosses 1 secondChance none) {} s cache₁ ∧
    Yields (propose tosses 1 secondChance none) {} t cache₁' ∧
    s.trace = twoFlips true ∧ t.trace = oneFlip ∧
    acceptance t.trace s.trace = .ok (.finite 0) ∧
    acceptance s.trace t.trace = .ok (.finite (-Real.log 2)) := by
  obtain ⟨s, cache₁, run, trace⟩ := twoFlips_proposed true
  obtain ⟨t, cache₁', run', trace'⟩ := oneFlip_proposed
  have left := propose_anew secondChance_finite run (trace ▸ twoFlips_possible true)
  have right := propose_anew secondChance_finite run' (trace' ▸ oneFlip_possible)
  refine ⟨s, cache₁, t, cache₁', run, run', trace, trace', ?_, ?_⟩
  all_goals rw [trace] at left ⊢; rw [trace'] at right ⊢
  all_goals
    have two : (twoFlips true).choices ≠ [] := List.cons_ne_nil _ _
    have one : oneFlip.choices ≠ [] := List.cons_ne_nil _ _
  · have smaller : (twoFlips true).GivesWay oneFlip := Trace.givesWay_of_size left (by decide)
    rw [right.acceptance left one two, min_eq_left ((Trace.givesWay_iff one two).mp smaller)]
  · -- The one flip is matched by the first of two, so only the sizes count.
    have matched : oneFlip.surplus (twoFlips true) = 0 := by
      have shares : (flipped 1 0 true).Shares (flipped 1 0 false) :=
        ⟨rfl, _, _, rfl, rfl, by simp [LeafKey.same, Value.alike_refl, flipped]⟩
      have shared : ∃ d ∈ (twoFlips true).choices, d.Shares (flipped 1 0 false) :=
        ⟨_, List.mem_cons_self, shares⟩
      simp only [Trace.surplus, oneFlip, List.map_cons, List.map_nil, counted_neg (not_not_intro shared),
        List.sum_cons, List.sum_nil, add_zero]
    have sizes : (oneFlip.size : ℝ) = 1 ∧ ((twoFlips true).size : ℝ) = 2 := by
      simp [oneFlip, twoFlips, Trace.size]
    have less : -Real.log 2 ≤ 0 := neg_nonpos.mpr (Real.log_nonneg one_le_two)
    rw [left.acceptance right two one, matched, sizes.1, sizes.2, Real.log_one, zero_sub, sub_zero,
      min_eq_right less]

end ChanceGraph
