import ChanceGraph.Proofs.Moves

/-!
Detailed balance of the chain, and where it fails: a move between traces of different sizes is out of
balance unless the choices that only the shorter one has are certain.
-/

set_option autoImplicit false

namespace ChanceGraph

open Traversal

namespace Trace

noncomputable def mass (t : Trace Exact) : ℝ :=
  (t.choices.map Choice.chance).prod

/-- At most one of the choices that two traces share has two values. -/
def Adjacent (s t : Trace Exact) : Prop :=
  ∀ c ∈ s.choices, ∀ d ∈ t.choices, ∀ c' ∈ s.choices, ∀ d' ∈ t.choices, c.Shares d → c'.Shares d' →
    c.value ≠ d.value → c'.value ≠ d'.value → c.address = c'.address

/-- What the trace has and the other one lacks has density one. -/
def CertainBeyond (s t : Trace Exact) : Prop :=
  ∀ c ∈ s.choices, (∀ d ∈ t.choices, ¬ d.Shares c) → c.chance = 1

/-- Where moves in both directions have the same probability flow. -/
def Balanced (s t : Trace Exact) : Prop :=
  s.Adjacent t → s.size = t.size ∨ (t.size < s.size ∧ t.CertainBeyond s) ∨
    (s.size < t.size ∧ s.CertainBeyond t)

theorem Adjacent.symm {s t : Trace Exact} (adjacent : s.Adjacent t) : t.Adjacent s := by
  intro c member d member' c' listed d' listed' shares shares' differ differ'
  have place := adjacent d member' c member d' listed' c' listed shares.symm shares'.symm differ.symm
    differ'.symm
  exact shares.1.trans (place.trans shares'.1.symm)

theorem mass_eq_exp {t : Trace Exact} (positive : ∀ c ∈ t.choices, 0 < c.chance) :
    t.mass = Real.exp (t.choices.map fun c => Real.log c.chance).sum := by
  rw [mass, Real.exp_list_sum, List.map_map]
  congr 1
  refine List.map_congr_left fun c member => ?_
  exact (Real.exp_log (positive c member)).symm

theorem Proper.log_le {t : Trace Exact} (proper : t.Proper) {c : Choice Exact}
    (member : c ∈ t.choices) : Real.log c.chance ≤ 0 := by
  have sound := proper.sound c member
  obtain ⟨w, listed⟩ := sound.listed
  have atMost := Leaf.chance_le_one sound.tabular listed (proper.positive c member)
  exact Real.log_nonpos (proper.positive c member).le atMost

theorem sum_nonpos {xs : List ℝ} (nonpos : ∀ x ∈ xs, x ≤ 0) : xs.sum ≤ 0 := by
  simpa using List.sum_le_card_nsmul xs 0 nonpos

theorem sum_eq_zero_iff {xs : List ℝ} (nonpos : ∀ x ∈ xs, x ≤ 0) : xs.sum = 0 ↔ ∀ x ∈ xs, x = 0 := by
  induction xs with
  | nil => simp
  | cons x xs ih =>
    have ⟨head, tail⟩ := List.forall_mem_cons.mp nonpos
    have rest : xs.sum ≤ 0 := sum_nonpos tail
    rw [List.sum_cons, List.forall_mem_cons, ← ih tail]
    constructor
    · intro sum
      constructor <;> linarith
    · rintro ⟨rfl, sum⟩
      rw [sum, add_zero]

theorem terms_nonpos {s : Trace Exact} (nonpos : ∀ c ∈ s.choices, Real.log c.chance ≤ 0) (t : Trace Exact) :
    ∀ x ∈ s.choices.map fun c => counted (¬ ∃ d ∈ t.choices, d.Shares c) (Real.log c.chance), x ≤ 0 := by
  intro x term
  obtain ⟨c, member, rfl⟩ := List.mem_map.mp term
  by_cases shared : ∃ d ∈ t.choices, d.Shares c
  · rw [counted_neg (not_not_intro shared)]
  · rw [counted_pos shared]
    exact nonpos c member

theorem surplus_nonpos {s : Trace Exact} (nonpos : ∀ c ∈ s.choices, Real.log c.chance ≤ 0)
    (t : Trace Exact) : s.surplus t ≤ 0 :=
  sum_nonpos (terms_nonpos nonpos t)

theorem surplus_eq_zero_iff {s : Trace Exact} (proper : s.Proper) (t : Trace Exact) :
    s.surplus t = 0 ↔ s.CertainBeyond t := by
  rw [surplus, sum_eq_zero_iff (terms_nonpos (fun c member => proper.log_le member) t), List.forall_mem_map]
  refine forall₂_congr fun c member => ?_
  by_cases shared : ∃ d ∈ t.choices, d.Shares c
  · obtain ⟨d, listed, shares⟩ := shared
    rw [counted_neg (not_not_intro ⟨d, listed, shares⟩)]
    exact ⟨fun _ nothing => absurd shares (nothing d listed), fun _ => rfl⟩
  · rw [counted_pos shared]
    constructor
    · exact fun zero _ => Real.eq_one_of_pos_of_log_eq_zero (proper.positive c member) zero
    · intro certain
      rw [certain fun d listed shares => shared ⟨d, listed, shares⟩, Real.log_one]

end Trace

section Tolls

variable {root : Node Exact} {built : Nat} {s t : Trace Exact} {x y : Choice Exact}
  {kept : Choice Exact → Option (Choice Exact)}

theorem agree_of_adjacent (right : Trajectory root built t) (fork : Fork built s t x y)
    (keeps : ∀ c ∈ t.choices, Keeps built s x c (kept c)) (adjacent : s.Adjacent t) :
    ∀ c ∈ t.choices, ∀ old, kept c = some old →
      old ∈ s.choices ∧ old.Shares c ∧ old.value = c.value := by
  intro c member old known
  obtain ⟨listed, shares, stays⟩ := (keeps c member).shared old known
  refine ⟨listed, shares, ?_⟩
  by_contra differ
  have place := adjacent x fork.old y fork.new old listed c member fork.shares shares fork.value differ
  have same : c = y := right.proper.eq_of_address member fork.new
    (shares.1.symm.trans (place.symm.trans fork.shares.1))
  exact stays ((fork.redraws_iff right member).mpr same)

theorem tolls_adjacent (right : Trajectory root built t) (fork : Fork built s t x y)
    (keeps : ∀ c ∈ t.choices, Keeps built s x c (kept c)) (adjacent : s.Adjacent t) :
    (t.choices.map (Choice.toll kept)).prod = Real.exp (Real.log y.chance + t.surplus s) := by
  -- What is drawn is the choice at which the traces fork, and what only the target has.
  have each : ∀ c ∈ t.choices, c.toll kept = Real.exp (counted (c = y) (Real.log c.chance) +
      counted (¬ ∃ d ∈ s.choices, d.Shares c) (Real.log c.chance)) := by
    intro c member
    rw [← counted_or (P := c = y ∨ ¬ ∃ d ∈ s.choices, d.Shares c) Iff.rfl
      fun ⟨same, nothing⟩ => nothing ⟨x, fork.old, same ▸ fork.shares⟩]
    unfold Choice.toll
    cases known : kept c with
    | none =>
      rw [counted_pos]
      · exact (Real.exp_log (right.positive c member)).symm
      · exact ((keeps c member).gone known).imp (fork.redraws_iff right member).mp
          fun nothing ⟨d, listed, shares⟩ => nothing d listed shares
    | some old =>
      obtain ⟨listed, shares, agree⟩ := agree_of_adjacent right fork keeps adjacent c member old known
      have stays := ((keeps c member).shared old known).2.2
      rw [counted_neg, Real.exp_zero]
      · exact counted_pos agree 1
      · rintro (same | nothing)
        · exact stays ((fork.redraws_iff right member).mpr same)
        · exact nothing ⟨old, listed, shares⟩
  rw [List.map_congr_left each, ← right.proper.sum_at fork.new, Trace.surplus, ← List.sum_map_add,
    Real.exp_list_sum, List.map_map]
  rfl

theorem tolls_apart (left : Trajectory root built s) (right : Trajectory root built t)
    (fork : Fork built s t x y) (keeps : ∀ c ∈ t.choices, Keeps built s x c (kept c))
    (apart : ¬ s.Adjacent t) : (t.choices.map (Choice.toll kept)).prod = 0 := by
  -- A value that is kept where the target has another one is a toll of zero.
  have blocked (c : Choice Exact) (member : c ∈ s.choices) (d : Choice Exact) (listed : d ∈ t.choices)
      (shares : c.Shares d) (differ : c.value ≠ d.value) (elsewhere : c.address ≠ x.address) :
      (t.choices.map (Choice.toll kept)).prod = 0 := by
    have stays : ¬ x.Redraws built d := by
      rw [fork.redraws_iff right listed]
      rintro rfl
      exact elsewhere (shares.1.trans fork.shares.1.symm)
    have known := (keeps d listed).eq_of_shares left.proper member shares stays
    refine List.prod_eq_zero (List.mem_map.mpr ⟨d, listed, ?_⟩)
    rw [Choice.toll, known]
    exact counted_neg differ 1
  simp only [Trace.Adjacent, not_forall] at apart
  obtain ⟨c, member, d, listed, c', member', d', listed', shares, shares', differ, differ', apart⟩ :=
    apart
  by_cases place : c.address = x.address
  · refine blocked c' member' d' listed' shares' differ' fun place' => apart (place.trans place'.symm)
  · exact blocked c member d listed shares differ place

theorem tolls_other {r : Choice Exact} (left : Trajectory root built s)
    (fork : Fork built s t x y) (keeps : ∀ c ∈ t.choices, Keeps built s r c (kept c))
    (member : r ∈ s.choices) (other : r ≠ x) : (t.choices.map (Choice.toll kept)).prod = 0 := by
  have stays : ¬ r.Redraws built y := fun redraws => other (fork.redraws_other left member redraws)
  have known := (keeps y fork.new).eq_of_shares left.proper fork.old fork.shares stays
  refine List.prod_eq_zero (List.mem_map.mpr ⟨y, fork.new, ?_⟩)
  rw [Choice.toll, known]
  exact counted_neg fork.value 1

end Tolls

section Move

variable {root : Node Exact} {built patience stamp : Nat} {cache : Cache Exact}
  {s : ChainState Exact} {t : Trace Exact} {x y : Choice Exact}

theorem Proposal.at_member {i : Nat} {c : Choice Exact} {k : LeafKey Exact}
    (found : s.trace.choices[i]? = some c) (key : c.leaf.key = .ok k) :
    Proposal.at s.trace i = .ok ⟨s.trace, some ⟨c.address, k, c.leaf.id⟩⟩ := by
  rw [Proposal.at, found]
  simp only [key, Outcome.ok_bind]
  rfl

theorem mean_move (settled : root.Settled built) (left : Trajectory root built s.trace)
    (right : Trajectory root built t) (fork : Fork built s.trace t x y) (past : cache.Past)
    (early : built ≤ stamp) (before : ∀ c ∈ s.trace.choices, c.leaf.id.stamp < stamp)
    {r : Choice Exact} (member : r ∈ s.trace.choices) {k : LeafKey Exact} (key : r.leaf.key = .ok k)
    (parts patience : Nat) :
    mean (visit (Law.source parts) patience ⟨s.trace, some ⟨r.address, k, r.leaf.id⟩⟩ root false
      ⟨{}, .empty⟩) cache.advance stamp (fun a _ _ => counted (a.2.trace.Matches t)
        (Outcome.worth (fun a => (Scalar.exp a).toReal) (acceptance a.2.trace s.trace))) =
      counted (r = x ∧ s.trace.Adjacent t) (Real.exp (Real.log y.chance + t.surplus s.trace) *
        Real.exp (min 0 (Real.log s.trace.size - Real.log t.size - s.trace.surplus t))) := by
  obtain ⟨kept, keeps, worth⟩ :=
    mean_site settled left right past early (before r member) key parts patience
  rw [worth _ (Real.exp (min 0 (Real.log s.trace.size - Real.log t.size - s.trace.surplus t)))]
  · -- Any other site keeps the old value at the fork.
    by_cases forking : r = x
    · subst forking
      by_cases adjacent : s.trace.Adjacent t
      · rw [tolls_adjacent right fork keeps adjacent, counted_pos ⟨rfl, adjacent⟩]
      · rw [tolls_apart left right fork keeps adjacent, counted_neg fun both => adjacent both.2, zero_mul]
    · rw [tolls_other left fork keeps member forking, counted_neg fun both => forking both.1, zero_mul]
  · exact fun a there _ _ off => counted_neg (fun same => off (follows_of_forall₂ same)) _
  · intro agree a address replayed _ _ replays
    have found : ∀ c ∈ t.choices, ∀ old, kept c = some old →
        old ∈ s.trace.choices ∧ old.Shares c ∧ old.value = c.value := by
      intro c listed old known
      have ⟨listed', shares, _⟩ := (keeps c listed).shared old known
      exact ⟨listed', shares, agree c listed old known⟩
    rw [counted_pos (matches_replayed replays), acceptance_replayed left.proper right.proper
      (List.ne_nil_of_mem member) (List.ne_nil_of_mem fork.new) found replays]
    rfl

theorem mean_at (settled : root.Settled built) (left : Trajectory root built s.trace)
    (right : Trajectory root built t) (fork : Fork built s.trace t x y) (past : cache.Past)
    (early : built ≤ stamp) (before : ∀ c ∈ s.trace.choices, c.leaf.id.stamp < stamp)
    {i : Nat} (within : i < s.trace.choices.length) (parts patience : Nat) :
    Outcome.worth (fun p => mean (visit (Law.source parts) patience p root false ⟨{}, .empty⟩)
      cache.advance stamp fun a _ _ => counted (a.2.trace.Matches t)
        (Outcome.worth (fun a => (Scalar.exp a).toReal) (acceptance a.2.trace s.trace)))
      (Proposal.at s.trace i) =
      counted (s.trace.choices[i] = x ∧ s.trace.Adjacent t) (Real.exp (Real.log y.chance +
        t.surplus s.trace) *
        Real.exp (min 0 (Real.log s.trace.size - Real.log t.size - s.trace.surplus t))) := by
  have member := List.getElem_mem within
  obtain ⟨k, key⟩ := Leaf.key_of_tabular (left.proper.sound _ member).tabular
  rw [Proposal.at_member (List.getElem?_eq_getElem within) key, Outcome.worth]
  exact mean_move settled left right fork past early before member key parts patience

theorem moveMass_exact (settled : root.Settled built) (left : Trajectory root built s.trace)
    (right : Trajectory root built t) (fork : Fork built s.trace t x y) (past : cache.Past)
    (early : built ≤ stamp) (before : ∀ c ∈ s.trace.choices, c.leaf.id.stamp < stamp) :
    moveMass patience root cache stamp s t = 1 / s.trace.size * counted (s.trace.Adjacent t)
      (Real.exp (Real.log y.chance + t.surplus s.trace) *
        Real.exp (min 0 (Real.log s.trace.size - Real.log t.size - s.trace.surplus t))) := by
  obtain ⟨j, below, found⟩ := List.getElem_of_mem fork.old
  have distinct : s.trace.choices.Nodup := List.Nodup.of_map _ left.once
  have indices : ((List.range s.trace.size).map id).Nodup := by
    simpa using List.nodup_range
  have listed : j ∈ List.range s.trace.size := List.mem_range.mpr below
  have site {i : Nat} (within : i < s.trace.choices.length) :=
    mean_at settled left right fork past early before within s.trace.size patience
  rw [moveMass, mean_propose (List.ne_nil_of_mem fork.old), sum_of_distinct indices listed, site below]
  · simp only [found, true_and]
  · intro i within differs
    have below' : i < s.trace.choices.length := List.mem_range.mp within
    have other : s.trace.choices[i] ≠ x := by
      rw [← found]
      exact fun same => differs ((distinct.getElem_inj_iff).mp same)
    rw [site below', counted_neg fun both => other both.1, mul_zero]

end Move

theorem one_div_eq_exp {c : ℝ} (positive : 0 < c) : 1 / c = Real.exp (-Real.log c) := by
  rw [Real.exp_neg, Real.exp_log positive, one_div]

/-- The longer of the two loses its size in the acceptance, so only one minimum is left to decide. -/
theorem flow_iff_of_lt {a b p q common u v : ℝ} (above : 0 < a) (less : a < b) (least : u ≤ 0) (least' : v ≤ 0) :
    Real.exp (common + p + u) * (1 / a * (Real.exp (q + v) *
      Real.exp (min 0 (Real.log a - Real.log b - u)))) =
    Real.exp (common + q + v) * (1 / b * (Real.exp (p + u) *
      Real.exp (min 0 (Real.log b - Real.log a - v)))) ↔ u = 0 := by
  have logs := Real.log_lt_log above less
  rw [one_div_eq_exp above, one_div_eq_exp (above.trans less)]
  simp only [← Real.exp_add, Real.exp_eq_exp]
  rw [min_eq_left (by linarith : 0 ≤ Real.log b - Real.log a - v)]
  constructor
  · intro flows
    by_contra nonzero
    have negative : u < 0 := lt_of_le_of_ne least nonzero
    rcases min_choice 0 (Real.log a - Real.log b - u) with first | second
    · rw [first] at flows
      linarith
    · rw [second] at flows
      linarith
  · rintro rfl
    rw [min_eq_right (by linarith)]
    ring

theorem flow_iff {a b p q common u v : ℝ} (above : 0 < a) (above' : 0 < b) (least : u ≤ 0)
    (least' : v ≤ 0) :
    Real.exp (common + p + u) * (1 / a * (Real.exp (q + v) *
      Real.exp (min 0 (Real.log a - Real.log b - u)))) =
    Real.exp (common + q + v) * (1 / b * (Real.exp (p + u) *
      Real.exp (min 0 (Real.log b - Real.log a - v)))) ↔
    a = b ∨ (b < a ∧ v = 0) ∨ (a < b ∧ u = 0) := by
  rcases lt_trichotomy a b with less | rfl | more
  · rw [flow_iff_of_lt above less least least']
    simp only [less.ne, less.not_gt, less, false_and, true_and, false_or]
  · rw [min_eq_left (by linarith), min_eq_left (by linarith), one_div_eq_exp above]
    simp only [← Real.exp_add, Real.exp_eq_exp, true_or, iff_true]
    ring
  · rw [eq_comm, flow_iff_of_lt above' more least' least]
    simp only [more.ne', more.not_gt, more, false_and, true_and, false_or, or_false]

namespace Trace

/-- The logarithm of the density of the choices that two traces agree on. -/
noncomputable def common (s t : Trace Exact) : ℝ :=
  (s.choices.map fun c =>
    counted (∃ d ∈ t.choices, c.Shares d ∧ c.value = d.value) (Real.log c.chance)).sum

theorem common_comm {s t : Trace Exact} (left : s.Proper) (right : t.Proper) :
    s.common t = t.common s := by
  have swap (d c : Choice Exact) : (d.Shares c ∧ d.value = c.value) ↔ c.Shares d ∧ c.value = d.value :=
    ⟨fun both => ⟨both.1.symm, both.2.symm⟩, fun both => ⟨both.1.symm, both.2.symm⟩⟩
  rw [common, sum_matched s.choices t.choices (g := fun d => Real.log d.chance)
    (fun c => right.apart.imp fun differ both => differ (both.1.1.1.symm.trans both.2.1.1))
    (fun d => left.apart.imp fun differ both => differ (both.1.1.1.trans both.2.1.1.symm)), common]
  · simp only [swap]
  · intro c member d member' ⟨shares, agree⟩
    rw [shares.chance_eq (left.sound c member) (right.sound d member') agree]

theorem sum_of_fork {built : Nat} {s t : Trace Exact} {x y : Choice Exact} (left : s.Proper)
    (right : t.Proper) (fork : Fork built s t x y) (adjacent : s.Adjacent t) :
    (s.choices.map fun c => Real.log c.chance).sum =
      s.common t + Real.log x.chance + s.surplus t := by
  rw [← left.sum_at fork.old, common, surplus, ← List.sum_map_add, ← List.sum_map_add]
  -- A choice has no match, or it agrees with its match, or it is the one at which the traces fork.
  refine congrArg List.sum (List.map_congr_left fun c member => ?_)
  by_cases shared : ∃ d ∈ t.choices, d.Shares c
  · rw [counted_neg (not_not_intro shared), add_zero]
    obtain ⟨d, listed, shares⟩ := shared
    have unique (e : Choice Exact) (listed' : e ∈ t.choices) (shares' : c.Shares e) : e = d :=
      right.eq_of_shares listed' listed shares'.symm shares
    by_cases agree : c.value = d.value
    · have other : c ≠ x := by
        rintro rfl
        rw [← unique y fork.new fork.shares] at agree
        exact fork.value agree
      rw [counted_pos ⟨d, listed, shares.symm, agree⟩, counted_neg other, add_zero]
    · have place := adjacent c member d listed x fork.old y fork.new shares.symm fork.shares agree fork.value
      have same : c = x := left.eq_of_address member fork.old place
      rw [counted_pos same, counted_neg, zero_add]
      rintro ⟨e, listed', shares', agree'⟩
      exact agree (unique e listed' shares' ▸ agree')
  · have other : c ≠ x := by
      rintro rfl
      exact shared ⟨y, fork.new, fork.shares.symm⟩
    rw [counted_pos shared, counted_neg other, counted_neg, add_zero, zero_add]
    rintro ⟨d, listed, shares, -⟩
    exact shared ⟨d, listed, shares.symm⟩

end Trace

/-- What a sampler has before a step: a cache that shows nothing of generations to come, and a stamp
never given before. -/
structure Ready (built : Nat) (cache : Cache Exact) (stamp : Nat) (t : Trace Exact) : Prop where
  past : cache.Past
  early : built ≤ stamp
  before : ∀ c ∈ t.choices, c.leaf.id.stamp < stamp

section Balance

variable {root : Node Exact} {built patience stamp stamp' : Nat} {cache cache' : Cache Exact}
  {s t : ChainState Exact} {x y : Choice Exact}

theorem balanced_of_apart (settled : root.Settled built) (left : Trajectory root built s.trace)
    (right : Trajectory root built t.trace) (fork : Fork built s.trace t.trace x y)
    (ready : Ready built cache stamp s.trace) (apart : ¬ s.trace.Adjacent t.trace) :
    moveMass patience root cache stamp s t.trace = 0 := by
  rw [moveMass_exact settled left right fork ready.past ready.early ready.before, counted_neg apart,
    mul_zero]

theorem Fork.flow_iff (settled : root.Settled built) (left : Trajectory root built s.trace)
    (right : Trajectory root built t.trace) (fork : Fork built s.trace t.trace x y)
    (ready : Ready built cache stamp s.trace) (ready' : Ready built cache' stamp' t.trace) :
    s.trace.mass * moveMass patience root cache stamp s t.trace =
      t.trace.mass * moveMass patience root cache' stamp' t s.trace ↔
    s.trace.Balanced t.trace := by
  have proper := left.proper
  have proper' := right.proper
  -- Traces that differ in more than one shared choice lead to one another by no move.
  by_cases adjacent : s.trace.Adjacent t.trace
  · have above := Trace.size_pos (List.ne_nil_of_mem fork.old)
    have above' := Trace.size_pos (List.ne_nil_of_mem fork.new)
    rw [moveMass_exact settled left right fork ready.past ready.early ready.before,
      moveMass_exact settled right left fork.symm ready'.past ready'.early ready'.before,
      counted_pos adjacent, counted_pos adjacent.symm, Trace.mass_eq_exp left.positive,
      Trace.mass_eq_exp right.positive, Trace.sum_of_fork proper proper' fork adjacent,
      Trace.sum_of_fork proper' proper fork.symm adjacent.symm, ← Trace.common_comm proper proper',
      ChanceGraph.flow_iff above above' (Trace.surplus_nonpos (fun c member => proper.log_le member) _)
        (Trace.surplus_nonpos (fun c member => proper'.log_le member) _)]
    simp only [Trace.Balanced, adjacent, true_implies, Trace.surplus_eq_zero_iff proper,
      Trace.surplus_eq_zero_iff proper', Nat.cast_inj, Nat.cast_lt]
  · have none : moveMass patience root cache stamp s t.trace = 0 :=
      balanced_of_apart settled left right fork ready adjacent
    have none' : moveMass patience root cache' stamp' t s.trace = 0 :=
      balanced_of_apart settled right left fork.symm ready' fun back => adjacent back.symm
    rw [none, none', mul_zero, mul_zero]
    exact iff_of_true rfl fun also => absurd also adjacent

/-- A move and the way back are in balance just if they have a common size, or the choices that only
the shorter trace has are certain, or there is no way at all. -/
theorem detailed_balance_iff (settled : root.Settled built) (left : Trajectory root built s.trace)
    (right : Trajectory root built t.trace) (differ : ¬ s.trace.Matches t.trace)
    (ready : Ready built cache stamp s.trace) (ready' : Ready built cache' stamp' t.trace) :
    s.trace.mass * moveMass patience root cache stamp s t.trace =
      t.trace.mass * moveMass patience root cache' stamp' t s.trace ↔
    s.trace.Balanced t.trace := by
  obtain ⟨x, y, fork⟩ := left.fork settled right differ
  exact fork.flow_iff settled left right ready ready'

end Balance

noncomputable def coin (id : ObjectId) : Leaf Exact :=
  ⟨id, .flip (.real (Scalar.ratio 1 2)) (.real (Scalar.ratio 1 2))⟩

/-- A toss, and then two more if it is true but one more if it is false. -/
noncomputable def branching : Node Exact :=
  (Node.leaf (coin ⟨0, 0⟩)).bind (fun v stamp =>
    match v with
    | .bool true => Node.lift2 Node.second (.leaf (coin ⟨stamp, 0⟩)) (.leaf (coin ⟨stamp, 1⟩))
    | _ => .leaf (coin ⟨stamp, 0⟩)) Node.second

noncomputable def tossed (binds : Int) (id : ObjectId) (heads : Bool) : Choice Exact where
  address := { binds }
  leaf := coin id
  value := .bool heads
  logScore := .real (Scalar.log (Scalar.ratio 1 2))
  reused := false

section Tossed

variable (binds : Int) (id : ObjectId) (heads : Bool)

theorem coin_made : Distribution.makeFlip (.real (Scalar.ratio 1 2)) = .ok (coin id).distribution := by
  have low : (Number.real 0).le (.real (Scalar.ratio 1 2 : Exact)) = true := by
    rw [Number.le_exact]
    exact (Exact.finite_le _ _).mpr (by norm_num)
  have high : (Number.real (Scalar.ratio 1 2 : Exact)).le (.real 1) = true := by
    rw [Number.le_exact]
    exact (Exact.finite_le _ _).mpr (by norm_num)
  simp only [Distribution.makeFlip, Value.within, Value.precedes, numberPrecedes, Value.number?,
    Bound.holds, low, high, Outcome.ok_bind, if_true]
  rfl

theorem coin_tabular : (coin id).distribution.Tabular :=
  .flip (coin_made id)

theorem tossed_chance : (tossed binds id heads).chance = 1 / 2 := by
  cases heads with
  | true =>
    change ((1 : Int) : ℝ) / (2 : Nat) = 1 / 2
    norm_num
  | false =>
    change (1 : ℝ) - (1 : Int) / (2 : Nat) = 1 / 2
    norm_num

theorem tossed_sound : (tossed binds id heads).Sound where
  tabular := coin_tabular id
  listed := by
    cases heads <;>
      simp [tossed, coin, Leaf.Lists, Distribution.support, Number.sub, Number.combine, Number.one,
        pure, Except.pure]
  scored := by
    have half : (coin id).chance (.bool heads) = 1 / 2 := tossed_chance binds id heads
    have scored := Leaf.logDensity_of_chance (coin_tabular id) (by rw [half]; norm_num)
    have log : Scalar.log (Scalar.ratio 1 2 : Exact) = .finite (Real.log (1 / 2)) := by
      rw [Exact.ratio_eq, Exact.finite_log (by norm_num)]
      norm_num
    rw [half, ← log] at scored
    exact scored

end Tossed

noncomputable def longer (last : Bool) : Trace Exact :=
  ⟨[tossed 1 ⟨0, 0⟩ true, tossed 3 ⟨1, 0⟩ true, tossed 4 ⟨1, 1⟩ last]⟩

noncomputable def shorter : Trace Exact :=
  ⟨[tossed 1 ⟨0, 0⟩ false, tossed 2 ⟨1, 0⟩ true]⟩

theorem branching_settled : branching.Settled 1 := by
  refine .weightedBind (.leaf ⟨rfl, Nat.one_pos⟩ rfl) fun v k k' => ?_
  have made (i : Nat) : (Renaming.extend (fun a b => a = b ∧ a.stamp < 1) k k') ⟨k, i⟩ ⟨k', i⟩ :=
    .inr ⟨i, rfl, rfl⟩
  split
  · exact .weightedBind (.leaf (made 0) rfl) fun _ _ _ => .leaf (.inl (made 1)) rfl
  · exact .leaf (made 0) rfl

theorem longer_trajectory (last : Bool) : Trajectory branching 1 (longer last) where
  recorded := ⟨1, _, _, _, le_rfl, .weightedBind (.leaf 1 (tossed_sound ..) rfl rfl)
    (.weightedBind (.leaf 2 (tossed_sound ..) rfl rfl) (.leaf 3 (tossed_sound ..) rfl rfl) rfl rfl)
    rfl rfl⟩
  once := by simp [longer, tossed, coin]
  positive := by simp [longer, tossed_chance]

theorem shorter_trajectory : Trajectory branching 1 shorter where
  recorded := ⟨1, _, _, _, le_rfl, .weightedBind (.leaf 1 (tossed_sound ..) rfl rfl)
    (.leaf 2 (tossed_sound ..) rfl rfl) rfl rfl⟩
  once := by simp [shorter, tossed, coin]
  positive := by simp [shorter, tossed_chance]

noncomputable def resting (t : Trace Exact) : ChainState Exact :=
  ⟨t, .ofValue .nothing, none⟩

theorem longer_ready (last : Bool) : Ready 1 {} 4 (longer last) :=
  ⟨Cache.past_new, by decide, by simp [longer, tossed, coin]⟩

theorem shorter_ready : Ready 1 {} 4 shorter :=
  ⟨Cache.past_new, by decide, by simp [shorter, tossed, coin]⟩

theorem detailed_balance_iff_coins :
    (longer true).mass * moveMass 0 branching {} 4 (resting (longer true)) (longer false) =
      (longer false).mass * moveMass 0 branching {} 4 (resting (longer false)) (longer true) := by
  have differ : ¬ (longer true).Matches (longer false) := by
    simp [longer, Trace.Matches, Choice.Same, tossed]
  exact (detailed_balance_iff (s := resting (longer true)) (t := resting (longer false))
    branching_settled (longer_trajectory true) (longer_trajectory false) differ (longer_ready true)
    (longer_ready false)).mpr fun _ => .inl rfl

theorem branching_unbalanced :
    Trajectory branching 1 (longer true) ∧ Trajectory branching 1 shorter ∧
    ¬ (longer true).Matches shorter ∧
    (longer true).mass * moveMass 0 branching {} 4 (resting (longer true)) shorter ≠
      shorter.mass * moveMass 0 branching {} 4 (resting shorter) (longer true) := by
  have differ : ¬ (longer true).Matches shorter := by
    simp [longer, shorter, Trace.Matches]
  have left := longer_trajectory true
  refine ⟨left, shorter_trajectory, differ, fun flows => ?_⟩
  obtain ⟨x, y, fork⟩ := left.fork branching_settled shorter_trajectory differ
  have balanced := (Fork.flow_iff (s := resting (longer true)) (t := resting shorter)
    branching_settled left shorter_trajectory fork (longer_ready true) shorter_ready).mp flows
  have shared : ∀ c ∈ (longer true).choices, ∀ d ∈ shorter.choices, c.Shares d →
      c.address = { binds := 1 } := by
    simp [longer, shorter, tossed, Choice.Shares]
  have adjacent : (longer true).Adjacent shorter := by
    intro c member d listed c' member' d' listed' shares shares' _ _
    rw [shared c member d listed shares, shared c' member' d' listed' shares']
  -- The sizes differ, and the last toss of the longer trace is not certain.
  rcases balanced adjacent with same | ⟨-, certain⟩ | ⟨less, -⟩
  · cases same
  · have last := certain (tossed 2 ⟨1, 0⟩ true) (by simp [resting, shorter]) (by
      simp [resting, longer, tossed, Choice.Shares])
    rw [tossed_chance] at last
    norm_num at last
  · simp [resting, longer, shorter, Trace.size] at less

end ChanceGraph
