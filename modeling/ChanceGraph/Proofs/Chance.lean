import ChanceGraph.Proofs.ForwardLaw
import ChanceGraph.Proofs.Interchange

/-!
The chance of what forward sampling yields, as its patience grows: a bind yields what its parts yield in
turn, and a filter yields what its source yields when the predicate holds.
-/

set_option autoImplicit false

namespace ChanceGraph

open Filter Topology Traversal

def Fractional {α : Type} (h : α → ℝ) : Prop :=
  ∀ a, 0 ≤ h a ∧ h a ≤ 1

theorem Fractional.worth {α : Type} {h : α → ℝ} (fractional : Fractional h) (r : Outcome Exact α) :
    0 ≤ Outcome.worth h r ∧ Outcome.worth h r ≤ 1 :=
  ⟨worth_nonneg fun a => (fractional a).1, worth_le_one fun a => (fractional a).2⟩

def Renaming.keep (objects : ObjectId → Prop) : Renaming := fun a b =>
  a = b ∧ objects a

namespace Node

variable {n : Node Exact} {now : Nat} {h : Value Exact → ℝ}

/-- What a value that forward sampling yields is worth on average.  A traversal that runs out of patience
yields none. -/
noncomputable def odds (n : Node Exact) (patience now : Nat) (h : Value Exact → ℝ) : ℝ :=
  Traversal.mean (forward (Law.source 1) patience n) {} now fun a _ _ => h a.value

/-- The same without a bound on the attempts at a filter. -/
noncomputable def chance (n : Node Exact) (now : Nat) (h : Value Exact → ℝ) : ℝ :=
  ⨆ patience, n.odds patience now h

theorem odds_add_mul (n : Node Exact) (patience now : Nat) (f g : Value Exact → ℝ) (x : ℝ) :
    (n.odds patience now fun v => f v + x * g v) = n.odds patience now f + x * n.odds patience now g :=
  mean_add_mul _ _ _ _ _ _

theorem odds_nonneg (weighs : n.Leaves Leaf.Weighs) (patience : Nat) (nonneg : ∀ v, 0 ≤ h v) :
    0 ≤ n.odds patience now h :=
  (forward_partial weighs patience).nonneg _ _ _ fun _ _ _ => nonneg _

theorem odds_mono (weighs : n.Leaves Leaf.Weighs) (patience : Nat) {f g : Value Exact → ℝ}
    (less : ∀ v, f v ≤ g v) : n.odds patience now f ≤ n.odds patience now g :=
  (forward_partial weighs patience).mono fun _ _ _ => less _

theorem odds_le_one (weighs : n.Leaves Leaf.Weighs) (patience : Nat) (less : ∀ v, h v ≤ 1) :
    n.odds patience now h ≤ 1 :=
  (forward_partial weighs patience).le_one fun _ _ _ => less _

theorem fractional_odds (weighs : n.Leaves Leaf.Weighs) (patience : Nat) (fractional : Fractional h) :
    0 ≤ n.odds patience now h ∧ n.odds patience now h ≤ 1 :=
  ⟨odds_nonneg weighs patience fun v => (fractional v).1,
    odds_le_one weighs patience fun v => (fractional v).2⟩

theorem monotone_odds (weighs : n.Leaves Leaf.Weighs) (nonneg : ∀ v, 0 ≤ h v) :
    Monotone fun patience => n.odds patience now h :=
  monotone_nat_of_le_succ fun patience => forward_below weighs patience _ _ _ fun _ _ _ => nonneg _

theorem bddAbove_odds (weighs : n.Leaves Leaf.Weighs) (less : ∀ v, h v ≤ 1) :
    BddAbove (Set.range fun patience => n.odds patience now h) := by
  refine ⟨1, ?_⟩
  rintro _ ⟨patience, rfl⟩
  exact odds_le_one weighs patience less

theorem tendsto_odds (weighs : n.Leaves Leaf.Weighs) (fractional : Fractional h) :
    Tendsto (fun patience => n.odds patience now h) atTop (𝓝 (n.chance now h)) :=
  tendsto_atTop_ciSup (monotone_odds weighs fun v => (fractional v).1)
    (bddAbove_odds weighs fun v => (fractional v).2)

theorem odds_le_chance (weighs : n.Leaves Leaf.Weighs) (patience : Nat) (less : ∀ v, h v ≤ 1) :
    n.odds patience now h ≤ n.chance now h :=
  le_ciSup (bddAbove_odds weighs less) patience

theorem fractional_chance (weighs : n.Leaves Leaf.Weighs) (fractional : Fractional h) :
    0 ≤ n.chance now h ∧ n.chance now h ≤ 1 := by
  have within (patience : Nat) : 0 ≤ n.odds patience now h ∧ n.odds patience now h ≤ 1 :=
    fractional_odds weighs patience fractional
  exact ⟨ge_of_tendsto' (tendsto_odds weighs fractional) fun patience => (within patience).1,
    le_of_tendsto' (tendsto_odds weighs fractional) fun patience => (within patience).2⟩

theorem tendsto_odds_growing (weighs : n.Leaves Leaf.Weighs) {g : Nat → Value Exact → ℝ}
    (fractional : Fractional h) (nonneg : ∀ i v, 0 ≤ g i v) (grows : ∀ v, Monotone fun i => g i v)
    (each : ∀ v, Tendsto (fun i => g i v) atTop (𝓝 (h v))) :
    Tendsto (fun patience => n.odds patience now (g patience)) atTop (𝓝 (n.chance now h)) := by
  -- Both the patience and what is counted grow here, so `tendsto_odds` alone is not enough.
  have below (i : Nat) (v : Value Exact) : g i v ≤ h v := (grows v).ge_of_tendsto (each v) i
  refine tendsto_order.mpr ⟨fun x less => ?_, fun x more => ?_⟩
  · -- Some patience is enough for the limit of what is counted, and then for what is counted later.
    obtain ⟨enough, reached⟩ := ((tendsto_order.mp (tendsto_odds weighs fractional)).1 x less).exists
    have close : Tendsto (fun i => n.odds enough now (g i)) atTop (𝓝 (n.odds enough now h)) :=
      tendsto_mean _ _ _ fun a _ _ => each a.value
    filter_upwards [(tendsto_order.mp close).1 x reached, eventually_ge_atTop enough] with i counted later
    exact counted.trans_le (monotone_odds weighs (nonneg i) later)
  · refine .of_forall fun patience => lt_of_le_of_lt ?_ more
    exact (odds_mono weighs patience (below patience)).trans
      (odds_le_chance weighs patience fun v => (fractional v).2)

end Node

/-- A source and its dependents share no leaf: the source has its own among those that there are before a
traversal, and the dependents have others, besides what each call makes. -/
structure Apart (own other : ObjectId → Prop) (now : Nat) (n : Node Exact)
    (dependent : Value Exact → Nat → Node Exact) : Prop where
  disjoint : ∀ id, own id → ¬ other id
  early : ∀ id, own id ∨ other id → id.stamp < now
  source : n.Renamed (.keep own) n
  calls : ∀ v k k', (dependent v k).Renamed ((Renaming.keep other).extend k k') (dependent v k')

namespace Parallel

variable {objects spared : ObjectId → Prop} {c c' : Cache Exact} {k k' now : Nat}

theorem start (past : c.Past) (unseen : ∀ id, objects id ∨ spared id ∨ k ≤ id.stamp → c.get? id = none)
    (early : ∀ id, objects id ∨ spared id → id.stamp < k ∧ id.stamp < now)
    (disjoint : ∀ id, objects id → ¬ spared id) : Parallel (.keep objects) spared c {} k now where
  past := ⟨past, Cache.past_new⟩
  faithful := by
    rintro a b a' b' ⟨rfl, -⟩ ⟨rfl, -⟩
    rfl
  made := by
    rintro a b ⟨rfl, object⟩
    exact early a (.inl object)
  same := by
    rintro a b ⟨rfl, object⟩
    rw [unseen a (.inl object), Cache.get?_new]
  unmade id := ⟨fun late => unseen id (.inr (.inr late)), fun _ => Cache.get?_new id⟩
  spares id aside := by
    refine ⟨(early id (.inr aside)).1, unseen id (.inr (.inl aside)), ?_⟩
    rintro b ⟨rfl, object⟩
    exact disjoint id object aside

end Parallel

/-- Every sample of a stream has its values with the chances of the first one, whatever the cache holds of
earlier ones. -/
theorem Node.tendsto_next {objects : ObjectId → Prop} {parts now stamp : Nat} {n : Node Exact}
    {h : Value Exact → ℝ} {cache : Cache Exact} (steady : n.Renamed (.keep objects) n)
    (early : ∀ id, objects id → id.stamp < now) (weighs : n.Leaves Leaf.Weighs)
    (fractional : Fractional h) (past : cache.Past) (later : now ≤ stamp) :
    Tendsto (fun patience => mean (nextForward (Law.source parts) patience n) cache stamp
      fun a _ _ => h a.value) atTop (𝓝 (n.chance now h)) := by
  refine (tendsto_odds weighs fractional).congr fun patience => ?_
  rw [nextForward, mean_bind, advance, mean_modify]
  have unseen : Parallel (.keep objects) (fun _ => False) cache.advance {} stamp now := by
    refine .start past.advance (fun id _ => Cache.get?_advance past id) ?_ fun _ _ => id
    rintro id (object | none)
    · exact ⟨(early id object).trans_le later, early id object⟩
    · exact none.elim
  symm
  exact mean_parallel steady patience unseen fun _ _ _ _ _ _ => rfl

namespace Apart

variable {own other : ObjectId → Prop} {now : Nat} {n : Node Exact}
  {dependent : Value Exact → Nat → Node Exact} {h : Value Exact → ℝ}

theorem odds_bind (apart : Apart own other now n dependent)
    (f : Value Exact → Value Exact → Outcome Exact (Value Exact)) (patience : Nat) (h : Value Exact → ℝ) :
    (n.bind dependent f).odds patience now h = n.odds patience now fun v =>
      (dependent v now).odds patience (now + 1) fun u => Outcome.worth h (f v u) := by
  unfold Node.odds Node.bind
  rw [mean_weightedBind]
  have start : Parallel (.keep own) other {} {} now now :=
    .start Cache.past_new (fun _ _ => Cache.get?_new _) (fun id known => by simp [apart.early id known])
      apart.disjoint
  refine mean_parallel apart.source patience start fun a c c' k k' parallel => ?_
  -- The call finds its leaves unseen, as if there had been no source.
  have call : Parallel (.keep other) (fun _ => False) c {} k now := by
    refine .start parallel.past.1 ?_ ?_ fun _ _ => id
    · rintro id (object | none | late)
      · exact (parallel.spares id object).2.1
      · exact none.elim
      · exact (parallel.unmade id).1 late
    · rintro id (object | none)
      · exact ⟨(parallel.spares id object).1, apart.early id (.inr object)⟩
      · exact none.elim
  refine mean_parallel (apart.calls a.value k now) patience call.extend fun b _ _ _ _ _ => ?_
  simp only [Sample.combine]
  cases f a.value b.value with
  | error fault => rfl
  | ok v => rfl

theorem steady (apart : Apart own other now n dependent)
    (f : Value Exact → Value Exact → Outcome Exact (Value Exact)) :
    (n.bind dependent f).Renamed (.keep fun id => own id ∨ other id) (n.bind dependent f) := by
  refine .weightedBind (apart.source.mono ?_) fun v k k' => (apart.calls v k k').mono ?_
  · exact fun a b same => same.imp_right .inl
  · exact fun a b related => related.imp_left fun same => same.imp_right .inr

theorem filter (apart : Apart own other now n dependent) (p : Value Exact → Outcome Exact Bool) :
    Apart own other now n fun v k => .filter (dependent v k) p where
  disjoint := apart.disjoint
  early := apart.early
  source := apart.source
  calls v k k' := .filter (apart.calls v k k')

theorem call (apart : Apart own other now n dependent) (v : Value Exact) :
    (dependent v now).Renamed (.keep fun id => other id ∨ id.stamp = now) (dependent v now) := by
  refine (apart.calls v now now).mono ?_
  rintro a b (⟨rfl, object⟩ | ⟨i, rfl, rfl⟩)
  · exact ⟨rfl, .inl object⟩
  · exact ⟨rfl, .inr rfl⟩

theorem call_early (apart : Apart own other now n dependent) (id : ObjectId)
    (known : other id ∨ id.stamp = now) : id.stamp < now + 1 := by
  rcases known with object | made
  · have early := apart.early id (.inr object)
    omega
  · omega

/-- A bind whose parts share no leaf yields what they yield in turn. -/
theorem chance_bind (apart : Apart own other now n dependent)
    (weighs : n.Leaves Leaf.Weighs ∧ ∀ v k, (dependent v k).Leaves Leaf.Weighs)
    (f : Value Exact → Value Exact → Outcome Exact (Value Exact)) (fractional : Fractional h) :
    (n.bind dependent f).chance now h = n.chance now fun v =>
      (dependent v now).chance (now + 1) fun u => Outcome.worth h (f v u) := by
  have counted (v : Value Exact) : Fractional fun u => Outcome.worth h (f v u) :=
    fun u => fractional.worth (f v u)
  have call (v : Value Exact) := weighs.2 v now
  have whole : Tendsto (fun i => (n.bind dependent f).odds i now h) atTop
      (𝓝 ((n.bind dependent f).chance now h)) := Node.tendsto_odds weighs fractional
  simp only [apart.odds_bind f _ h] at whole
  refine tendsto_nhds_unique whole (Node.tendsto_odds_growing weighs.1 ?_ ?_ ?_ ?_)
  · exact fun v => Node.fractional_chance (call v) (counted v)
  · exact fun i v => Node.odds_nonneg (call v) i fun u => (counted v u).1
  · exact fun v => Node.monotone_odds (call v) fun u => (counted v u).1
  · exact fun v => Node.tendsto_odds (call v) (counted v)

end Apart

theorem Fractional.answering {h : Value Exact → ℝ} (fractional : Fractional h)
    (p : Value Exact → Outcome Exact Bool) (answer : Bool) : Fractional (answering p answer h) := by
  intro v
  refine Fractional.worth (fun b => ?_) (p v)
  split
  · exact fractional v
  · exact ⟨le_rfl, zero_le_one⟩

theorem fractional_one {α : Type} : Fractional fun _ : α => (1 : ℝ) :=
  fun _ => ⟨zero_le_one, le_rfl⟩

/-- Attempts of which the fraction `r` is rejected, ever more of them. -/
theorem tendsto_attempts {r m : Nat → ℝ} {r' m' : ℝ} (rejects : Tendsto r atTop (𝓝 r'))
    (accepts : Tendsto m atTop (𝓝 m')) (more : Monotone r) (more' : Monotone m)
    (nonneg : ∀ i, 0 ≤ r i ∧ 0 ≤ m i) (whole : r' + m' ≤ 1) :
    Tendsto (fun i => (∑ j ∈ Finset.range i, r i ^ j) * m i) atTop (𝓝 (m' / (1 - r'))) := by
  have below (i : Nat) : r i ≤ r' := more.ge_of_tendsto rejects i
  have below' (i : Nat) : m i ≤ m' := more'.ge_of_tendsto accepts i
  rcases ((nonneg 0).2.trans (below' 0)).eq_or_lt with none | some
  · -- Nothing is ever accepted.
    have zero (i : Nat) : m i = 0 := le_antisymm (none ▸ below' i) (nonneg i).2
    simp [← none, zero]
  · have less : r' < 1 := by linarith
    have failing : Tendsto (fun i => r i ^ i) atTop (𝓝 0) :=
      squeeze_zero (fun i => pow_nonneg (nonneg i).1 i)
        (fun i => pow_le_pow_left₀ (nonneg i).1 (below i) i)
        (tendsto_pow_atTop_nhds_zero_of_lt_one ((nonneg 0).1.trans (below 0)) less)
    have sums (i : Nat) : ∑ j ∈ Finset.range i, r i ^ j = (1 - r i ^ i) / (1 - r i) := by
      rw [geom_sum_eq ((below i).trans_lt less).ne, ← neg_div_neg_eq, neg_sub, neg_sub]
    have limit := ((failing.const_sub 1).div (rejects.const_sub 1) (by linarith)).mul accepts
    rw [sub_zero, one_div_mul_eq_div] at limit
    exact limit.congr fun i => by rw [sums i, Pi.div_apply]

section Filter

variable {objects : ObjectId → Prop} {now : Nat} {n : Node Exact}
  {p : Value Exact → Outcome Exact Bool} {h : Value Exact → ℝ}

theorem mean_attempts (early : ∀ id, objects id → id.stamp < now) (steady : n.Renamed (.keep objects) n)
    (patience attempts : Nat) {c : Cache Exact} {k : Nat}
    (unseen : Parallel (.keep objects) (fun _ => False) c {} k now) :
    mean (retry (forward (Law.source 1) patience n) (fun a => p a.value) attempts) c k
        (fun a _ _ => h a.value) =
      (∑ j ∈ Finset.range attempts, n.odds patience now (answering p false fun _ => 1) ^ j) *
        n.odds patience now (answering p true h) := by
  -- Every attempt has a generation of its own, so it goes as the first one, whatever was drawn before.
  induction attempts generalizing c k with
  | zero =>
    rw [Finset.sum_range_zero, zero_mul]
    exact mean_throw c k _ _
  | succ attempts ih =>
    rw [mean_retry_succ]
    set later := (∑ j ∈ Finset.range attempts, n.odds patience now (answering p false fun _ => 1) ^ j) *
        n.odds patience now (answering p true h) with rest
    calc
      _ = n.odds patience now fun v =>
          answering p true h v + later * answering p false (fun _ => 1) v := by
        refine mean_parallel steady patience unseen fun a c c' k k' parallel => ?_
        have again : Parallel (.keep objects) (fun _ => False) c.advance {} k now := by
          refine parallel.restart ?_
          rintro _ id ⟨rfl, object⟩
          exact early _ object
        rw [ih again]
        cases decided : p a.value with
        | error fault => simp [answering_error decided]
        | ok accepted => cases accepted <;> simp [answering_ok decided]
      _ = _ := by
        rw [Node.odds_add_mul, rest, geom_sum_succ]
        ring

/-- Retrying a source until the predicate holds is to condition on the predicate. -/
theorem Node.chance_filter (early : ∀ id, objects id → id.stamp < now)
    (steady : n.Renamed (.keep objects) n) (weighs : n.Leaves Leaf.Weighs) (fractional : Fractional h) :
    (n.filter p).chance now h = n.chance now (answering p true h) /
      (1 - n.chance now (answering p false fun _ => 1)) := by
  have start : Parallel (.keep objects) (fun _ => False) {} {} now now :=
    .start Cache.past_new (fun _ _ => Cache.get?_new _) (fun id known => by simp_all) fun _ _ => id
  have rejected := fractional_one.answering p false
  have accepted := fractional.answering p true
  have whole : Tendsto (fun i => (n.filter p).odds i now h) atTop (𝓝 ((n.filter p).chance now h)) :=
    tendsto_odds weighs fractional
  replace whole := whole.congr fun i => mean_attempts early steady i i start
  -- An attempt is accepted, or it is rejected and another one begins: both sides are limits of that.
  refine tendsto_nhds_unique whole (tendsto_attempts (tendsto_odds weighs rejected)
    (tendsto_odds weighs accepted) (monotone_odds weighs fun v => (rejected v).1)
    (monotone_odds weighs fun v => (accepted v).1) (fun i => ?_) ?_)
  · exact ⟨odds_nonneg weighs i fun v => (rejected v).1, odds_nonneg weighs i fun v => (accepted v).1⟩
  · refine le_of_tendsto' ((tendsto_odds weighs rejected).add (tendsto_odds weighs accepted)) fun i => ?_
    have either (v : Value Exact) : answering p false (fun _ => 1) v + 1 * answering p true h v ≤ 1 := by
      cases decided : p v with
      | error fault => simp [answering_error decided]
      | ok answer => cases answer <;> simp [answering_ok decided, (fractional v).2]
    have together : n.odds i now _ ≤ 1 := odds_le_one weighs i either
    rwa [odds_add_mul, one_mul] at together

end Filter

theorem Node.chance_leaf (l : Leaf Exact) (now : Nat) (h : Value Exact → ℝ) :
    (Node.leaf l).chance now h = l.law.mean (Outcome.worth h) := by
  have each (patience : Nat) : (Node.leaf l).odds patience now h = l.law.mean (Outcome.worth h) := by
    rw [odds, mean_leaf, mean_sample _ _ (Cache.get?_new l.id)]
    rfl
  rw [chance]
  simp only [each, ciSup_const]

section Weighs

variable {l : Leaf Exact}

theorem Leaf.mean_law_of_support {table : List (Weighted Exact)}
    (supported : l.distribution.support = .ok table) (g : Outcome Exact (Value Exact) → ℝ) :
    l.law.mean g = (table.map fun w => w.weight.toExact.toReal * g (.ok w.value)).sum := by
  rw [Leaf.law, supported]
  simp [Law.mean, Function.comp_def]

theorem Leaf.weighs_of_support {table : List (Weighted Exact)}
    (supported : l.distribution.support = .ok table)
    (nonneg : ∀ w ∈ table, 0 ≤ w.weight.toExact.toReal)
    (total : (table.map fun w => w.weight.toExact.toReal).sum ≤ 1) : l.Weighs where
  nonneg g counts := by
    rw [mean_law_of_support supported]
    refine List.sum_nonneg fun x term => ?_
    obtain ⟨w, listed, rfl⟩ := List.mem_map.mp term
    exact mul_nonneg (nonneg w listed) (counts _)
  total := by simpa [mean_law_of_support supported] using total

theorem Leaf.weighs_of_fault {fault : Fault Exact} (unsupported : l.distribution.support = .error fault) :
    l.Weighs := by
  have law (g : Outcome Exact (Value Exact) → ℝ) : l.law.mean g = g (.error fault) := by
    rw [Leaf.law, unsupported]
    exact Law.mean_pure _ _
  exact ⟨fun g counts => by rw [law]; exact counts _, (law _).le⟩

theorem Exact.toReal_nonneg {x : Exact} (above : ¬ x < 0) : 0 ≤ x.toReal := by
  cases x with
  | finite r => simpa [Exact.zero_eq] using above
  | infinite | undefined => exact le_rfl

theorem Table.Apportions.sum_le_one {t : Table Exact} {given : List (Group Exact (Value Exact))} {total : Exact}
    (parts : t.Apportions given total) : (t.groups.map fun g => g.weight.toReal).sum ≤ 1 := by
  by_cases finite : ∃ b, total = .finite b
  · obtain ⟨b, rfl⟩ := finite
    have above : 0 < b := by
      simpa [Exact.zero_eq] using parts.positive
    obtain ⟨r, each, sum⟩ := finite_of_exactSumBy parts.sums
    have made : given.mapM (Group.share (.finite b)) =
        .ok (given.map fun g => ⟨g.key, g.value, .finite (r g / b)⟩) := by
      refine Outcome.mapM_eq_map fun g member => Group.share_ok.mpr ⟨_, each g member, ?_⟩
      rw [Exact.finite_div above.ne']
    have groups := Except.ok.inj (made.symm.trans parts.shares)
    simp [← groups, Function.comp_def, div_eq_mul_inv, List.sum_map_mul_right, sum, above.ne']
  · -- No share of what is not finite is a positive number.
    have none (g : Group Exact Exact) (member : g ∈ t.groups) : g.weight.toReal ≤ 0 := by
      obtain ⟨g', -, w, -, rfl⟩ := parts.exists_share member
      by_contra more
      obtain ⟨_, b, -, rfl, -⟩ := Exact.div_eq_finite (not_le.mp more)
      exact finite ⟨b, rfl⟩
    refine (List.sum_le_card_nsmul _ 0 fun x term => ?_).trans (by simp)
    obtain ⟨g, member, rfl⟩ := List.mem_map.mp term
    exact none g member

theorem Table.Built.weighs {t : Table Exact} (built : t.Built) {origin : Origin Exact} {id : ObjectId} :
    (⟨id, .finite origin t⟩ : Leaf Exact).Weighs := by
  obtain ⟨items, built⟩ := built
  obtain ⟨given, -, built⟩ := Outcome.bind_ok.mp built
  obtain ⟨-, total, parts⟩ := ofGroups_ok built
  refine Leaf.weighs_of_support rfl ?_ ?_
  · intro w listed
    obtain ⟨g, member, rfl⟩ := List.mem_map.mp listed
    exact Exact.toReal_nonneg (parts.not_negative member)
  · simpa [support, Function.comp_def] using parts.sum_le_one

/-- Every leaf of the classes has a law whose chances come to no more than one. -/
theorem Distribution.Made.weighs (made : l.distribution.Made) : l.Weighs := by
  obtain ⟨id, d⟩ := l
  cases made.shape with
  | constant v => exact Leaf.weighs_of_support rfl (by simp [Exact.one_eq]) (by simp [Exact.one_eq])
  | @flip given p x _ value nonnegative atMost =>
    have rest : Number.sub .one p = .ok (.real (.finite (1 - x))) := by
      simp [Number.sub, Number.combine, Number.one, value, Exact.one_eq]
    have supported : (Distribution.flip given p).support =
        .ok [⟨.bool true, p⟩, ⟨.bool false, .real (.finite (1 - x))⟩] := by
      simp [support, rest]
    exact Leaf.weighs_of_support supported (by simp [value, nonnegative, atMost]) (by simp [value])
  | enumeration built => exact built.weighs
  | multinomial built => exact built.weighs
  | truncatedGeometric _ _ _ _ built => exact built.weighs
  | gaussian | exponential | uniform | geometric | multivariate => exact Leaf.weighs_of_fault rfl

end Weighs

end ChanceGraph
