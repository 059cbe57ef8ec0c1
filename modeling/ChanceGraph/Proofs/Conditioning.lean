import ChanceGraph.Proofs.Chance
import ChanceGraph.Proofs.Inference
import ChanceGraph.Proofs.Sharing

/-!
Conditioning inside a dependent: forward sampling conditions every call by itself, exact inference
conditions the program as a whole.
-/

set_option autoImplicit false

namespace ChanceGraph

open Filter Topology Traversal

/-- Forward sampling yields the values that are listed, with the parts that they have of the mass. -/
def Node.Sampled (n : Node Exact) (now : Nat) (items : List (Weighted Exact)) : Prop :=
  ∀ h, Fractional h → n.chance now h = mass items h / mass items fun _ => 1

/-- The dependent is conditioned, and what is yielded is paired with the value that it was called for. -/
def conditioned {S : Type} [Scalar S] (s : Node S) (d : Value S → Nat → Node S)
    (p : Value S → Outcome S Bool) : Node S :=
  s.bind (fun a k => .filter (d a k) p) pair

section Shares

variable (p : Value Exact → Outcome Exact Bool) (as : List (Weighted Exact))
  (under : Value Exact → List (Weighted Exact))

/-- The mass of what the predicate lets pass in the call for a value. -/
noncomputable def passing (a : Value Exact) : ℝ :=
  mass (under a) (answering p true fun _ => 1)

/-- The mass of what passes in the call for a value and makes a pair that is taken for another. -/
noncomputable def pairing (t a : Value Exact) : ℝ :=
  mass (under a) (answering p true fun c => likeness t (.tuple [a, c]))

/-- The part of the pairs that are taken for one, of all pairs that pass. -/
noncomputable def wholeShare (t : Value Exact) : ℝ :=
  mass as (pairing p under t) / mass as (passing p under)

/-- The same where each call counts for as much as its value does. -/
noncomputable def callShare (t : Value Exact) : ℝ :=
  (mass as fun a => pairing p under t a / passing p under a) / mass as fun _ => 1

/-- Values of the source that carry weight and are related let the same mass pass. -/
def PassAlike (related : Value Exact → Value Exact → Prop) : Prop :=
  ∀ a ∈ as, ∀ b ∈ as, 0 < a.weight.toExact.toReal → 0 < b.weight.toExact.toReal →
    related a.value b.value → passing p under a.value = passing p under b.value

end Shares

theorem fractional_likeness (t : Value Exact) : Fractional (likeness t) := by
  intro v
  unfold likeness
  split <;> simp

section Masses

variable {p : Value Exact → Outcome Exact Bool} {items as : List (Weighted Exact)}
  {under : Value Exact → List (Weighted Exact)} {t a : Value Exact}

theorem mass_answers (decides : ∀ w ∈ items, ∃ b, p w.value = .ok b) :
    (mass items fun _ => 1) =
      mass items (answering p true fun _ => 1) + mass items (answering p false fun _ => 1) := by
  rw [mass, mass, mass, ← List.sum_map_add]
  congr 1
  refine List.map_congr_left fun w listed => ?_
  obtain ⟨b, known⟩ := decides w listed
  cases b <;> simp [answering_ok known]

theorem pairing_of_apart (apart : a.alike t = false) (c : Value Exact) :
    pairing p under (.tuple [t, c]) a = 0 := by
  have never (b : Value Exact) : likeness (.tuple [t, c]) (.tuple [a, b]) = 0 := by
    rw [likeness, if_neg]
    intro alike
    rw [(Value.tuple_alike alike).1] at apart
    cases apart
  refine List.sum_eq_zero fun x term => ?_
  obtain ⟨w, -, rfl⟩ := List.mem_map.mp term
  unfold answering
  cases p w.value <;> simp [never]

theorem fractional_pair (t a : Value Exact) : Fractional fun c => likeness t (.tuple [a, c]) :=
  fun _ => fractional_likeness t _

theorem pairing_nonneg (countable : Countable (under a)) : 0 ≤ pairing p under t a :=
  mass_nonneg countable fun c => ((fractional_pair t a).answering p true c).1

theorem passing_nonneg (countable : Countable (under a)) : 0 ≤ passing p under a :=
  mass_nonneg countable fun c => (fractional_one.answering p true c).1

theorem exists_pairing_pos (calls : Countable (under a)) (passes : 0 < passing p under a) :
    ∃ c : Value Exact, c.isKey = true ∧ 0 < pairing p under (.tuple [a, c]) a := by
  obtain ⟨c, member, weighs, counts⟩ := exists_of_mass_pos calls
    (fun c => (fractional_one.answering p true c).1) passes
  have holds : p c.value = .ok true := by
    cases known : p c.value with
    | error fault => simp [answering_error known] at counts
    | ok b => cases b <;> simp_all [answering_ok known]
  refine ⟨c.value, (calls c member).2, mass_pos calls (fun c _ => ?_) member weighs ?_⟩
  · exact ((fractional_pair _ a).answering p true c.value).1
  · simp [answering_ok holds, likeness, Value.alike_refl]

/-- If every value of the source leaves the same mass, both shares are the same. -/
theorem callShare_eq (countable : Countable as) {z : ℝ}
    (same : ∀ a ∈ as, 0 < a.weight.toExact.toReal → passing p under a.value = z) (t : Value Exact) :
    callShare p as under t = wholeShare p as under t := by
  have calls : (mass as fun a => pairing p under t a / passing p under a) =
      z⁻¹ * mass as (pairing p under t) := by
    rw [← mass_mul]
    refine mass_congr_of_pos countable fun a listed weighs => ?_
    rw [same a listed weighs, div_eq_inv_mul]
  have whole : mass as (passing p under) = z * mass as fun _ => 1 := by
    rw [← mass_mul]
    refine mass_congr_of_pos countable fun a listed weighs => ?_
    rw [same a listed weighs, mul_one]
  rw [callShare, wholeShare, calls, whole, ← div_eq_inv_mul, div_div]

/-- A pair of which both parts have weight shows the mass that its call lets pass. -/
theorem passing_of_share (countable : Countable as) (calls : ∀ a ∈ as, Countable (under a.value))
    (coherent : PassAlike p as under fun u v => u.alike v = true) {a : Weighted Exact}
    (listed : a ∈ as) (weighs : 0 < a.weight.toExact.toReal) (passes : 0 < passing p under a.value)
    (shares : ∀ t : Value Exact, t.isKey = true → callShare p as under t = wholeShare p as under t) :
    passing p under a.value * (mass as fun _ => 1) = mass as (passing p under) := by
  obtain ⟨c, hashable, pairs⟩ := exists_pairing_pos (calls a listed) passes
  set t : Value Exact := .tuple [a.value, c]
  -- Only the calls for values like the one of the pair make pairs like it.
  have only : (mass as fun b => pairing p under t b / passing p under b) =
      (passing p under a.value)⁻¹ * mass as (pairing p under t) := by
    rw [← mass_mul]
    refine mass_congr_of_pos countable fun b listed' weighs' => ?_
    by_cases like : b.value.alike a.value = true
    · rw [coherent b listed' a listed weighs' weighs like, div_eq_inv_mul]
    · rw [pairing_of_apart (Bool.eq_false_iff.mpr like), zero_div, mul_zero]
  have found : 0 < mass as (pairing p under t) :=
    mass_pos countable (fun b listed => pairing_nonneg (calls b listed)) listed weighs pairs
  have total : 0 < mass as fun _ => 1 :=
    mass_pos countable (fun _ _ => zero_le_one) listed weighs one_pos
  have whole : 0 < mass as (passing p under) :=
    mass_pos countable (fun b listed => passing_nonneg (calls b listed)) listed weighs passes
  have share := shares t (by simp [t, Value.isKey, allKeys, (countable a listed).2, hashable])
  rw [callShare, wholeShare, only, div_eq_div_iff total.ne' whole.ne', mul_right_comm,
    mul_comm _ (mass as _)] at share
  rw [← mul_left_cancel₀ found.ne' share, mul_inv_cancel_left₀ passes.ne']

/-- The two shares agree on every pair exactly if all calls let the same mass pass. -/
theorem callShare_eq_iff (countable : Countable as) (calls : ∀ a ∈ as, Countable (under a.value))
    (passes : ∀ a ∈ as, 0 < passing p under a.value) (some : 0 < mass as fun _ => 1)
    (coherent : PassAlike p as under fun u v => u.alike v = true) :
    (∀ t : Value Exact, t.isKey = true → callShare p as under t = wholeShare p as under t) ↔
      PassAlike p as under fun _ _ => True := by
  constructor
  · intro shares a listed b listed' weighs weighs' _
    have first := passing_of_share countable calls coherent listed weighs (passes a listed) shares
    have second := passing_of_share countable calls coherent listed' weighs' (passes b listed') shares
    exact mul_right_cancel₀ some.ne' (first.trans second.symm)
  · intro same t _
    obtain ⟨a, listed, weighs, -⟩ := exists_of_mass_pos countable (fun _ => zero_le_one) some
    refine callShare_eq countable (z := passing p under a.value) (fun b listed' weighs' => ?_) t
    exact same b listed' a listed weighs' weighs trivial

end Masses

theorem Node.sampled_leaf {l : Leaf Exact} {items : List (Weighted Exact)}
    (supported : l.distribution.support = .ok items) (whole : (mass items fun _ => 1) = 1) (now : Nat) :
    (Node.leaf l).Sampled now items := by
  intro h _
  rw [Node.chance_leaf, Leaf.mean_law_of_support supported, whole, div_one]
  rfl

/-- Where sampling yields what is listed, a filter yields it out of what passes. -/
theorem Node.Sampled.chance_filter {objects : ObjectId → Prop} {now : Nat} {n : Node Exact}
    {items : List (Weighted Exact)} {p : Value Exact → Outcome Exact Bool} {h : Value Exact → ℝ}
    (sampled : n.Sampled now items) (early : ∀ id, objects id → id.stamp < now)
    (steady : n.Renamed (.keep objects) n) (weighs : n.Leaves Leaf.Weighs) (countable : Countable items)
    (decides : ∀ w ∈ items, ∃ b, p w.value = .ok b)
    (passes : 0 < mass items (answering p true fun _ => 1)) (fractional : Fractional h) :
    (n.filter p).chance now h =
      mass items (answering p true h) / mass items (answering p true fun _ => 1) := by
  have parts := mass_answers decides
  have refused := mass_nonneg countable fun c => (fractional_one.answering p false c).1
  have whole : 0 < mass items fun _ => 1 := by
    rw [parts]
    exact add_pos_of_pos_of_nonneg passes refused
  rw [Node.chance_filter early steady weighs fractional, sampled _ (fractional.answering p true),
    sampled _ (fractional_one.answering p false), one_sub_div whole.ne', ← eq_sub_of_add_eq parts.symm,
    div_div_div_cancel_right₀ whole.ne']

section Program

variable {own other : ObjectId → Prop} {now : Nat} {s : Node Exact} {d : Value Exact → Nat → Node Exact}
  {p : Value Exact → Outcome Exact Bool} {as : List (Weighted Exact)}
  {under : Value Exact → List (Weighted Exact)} {h : Value Exact → ℝ}

/-- What forward sampling yields for a value of the source: what its call yields where the predicate holds,
out of all that the predicate does not refuse. -/
noncomputable def callChance (d : Value Exact → Nat → Node Exact) (p : Value Exact → Outcome Exact Bool)
    (now : Nat) (h : Value Exact → ℝ) (a : Value Exact) : ℝ :=
  (d a now).chance (now + 1) (answering p true fun c => h (.tuple [a, c])) /
    (1 - (d a now).chance (now + 1) (answering p false fun _ => 1))

theorem callChance_eq (apart : Apart own other now s d) (weighs : ∀ v k, (d v k).Leaves Leaf.Weighs)
    (fractional : Fractional h) (a : Value Exact) :
    (Node.filter (d a now) p).chance (now + 1) (fun c => h (.tuple [a, c])) = callChance d p now h a :=
  Node.chance_filter apart.call_early (apart.call a) (weighs a now) fun _ => fractional _

theorem chance_conditioned (apart : Apart own other now s d)
    (weighs : s.Leaves Leaf.Weighs ∧ ∀ v k, (d v k).Leaves Leaf.Weighs) (fractional : Fractional h) :
    (conditioned s d p).chance now h = s.chance now (callChance d p now h) := by
  rw [conditioned, (apart.filter p).chance_bind weighs pair fractional]
  congr 1
  funext a
  exact callChance_eq apart weighs.2 fractional a

theorem tendsto_conditioned (apart : Apart own other now s d)
    (weighs : s.Leaves Leaf.Weighs ∧ ∀ v k, (d v k).Leaves Leaf.Weighs) (parts : Nat) {stamp : Nat}
    {cache : Cache Exact} (past : cache.Past) (later : now ≤ stamp) (t : Value Exact) :
    Tendsto (fun patience => mean (nextForward (Law.source parts) patience (conditioned s d p)) cache stamp
      fun b _ _ => likeness t b.value) atTop (𝓝 (s.chance now (callChance d p now (likeness t)))) := by
  rw [← chance_conditioned apart weighs (fractional_likeness t)]
  exact Node.tendsto_next ((apart.filter p).steady pair) apart.early weighs (fractional_likeness t) past later

theorem enumerates_conditioned (apart : Apart own other now s d) (source : s.Enumerates as)
    (calls : ∀ a ∈ as, (d a.value now).Enumerates (under a.value))
    (decides : ∀ a ∈ as, ∀ c ∈ under a.value, ∃ b, p c.value = .ok b) :
    ∃ joint, (conditioned s d p).Enumerates joint ∧ ∀ h, mass joint h =
      mass as fun a => mass (under a) (answering p true fun c => h (.tuple [a, c])) := by
  -- Enumeration makes its calls at one stamp, the traversal at another; they list the same.
  have kept (v : Value Exact) (value : ∃ a ∈ as, a.value = v) : ∃ items,
      (Node.filter (d v 0) p).Enumerates items ∧ ∀ h, mass items h = mass (under v) (answering p true h) := by
    obtain ⟨a, listed, rfl⟩ := value
    have ⟨enumerated, countable⟩ := calls a listed
    rw [(apart.calls a.value now 0).enumerate_eq] at enumerated
    exact Node.Enumerates.filter ⟨enumerated, countable⟩ (decides a listed)
  choose! items called masses using kept
  have pairs (a : Weighted Exact) (listed : a ∈ as) (c : Weighted Exact) (member : c ∈ items a.value) :
      ∃ r, pair a.value c.value = .ok r ∧ r.isKey = true := by
    have hashable := ((called _ ⟨a, listed, rfl⟩).countable c member).2
    exact ⟨_, rfl, by simp [Value.isKey, allKeys, (source.countable a listed).2, hashable]⟩
  obtain ⟨joint, enumerated, sums⟩ : ∃ joint, (conditioned s d p).Enumerates joint ∧
      ∀ h, mass joint h = mass as fun v => mass (items v) fun u => Outcome.worth h (pair v u) :=
    source.bind (fun a listed => called _ ⟨a, listed, rfl⟩) pairs
  refine ⟨joint, enumerated, fun h => ?_⟩
  rw [sums]
  refine mass_congr fun a listed => ?_
  rw [masses _ ⟨a, listed, rfl⟩]
  rfl

/-- Exact inference conditions the program as a whole. -/
theorem infer_conditioned (apart : Apart own other now s d) (source : s.Enumerates as)
    (calls : ∀ a ∈ as, (d a.value now).Enumerates (under a.value))
    (decides : ∀ a ∈ as, ∀ c ∈ under a.value, ∃ b, p c.value = .ok b)
    (some : 0 < mass as fun _ => 1) (passes : ∀ a ∈ as, 0 < passing p under a.value) :
    ∃ table, infer .ok (conditioned s d p) = .ok table ∧ ∀ t : Value Exact, t.isKey = true →
      table.density t = .ok (.finite (wholeShare p as under t)) := by
  obtain ⟨joint, ⟨enumerated, countable⟩, sum⟩ := enumerates_conditioned apart source calls decides
  have total : (mass joint fun _ => 1) = mass as (passing p under) := sum fun _ => 1
  have positive : 0 < mass as (passing p under) := by
    obtain ⟨a, listed, weight, -⟩ := exists_of_mass_pos source.countable (fun _ => zero_le_one) some
    exact mass_pos source.countable (fun b listed => passing_nonneg (calls b listed).countable) listed
      weight (passes a listed)
  obtain ⟨table, made, density⟩ := posterior_density countable (total ▸ positive)
  refine ⟨table, Outcome.bind_ok.mpr ⟨joint, enumerated, made⟩, fun t hashable => ?_⟩
  rw [density t hashable, total, sum]
  rfl

/-- Where sampling yields what is listed, the chance of a pair is its share in its own call. -/
theorem chance_callShare (apart : Apart own other now s d)
    (weighs : ∀ v k, (d v k).Leaves Leaf.Weighs) (calls : ∀ a ∈ as, Countable (under a.value))
    (decides : ∀ a ∈ as, ∀ c ∈ under a.value, ∃ b, p c.value = .ok b)
    (passes : ∀ a ∈ as, 0 < passing p under a.value) (sampled : s.Sampled now as)
    (called : ∀ a ∈ as, (d a.value now).Sampled (now + 1) (under a.value)) (t : Value Exact) :
    s.chance now (callChance d p now (likeness t)) = callShare p as under t := by
  have yields (a : Value Exact) := callChance_eq (p := p) apart weighs (fractional_likeness t) a
  have fractional : Fractional (callChance d p now (likeness t)) := by
    intro a
    rw [← yields a]
    exact Node.fractional_chance (weighs a now) (fractional_pair t a)
  rw [sampled _ fractional, callShare]
  congr 1
  refine mass_congr fun a listed => ?_
  rw [← yields, (called a listed).chance_filter apart.call_early (apart.call a.value) (weighs _ _)
    (calls a listed) (decides a listed) (passes a listed) (fractional_pair t a.value)]
  rfl

/-- Forward sampling conditions each call by itself: it yields a pair with the chance of the value times the
chance of what the call yields, out of what passes in this call.  Exact inference takes the pair out of all
that passes.  Where sampling yields what is listed, the two agree on all pairs exactly if all calls let the
same mass pass. -/
theorem sampling_conditions_calls (apart : Apart own other now s d)
    (weighs : s.Leaves Leaf.Weighs ∧ ∀ v k, (d v k).Leaves Leaf.Weighs) (source : s.Enumerates as)
    (some : 0 < mass as fun _ => 1) (calls : ∀ a ∈ as, (d a.value now).Enumerates (under a.value))
    (decides : ∀ a ∈ as, ∀ c ∈ under a.value, ∃ b, p c.value = .ok b)
    (passes : ∀ a ∈ as, 0 < passing p under a.value) :
    (∀ (parts stamp : Nat) (cache : Cache Exact) (t : Value Exact), cache.Past → now ≤ stamp →
      Tendsto (fun patience => mean (nextForward (Law.source parts) patience (conditioned s d p)) cache stamp
        fun b _ _ => likeness t b.value) atTop (𝓝 (s.chance now (callChance d p now (likeness t))))) ∧
    (∃ table, infer .ok (conditioned s d p) = .ok table ∧ ∀ t : Value Exact, t.isKey = true →
      table.density t = .ok (.finite (wholeShare p as under t))) ∧
    (s.Sampled now as → (∀ a ∈ as, (d a.value now).Sampled (now + 1) (under a.value)) →
      (∀ t, s.chance now (callChance d p now (likeness t)) = callShare p as under t) ∧
      (PassAlike p as under (fun u v => u.alike v = true) →
        ((∀ t : Value Exact, t.isKey = true → callShare p as under t = wholeShare p as under t) ↔
          PassAlike p as under fun _ _ => True))) := by
  have countable (a : Weighted Exact) (listed : a ∈ as) := (calls a listed).countable
  refine ⟨fun parts stamp cache t past later => ?_, ?_, fun sampled called => ⟨fun t => ?_, ?_⟩⟩
  · exact tendsto_conditioned apart weighs parts past later t
  · exact infer_conditioned apart source calls decides some passes
  · exact chance_callShare apart weighs.2 countable decides passes sampled called t
  · exact callShare_eq_iff source.countable countable passes some

end Program

section Example

noncomputable def flipOf (id : ObjectId) (x : ℝ) : Leaf Exact :=
  ⟨id, .flip (.real (.finite x)) (.real (.finite x))⟩

noncomputable def flipItems (x : ℝ) : List (Weighted Exact) :=
  [⟨.bool true, .real (.finite x)⟩, ⟨.bool false, .real (.finite (1 - x))⟩]

theorem mass_flipItems (x : ℝ) (h : Value Exact → ℝ) :
    mass (flipItems x) h = x * h (.bool true) + (1 - x) * h (.bool false) := by
  simp [mass, flipItems]

theorem flipOf_support (id : ObjectId) (x : ℝ) :
    (flipOf id x).distribution.support = .ok (flipItems x) := by
  simp [flipOf, flipItems, Distribution.support, Number.sub, Number.combine, Number.one, Exact.one_eq]

theorem flipOf_leaf (id : ObjectId) {x : ℝ} (nonneg : 0 ≤ x) (atMost : x ≤ 1) (now : Nat) :
    (flipOf id x).Weighs ∧ (Node.leaf (flipOf id x)).Enumerates (flipItems x) ∧
      (Node.leaf (flipOf id x)).Sampled now (flipItems x) := by
  have supported := flipOf_support id x
  refine ⟨Leaf.weighs_of_support supported ?_ ?_, ⟨supported, ?_⟩, Node.sampled_leaf supported ?_ now⟩
  · simp [flipItems, nonneg, atMost]
  · simp [flipItems]
  · simp [Countable, flipItems, Value.isKey, Exact.isMass_finite, nonneg, atMost]
  · simp [mass_flipItems]

noncomputable def bias (x y : ℝ) : Value Exact → ℝ
  | .bool true => x
  | _ => y

noncomputable def biased (x y : ℝ) (a : Value Exact) (k : Nat) : Node Exact :=
  .leaf (flipOf ⟨k, 0⟩ (bias x y a))

noncomputable def firstFlip (x : ℝ) : Node Exact :=
  .leaf (flipOf ⟨0, 0⟩ x)

theorem biased_apart (first x y : ℝ) :
    Apart (· = ⟨0, 0⟩) (fun _ => False) 1 (firstFlip first) (biased x y) where
  disjoint _ _ := id
  early := by
    rintro id (rfl | none)
    · exact zero_lt_one
    · exact none.elim
  source := .leaf ⟨rfl, rfl⟩ rfl
  calls v k k' := .leaf (.inr ⟨0, rfl, rfl⟩) rfl

theorem passing_truth (x y : ℝ) (a : Value Exact) :
    passing Value.truth (fun a => flipItems (bias x y a)) a = bias x y a := by
  simp [passing, mass_flipItems, answering, Value.truth, Outcome.worth]

theorem truth_decides (x : ℝ) : ∀ c ∈ flipItems x, ∃ b, c.value.truth = .ok b := by
  simp [flipItems, Value.truth]

section Biased

variable {x y : ℝ} (first : 0 < x ∧ x ≤ 1) (second : 0 < y ∧ y ≤ 1)

include first second

theorem bias_within (a : Value Exact) : 0 < bias x y a ∧ bias x y a ≤ 1 := by
  unfold bias
  split
  · exact first
  · exact second

theorem biased_leaf (a : Value Exact) (k now : Nat) : (biased x y a k).Leaves Leaf.Weighs ∧
    (biased x y a k).Enumerates (flipItems (bias x y a)) ∧
      (biased x y a k).Sampled now (flipItems (bias x y a)) :=
  have within := bias_within first second a
  flipOf_leaf _ within.1.le within.2 now

end Biased

/-- Two fair flips made by two calls are sampled as they are inferred. -/
theorem sampling_conditions_calls_even : ∃ table,
    infer .ok (conditioned (firstFlip (1 / 2)) (biased (1 / 2) (1 / 2)) Value.truth) = .ok table ∧
      ∀ t : Value Exact, t.isKey = true → ∃ share, table.density t = .ok (.finite share) ∧
        Tendsto (fun patience => mean (nextForward (Law.source 1) patience
          (conditioned (firstFlip (1 / 2)) (biased (1 / 2) (1 / 2)) Value.truth)) {} 1
            fun b _ _ => likeness t b.value) atTop (𝓝 share) := by
  have half : (0 : ℝ) < 1 / 2 ∧ (1 / 2 : ℝ) ≤ 1 := by norm_num
  have ⟨weighs, source, sampled⟩ := flipOf_leaf ⟨0, 0⟩ half.1.le half.2 1
  have leaf := biased_leaf half half
  have same (a : Value Exact) : bias (1 / 2) (1 / 2) a = 1 / 2 := by
    unfold bias
    split <;> rfl
  have passes (a : Value Exact) :
      passing Value.truth (fun a => flipItems (bias (1 / 2) (1 / 2) a)) a = 1 / 2 :=
    (passing_truth _ _ a).trans (same a)
  obtain ⟨yields, ⟨table, made, density⟩, agrees⟩ := sampling_conditions_calls (p := Value.truth)
    (biased_apart (1 / 2) (1 / 2) (1 / 2)) ⟨weighs, fun v k => (leaf v k 2).1⟩ source
    (by norm_num [mass_flipItems]) (fun a _ => (leaf a.value 1 2).2.1) (fun a _ => truth_decides _)
    (fun a _ => by rw [passes]; norm_num)
  obtain ⟨share, agree⟩ := agrees sampled fun a _ => (leaf a.value 1 2).2.2
  have even (related : Value Exact → Value Exact → Prop) : PassAlike Value.truth (flipItems (1 / 2))
      (fun a => flipItems (bias (1 / 2) (1 / 2) a)) related := by
    intro a _ b _ _ _ _
    rw [passes, passes]
  have equal := (agree (even _)).mpr (even _)
  refine ⟨table, made, fun t hashable => ⟨_, density t hashable, ?_⟩⟩
  rw [← equal t hashable, ← share t]
  exact yields 1 1 {} t Cache.past_new le_rfl

theorem likeness_both (u v : Bool) :
    likeness (.tuple [.bool true, .bool true]) (.tuple [.bool u, .bool v]) = if u && v then 1 else 0 := by
  cases u <;> cases v <;>
    simp [likeness, Value.alike, Value.equalBy, allEqualBy, Value.number?, Number.equalBy, Bool.toInt]

theorem pairing_both (x y : ℝ) (u : Bool) : pairing Value.truth (fun a => flipItems (bias x y a))
    (.tuple [.bool true, .bool true]) (.bool u) = if u then x else 0 := by
  cases u <;> simp [pairing, mass_flipItems, answering, Value.truth, Outcome.worth, likeness_both, bias]

/-- A fair flip under the one call and a sure one under the other: sampling yields the pair of the fair one as
often as its call is made, but exact inference counts it by what passes. -/
theorem uneven_calls_disagree :
    Apart (· = ⟨0, 0⟩) (fun _ => False) 1 (firstFlip (1 / 2)) (biased (1 / 2) 1) ∧
    (∀ a : Value Exact, 0 < passing Value.truth (fun a => flipItems (bias (1 / 2) 1 a)) a) ∧
    Tendsto (fun patience => mean (nextForward (Law.source 1) patience
      (conditioned (firstFlip (1 / 2)) (biased (1 / 2) 1) Value.truth)) {} 1
        fun b _ _ => likeness (.tuple [.bool true, .bool true]) b.value) atTop (𝓝 (1 / 2)) ∧
    ∃ table, infer .ok (conditioned (firstFlip (1 / 2)) (biased (1 / 2) 1) Value.truth) = .ok table ∧
      table.density (.tuple [.bool true, .bool true]) = .ok (.finite (1 / 3)) := by
  have half : (0 : ℝ) < 1 / 2 ∧ (1 / 2 : ℝ) ≤ 1 := by norm_num
  have sure : (0 : ℝ) < 1 ∧ (1 : ℝ) ≤ 1 := by norm_num
  have ⟨weighs, source, sampled⟩ := flipOf_leaf ⟨0, 0⟩ half.1.le half.2 1
  have leaf := biased_leaf half sure
  have apart := biased_apart (1 / 2) (1 / 2) 1
  have all : (firstFlip (1 / 2)).Leaves Leaf.Weighs ∧ ∀ v k, (biased (1 / 2) 1 v k).Leaves Leaf.Weighs :=
    ⟨weighs, fun v k => (leaf v k 2).1⟩
  have passes (a : Value Exact) : 0 < passing Value.truth (fun a => flipItems (bias (1 / 2) 1 a)) a := by
    rw [passing_truth]
    exact (bias_within half sure a).1
  refine ⟨apart, passes, ?_, ?_⟩
  · have limit := tendsto_conditioned (p := Value.truth) apart all 1 Cache.past_new le_rfl
      (.tuple [.bool true, .bool true])
    rw [chance_callShare apart all.2 (fun a _ => (leaf a.value 1 2).2.1.countable)
      (fun a _ => truth_decides _) (fun a _ => passes a.value) sampled
      (fun a _ => (leaf a.value 1 2).2.2)] at limit
    have share : callShare Value.truth (flipItems (1 / 2)) (fun a => flipItems (bias (1 / 2) 1 a))
        (.tuple [.bool true, .bool true]) = 1 / 2 := by
      simp only [callShare, mass_flipItems, pairing_both, passing_truth]
      norm_num [bias]
    rwa [share] at limit
  · obtain ⟨table, made, density⟩ := infer_conditioned apart source (fun a _ => (leaf a.value 1 2).2.1)
      (fun a _ => truth_decides _) (by norm_num [mass_flipItems]) fun a _ => passes a.value
    have share : wholeShare Value.truth (flipItems (1 / 2)) (fun a => flipItems (bias (1 / 2) 1 a))
        (.tuple [.bool true, .bool true]) = 1 / 3 := by
      simp only [wholeShare, mass_flipItems, pairing_both, passing_truth]
      norm_num [bias]
    exact ⟨table, made, by rw [density _ rfl, share]⟩

end Example

end ChanceGraph
