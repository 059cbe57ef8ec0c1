import ChanceGraph.Proofs.Alike

/-!
Leaves with equal keys: what the key of a leaf says of its density, of its table and of its draws, and
what it does not say where a function groups the values of a table.
-/

set_option autoImplicit false

namespace ChanceGraph

def Outcome.Related {S α β : Type} (r : α → β → Prop) : Outcome S α → Outcome S β → Prop
  | .ok a, .ok b => r a b
  | .error _, .error _ => True
  | _, _ => False

namespace Distribution

/-- A distribution of one of the classes of leaves, as the class makes it. -/
inductive Made : Distribution Exact → Prop where
  | constant (v : Value Exact) : Made (.constant v)
  | flip {p : Value Exact} {d : Distribution Exact} (made : makeFlip p = .ok d) : Made d
  | gaussian {mu sigma : Value Exact} {d : Distribution Exact} (made : makeGaussian mu sigma = .ok d) :
    Made d
  | exponential {rate : Value Exact} {d : Distribution Exact} (made : makeExponential rate = .ok d) :
    Made d
  | uniform {low high : Value Exact} {d : Distribution Exact} (made : makeUniform low high = .ok d) :
    Made d
  | geometric {p : Value Exact} {d : Distribution Exact} (made : makeGeometric p = .ok d) : Made d
  | multivariate {mean : List (Value Exact)} {covariance : List (List (Value Exact))}
    {d : Distribution Exact} (made : makeMultivariate mean covariance = .ok d) : Made d
  | enumeration {items : List (TableItem Exact)} {keyOf : Grouping Exact} {d : Distribution Exact}
    (made : makeEnumeration items keyOf = .ok d) : Made d
  | multinomial {states : List (Value Exact)} {probabilities : Option (List (Value Exact))}
    {d : Distribution Exact} (made : makeMultinomial states probabilities = .ok d) : Made d
  | truncatedGeometric {p a b : Value Exact} {d : Distribution Exact}
    (made : makeTruncatedGeometric p a b = .ok d) : Made d

/-- Every value has one density under both, their tables list like values with the same weights, or
neither has one, and the same numbers draw like values. -/
structure Interchangeable (d d' : Distribution Exact) : Prop where
  density : ∀ v, (d.density v).map Number.toExact = (d'.density v).map Number.toExact
  tables : Outcome.Related (List.Forall₂ fun a b : Weighted Exact =>
    a.value.alike b.value = true ∧ a.weight.toExact = b.weight.toExact) d.support d'.support
  draws : ∀ before us, Outcome.Related (fun u v : Value Exact => u.alike v = true)
    (d.draw before us) (d'.draw before us)

end Distribution

theorem Group.find?_alike {groups groups' : List (Group Exact Exact)}
    (keyed : List.Forall₂ (fun g h => g.key.alike h.key = true ∧ g.weight = h.weight) groups groups')
    (key : Value Exact) :
    (find? key groups).map (·.weight) = (find? key groups').map (·.weight) := by
  induction keyed with
  | nil => rfl
  | @cons g h rest rest' head _ ih =>
    simp only [find?, List.find?_cons] at ih ⊢
    rw [Value.alike_congr head.1 key]
    cases h.key.alike key with
    | true => simp [head.2]
    | false => exact ih

namespace Table

def Sampled (t : Table Exact) : Prop :=
  AliasSampler.build (t.groups.map (·.value)) (t.groups.map (·.weight)) = .ok t.sampler

theorem sampled_of_build {keyOf : Grouping Exact} {items : List (TableItem Exact)} {t : Table Exact}
    (built : Table.build keyOf items = .ok t) : t.Sampled ∧ t.keyOf = keyOf := by
  obtain ⟨given, -, built⟩ := Outcome.bind_ok.mp built
  obtain ⟨keys, total, parts⟩ := ofGroups_ok built
  exact ⟨parts.sampled, keys⟩

def KeyedLike (t t' : Table Exact) : Prop :=
  List.Forall₂ (fun g h => g.key.alike h.key = true ∧ g.weight = h.weight) t.groups t'.groups

/-- The groups of two tables have like values, and each table's function finds the weights that the
other's does. -/
structure GroupsLike (t t' : Table Exact) : Prop where
  values : List.Forall₂ (fun g h => g.value.alike h.value = true) t.groups t'.groups
  weights : ∀ v, t.density v = density { t with keyOf := t'.keyOf } v

variable {t t' : Table Exact}

theorem KeyedLike.density (keyed : t.KeyedLike t') (v : Value Exact) :
    t'.density v = Table.density { t with keyOf := t'.keyOf } v := by
  rw [density_eq, density_eq]
  simp only [Group.find?_alike keyed]

theorem pick?_of_build {elements : List (Value Exact)} {weights : List Exact}
    {s : AliasSampler (Value Exact) Exact} (built : AliasSampler.build elements weights = .ok s) :
    s = ⟨elements, .ofWeights weights (weights.foldl (· + ·) 0)⟩ := by
  simp only [AliasSampler.build, Outcome.ite_ok, reduceCtorEq, and_false, false_or,
    Except.ok.injEq] at built
  exact built.2.2.2.2.symm

theorem getElem?_related {α β : Type} {r : α → β → Prop} {xs : List α} {ys : List β}
    (each : List.Forall₂ r xs ys) (i : Nat) :
    (xs[i]? = none ∧ ys[i]? = none) ∨ ∃ x y, xs[i]? = some x ∧ ys[i]? = some y ∧ r x y := by
  have lengths := each.length_eq
  by_cases inside : i < xs.length
  · have inside' : i < ys.length := by omega
    exact .inr ⟨xs[i], ys[i], List.getElem?_eq_getElem inside, List.getElem?_eq_getElem inside',
      each.get inside inside'⟩
  · exact .inl ⟨List.getElem?_eq_none (by omega), List.getElem?_eq_none (by omega)⟩

/-- Two tables with the same weights choose by the same numbers from the same places. -/
theorem KeyedLike.draws (keyed : t.KeyedLike t') (sampled : t.Sampled) (sampled' : t'.Sampled)
    (values : List.Forall₂ (fun g h => g.value.alike h.value = true) t.groups t'.groups) (u v : Exact) :
    (t.sampler.pick? u v = none ∧ t'.sampler.pick? u v = none) ∨
      ∃ x y, t.sampler.pick? u v = some x ∧ t'.sampler.pick? u v = some y ∧ x.alike y = true := by
  have weights : t.groups.map (·.weight) = t'.groups.map (·.weight) := by
    rw [← List.forall₂_eq_eq_eq, List.forall₂_map_left_iff, List.forall₂_map_right_iff]
    exact keyed.imp fun _ _ head => head.2
  have size : t.groups.length = t'.groups.length := values.length_eq
  rw [pick?_of_build sampled, pick?_of_build sampled', weights]
  simp only [AliasSampler.pick?, AliasSampler.size, List.length_map, size, List.getElem?_map]
  -- The columns are made from the weights alone, so both tables choose the same place.
  generalize (Columns.ofWeights _ _ : Columns Exact).choose _ _ = i
  rcases getElem?_related values i with ⟨outside, outside'⟩ | ⟨g, h, listed, listed', alike⟩
  · simp [outside, outside']
  · exact .inr ⟨g.value, h.value, by simp [listed], by simp [listed'], alike⟩

end Table

namespace Distribution

/-- What equal keys say of two distributions. -/
inductive Matched : Distribution Exact → Distribution Exact → Prop where
  | constant {u v : Value Exact} (alike : u.alike v = true) : Matched (.constant u) (.constant v)
  | flip {given given' : Value Exact} {p p' : Number Exact} (same : p.toExact = p'.toExact) :
    Matched (.flip given p) (.flip given' p')
  | tableless {d : Distribution Exact} {e : Fault Exact} (none : d.support = .error e) : Matched d d
  | finite {o o' : Origin Exact} {t t' : Table Exact} (keyed : t.KeyedLike t') (sampled : t.Sampled)
    (sampled' : t'.Sampled) : Matched (.finite o t) (.finite o' t')

def GroupsLike (d d' : Distribution Exact) : Prop :=
  ∀ o o' t t', d = .finite o t → d' = .finite o' t' → t.GroupsLike t'

theorem sub_one_eq (p : Number Exact) : Number.sub .one p = .ok (.real (1 - p.toExact)) := by
  simp [Number.sub, Number.combine, Number.one]

theorem interchangeable_constant {u v : Value Exact} (alike : u.alike v = true) :
    (constant u).Interchangeable (constant v) where
  density _ := rfl
  tables := .cons ⟨alike, rfl⟩ .nil
  draws _ _ := alike

theorem interchangeable_flip {given given' : Value Exact} {p p' : Number Exact}
    (same : p.toExact = p'.toExact) : (flip given p).Interchangeable (flip given' p') where
  density v := by
    cases truth : v.truth with
    | error e => simp [density, truth, bind, Except.bind, Except.map]
    | ok b => cases b <;> simp [density, truth, sub_one_eq, same, pure, Except.pure, Except.map]
  tables := by
    simp only [support, sub_one_eq, Outcome.ok_bind, same]
    exact .cons ⟨Value.alike_refl _, same⟩ (.cons ⟨Value.alike_refl _, rfl⟩ .nil)
  draws before us := by
    have threshold (u : Exact) : (Number.real u).lt p = (Number.real u).lt p' := by
      rw [Bool.eq_iff_iff, Number.lt_exact, Number.lt_exact, same]
    rcases us with _ | ⟨u, _ | _⟩
    · trivial
    · simp only [draw, Outcome.Related, threshold]
      exact Value.alike_refl _
    · trivial

theorem interchangeable_tableless {d : Distribution Exact} {e : Fault Exact}
    (none : d.support = .error e) : d.Interchangeable d where
  density _ := rfl
  tables := by
    rw [none]
    trivial
  draws before us := by
    cases d.draw before us with
    | error e => trivial
    | ok v => exact Value.alike_refl v

theorem interchangeable_finite {o o' : Origin Exact} {t t' : Table Exact} (keyed : t.KeyedLike t')
    (sampled : t.Sampled) (sampled' : t'.Sampled) :
    (finite o t).Interchangeable (finite o' t') ↔ t.GroupsLike t' := by
  have real (x : Outcome Exact Exact) : (do return Number.real (← x) : Outcome Exact (Number Exact)).map
      Number.toExact = x := by
    cases x <;> rfl
  constructor
  · intro same
    refine ⟨?_, fun v => ?_⟩
    · -- The tables list what the groups show, in their order.
      have tables := same.tables
      simp only [support, Table.support, Outcome.Related, List.forall₂_map_left_iff,
        List.forall₂_map_right_iff] at tables
      exact tables.imp fun _ _ both => both.1
    · have densities := same.density v
      simp only [density, real] at densities
      rw [densities, keyed.density]
  · intro groups
    refine ⟨fun v => ?_, ?_, fun before us => ?_⟩
    · simp only [density, real]
      rw [groups.weights, keyed.density]
    · simp only [support, Table.support, Outcome.Related, List.forall₂_map_left_iff,
        List.forall₂_map_right_iff]
      exact groups.values.mp (fun _ _ value weight => ⟨value, weight.2⟩) keyed
    · rcases us with _ | ⟨u, _ | ⟨v, _ | _⟩⟩
      · trivial
      · trivial
      · simp only [draw]
        rcases keyed.draws sampled sampled' groups.values u v with
          ⟨missed, missed'⟩ | ⟨x, y, picked, picked', alike⟩
        · rw [missed, missed']
          trivial
        · rw [picked, picked']
          exact alike
      · trivial

theorem Matched.interchangeable_iff {d d' : Distribution Exact} (matched : Matched d d') :
    d.Interchangeable d' ↔ d.GroupsLike d' := by
  cases matched with
  | constant alike => exact iff_of_true (interchangeable_constant alike) nofun
  | flip same => exact iff_of_true (interchangeable_flip same) nofun
  | tableless none =>
    refine iff_of_true (interchangeable_tableless none) ?_
    rintro o o' t t' rfl -
    cases none
  | finite keyed sampled sampled' =>
    refine (interchangeable_finite keyed sampled sampled').trans ⟨?_, fun groups => groups _ _ _ _ rfl rfl⟩
    rintro groups _ _ _ _ ⟨⟩ ⟨⟩
    exact groups

end Distribution

namespace Table

def Built (t : Table Exact) : Prop :=
  ∃ items, Table.build t.keyOf items = .ok t

theorem built_of_build {keyOf : Grouping Exact} {items : List (TableItem Exact)} {t : Table Exact}
    (built : Table.build keyOf items = .ok t) : t.Built := by
  obtain ⟨-, rfl⟩ := sampled_of_build built
  exact ⟨items, built⟩

theorem Built.sampled {t : Table Exact} (built : t.Built) : t.Sampled := by
  obtain ⟨items, built⟩ := built
  exact (sampled_of_build built).1

theorem Built.plain {t : Table Exact} (built : t.Built) (unkeyed : t.keyOf = .ok) : t.Plain := by
  obtain ⟨items, built⟩ := built
  rw [unkeyed] at built
  exact plain_of_build built

theorem KeyedLike.groupsLike {t t' : Table Exact} (keyed : t.KeyedLike t') (plain : t.Plain)
    (plain' : t'.Plain) : t.GroupsLike t' where
  values := by
    have shown {t : Table Exact} (plain : t.Plain) : t.groups.map (·.key) = t.groups.map (·.value) :=
      List.map_congr_left fun g member => (plain.distinct.keyed g member).1
    have keys : List.Forall₂ (fun u v : Value Exact => u.alike v = true) (t.groups.map (·.key))
        (t'.groups.map (·.key)) := by
      rw [List.forall₂_map_left_iff, List.forall₂_map_right_iff]
      exact keyed.imp fun _ _ head => head.1
    rw [shown plain, shown plain', List.forall₂_map_left_iff, List.forall₂_map_right_iff] at keys
    exact keys
  weights v := by
    rw [plain'.keyOf, ← plain.keyOf]

end Table

namespace Distribution

noncomputable def truncatedTable (q : Exact) (low high : Int) : Outcome Exact (Table Exact) := do
  let upTo ← geometricCumulative q (.int high)
  let norm := upTo - (← geometricCumulative q (.int low))
  let items ← (← integersBetween (.int low) (.int high)).mapM (truncatedItem q norm)
  Table.build .ok items

theorem lt_integers {u v : Value Exact} {m n : Int} (first : u.integer? = some m)
    (second : v.integer? = some n) : u.lt v = .ok (decide (m < n)) := by
  rw [Value.lt, Value.precedes_number (Value.number_of_integer first), numberPrecedes,
    Value.number_of_integer second]
  rfl

theorem equal_integers {u v : Value Exact} {m n : Int} (first : u.integer? = some m)
    (second : v.integer? = some n) : u.equal v = decide (m = n) := by
  rw [Value.equal, Value.equalBy_number (Value.number_of_integer first), Value.number_of_integer second]
  exact beq_eq_decide m n

theorem geometricCumulative_integer {v : Value Exact} {n : Int} (integer : v.integer? = some n)
    (q : Exact) : geometricCumulative q v = geometricCumulative q (.int n) := by
  have added : v.add (.int 1) = (Value.int n).add (.int 1) := by
    simp only [Value.add, Value.numeric, Value.number_of_integer integer]
    rfl
  rw [geometricCumulative, geometricCumulative, added]

theorem integersBetween_integers {u v : Value Exact} {m n : Int} (first : u.integer? = some m)
    (second : v.integer? = some n) :
    integersBetween u v = integersBetween (.int m) (.int n) := by
  simp only [integersBetween, first, second]
  rfl

theorem integers_of_between {u v : Value Exact} {between : List Int}
    (found : integersBetween u v = .ok between) :
    ∃ m n, u.integer? = some m ∧ v.integer? = some n := by
  unfold integersBetween at found
  split at found
  · next m n first second => exact ⟨m, n, first, second⟩
  · cases found

theorem truncatedTable_of_ends {u v : Value Exact} {m n : Int} {q upTo before : Exact}
    {between : List Int} {items : List (TableItem Exact)} {t : Table Exact}
    (first : u.integer? = some m) (second : v.integer? = some n)
    (cumulative : geometricCumulative q v = .ok upTo) (cumulative' : geometricCumulative q u = .ok before)
    (found : integersBetween u v = .ok between)
    (listed : between.mapM (truncatedItem q (upTo - before)) = .ok items)
    (built : Table.build .ok items = .ok t) : truncatedTable q m n = .ok t := by
  rw [geometricCumulative_integer second] at cumulative
  rw [geometricCumulative_integer first] at cumulative'
  rw [integersBetween_integers first second] at found
  rw [truncatedTable, cumulative, Outcome.ok_bind, cumulative', Outcome.ok_bind, found, Outcome.ok_bind,
    listed, Outcome.ok_bind, built]

theorem number_of_inOpenUnit {p : Value Exact} (inside : p.inOpenUnit = .ok true) :
    ∃ n, p.number? = some n := by
  simp only [Value.inOpenUnit, Value.within, Outcome.bind_ok, Outcome.ite_ok] at inside
  obtain ⟨_, low, ⟨rfl, -⟩ | ⟨-, outside⟩⟩ := inside
  · obtain ⟨n, known, -⟩ := Value.holds_of_precedes rfl low
    exact ⟨n, known⟩
  · cases outside

theorem truncated_of_make {p a b : Value Exact} {d : Distribution Exact}
    (made : makeTruncatedGeometric p a b = .ok d) :
    ∃ q m n t, d = .finite (.truncatedGeometric p a b) t ∧ p.number? = some q ∧ a.integer? = some m ∧
      b.integer? = some n ∧ truncatedTable q.toExact (min m n) (max m n) = .ok t ∧ t.Built ∧
      t.keyOf = .ok := by
  unfold makeTruncatedGeometric at made
  simp only [Outcome.bind_ok, Outcome.ite_ok, Outcome.pure_ok, Outcome.throw_ne_ok, false_and,
    exists_false, and_false, or_false, false_or] at made
  obtain ⟨_, inside, rfl, less, below, more, above, differ, q, scalar, upTo, cumulative, before, cumulative',
    between, found, items, listed, t, built, rfl⟩ := made
  obtain ⟨n, number⟩ := number_of_inOpenUnit inside
  rw [Value.toScalar_number number] at scalar
  cases scalar
  obtain ⟨low, high, first, second⟩ := integers_of_between found
  have table := truncatedTable_of_ends first second cumulative cumulative' found listed built
  have keyOf := (Table.sampled_of_build built).2
  -- The ends are apart, so that each of them is one of the two bounds.
  rw [equal_integers first second] at differ
  have apart : low ≠ high := by simpa using differ
  cases less <;> cases more <;> simp only [if_true, if_false, Bool.false_eq_true] at first second
  case false.false => exact absurd (Option.some.inj (first.symm.trans second)) apart
  case true.true => exact absurd (Option.some.inj (first.symm.trans second)) apart
  case false.true =>
    have ordered : low < high := by simpa [Value.gt, lt_integers first second] using above
    refine ⟨n, low, high, t, rfl, number, first, second, ?_, Table.built_of_build built, keyOf⟩
    rw [min_eq_left ordered.le, max_eq_right ordered.le, table]
  case true.false =>
    have ordered : low < high := by simpa [lt_integers first second] using below
    refine ⟨n, high, low, t, rfl, number, second, first, ?_, Table.built_of_build built, keyOf⟩
    rw [min_eq_right ordered.le, max_eq_left ordered.le, table]

end Distribution

namespace Distribution

/-- A distribution as its parameters give it. -/
inductive Shape : Distribution Exact → Prop where
  | constant (v : Value Exact) : Shape (.constant v)
  | flip {given : Value Exact} {p : Number Exact} {x : ℝ} (number : given.number? = some p)
    (value : p.toExact = .finite x) (nonnegative : 0 ≤ x) (atMost : x ≤ 1) : Shape (.flip given p)
  | gaussian (mu sigma : Exact) : Shape (.gaussian mu sigma)
  | exponential (rate : Exact) : Shape (.exponential rate)
  | uniform (low high : Exact) : Shape (.uniform low high)
  | geometric (p : Exact) : Shape (.geometric p)
  | multivariate {m : Multivariate Exact} (built : Multivariate.build m.mean m.covariance = .ok m) :
    Shape (.multivariate m)
  | enumeration {t : Table Exact} (built : t.Built) : Shape (.finite .enumeration t)
  | multinomial {t : Table Exact} (built : t.Built) (unkeyed : t.keyOf = .ok) :
    Shape (.finite .multinomial t)
  | truncatedGeometric {p a b : Value Exact} {q : Number Exact} {m n : Int} {t : Table Exact}
    (number : p.number? = some q) (first : a.integer? = some m) (second : b.integer? = some n)
    (table : truncatedTable q.toExact (min m n) (max m n) = .ok t) (built : t.Built)
    (unkeyed : t.keyOf = .ok) : Shape (.finite (.truncatedGeometric p a b) t)

theorem multivariate_of_build {mean : List Exact} {covariance : List (List Exact)}
    {m : Multivariate Exact} (built : Multivariate.build mean covariance = .ok m) :
    m.mean = mean ∧ m.covariance = covariance := by
  simp only [Multivariate.build, Outcome.bind_ok, Outcome.ite_ok, Outcome.throw_ne_ok, and_false,
    false_or, false_and, exists_false] at built
  obtain ⟨-, -, -, built⟩ := built
  split at built
  · cases built
    exact ⟨rfl, rfl⟩
  · cases built

theorem Made.shape {d : Distribution Exact} (made : d.Made) : d.Shape := by
  -- The shape keeps the parameters and forgets what was checked of them.
  cases made with
  | constant v => exact .constant v
  | flip made =>
    obtain ⟨p, x, rfl, number, value, nonnegative, atMost⟩ := flip_of_make made
    exact .flip number value nonnegative atMost
  | gaussian made =>
    simp only [makeGaussian, Outcome.bind_ok, Outcome.ite_ok, Outcome.pure_ok, Outcome.throw_ne_ok,
      false_and, exists_false, and_false, or_false, false_or] at made
    obtain ⟨_, -, -, mu, -, sigma, -, -, rfl⟩ := made
    exact .gaussian mu sigma
  | exponential made =>
    simp only [makeExponential, Outcome.bind_ok, Outcome.ite_ok, Outcome.pure_ok, Outcome.throw_ne_ok,
      false_and, exists_false, and_false, or_false] at made
    obtain ⟨_, -, -, rate, -, rfl⟩ := made
    exact .exponential rate
  | uniform made =>
    simp only [makeUniform, Outcome.bind_ok, Outcome.ite_ok, Outcome.pure_ok, Outcome.throw_ne_ok,
      false_and, exists_false, and_false, or_false, false_or] at made
    obtain ⟨_, -, -, low, -, high, -, -, rfl⟩ := made
    exact .uniform low high
  | geometric made =>
    simp only [makeGeometric, Outcome.bind_ok, Outcome.ite_ok, Outcome.pure_ok, Outcome.throw_ne_ok,
      false_and, exists_false, and_false, or_false] at made
    obtain ⟨_, -, -, p, -, rfl⟩ := made
    exact .geometric p
  | multivariate made =>
    simp only [makeMultivariate, Outcome.bind_ok, Outcome.pure_ok] at made
    obtain ⟨mean, -, covariance, -, m, built, rfl⟩ := made
    obtain ⟨rfl, rfl⟩ := multivariate_of_build built
    exact .multivariate built
  | enumeration made =>
    obtain ⟨t, built, made⟩ := Outcome.bind_ok.mp made
    cases made
    exact .enumeration (Table.built_of_build built)
  | multinomial made =>
    obtain ⟨t, built, rfl⟩ := build_of_multinomial made
    exact .multinomial (Table.built_of_build built) (Table.sampled_of_build built).2
  | truncatedGeometric made =>
    obtain ⟨q, m, n, t, rfl, number, first, second, table, built, unkeyed⟩ := truncated_of_make made
    exact .truncatedGeometric number first second table built unkeyed

end Distribution

namespace Distribution

variable {d d' : Distribution Exact}

/-- The factor is computed from the covariance, which is a parameter. -/
theorem multivariate_of_alike {m m' : Multivariate Exact}
    (built : Multivariate.build m.mean m.covariance = .ok m)
    (built' : Multivariate.build m'.mean m'.covariance = .ok m') {u u' : Value Exact}
    (parameters : (multivariate m).parameters = .ok u) (parameters' : (multivariate m').parameters = .ok u')
    (alike : u.alike u' = true) : m = m' := by
  cases parameters
  cases parameters'
  obtain ⟨means, rest⟩ := Value.tuple_alike alike
  have rows := (Value.tuple_alike rest).1
  simp only [Value.alike, Value.equalBy] at rows
  have mean : m.mean = m'.mean := Value.reals_of_alike means
  have covariance : m.covariance = m'.covariance :=
    allEqualBy_map (fun _ _ => Value.reals_of_alike) rows
  rw [mean, covariance, built'] at built
  exact (Except.ok.inj built).symm

/-- Equal names are those of one class, and like parameters determine what the class makes of them. -/
theorem Shape.matched (shape : d.Shape) (shape' : d'.Shape) (names : d.name = d'.name)
    {u u' : Value Exact} (parameters : d.parameters = .ok u) (parameters' : d'.parameters = .ok u')
    (alike : u.alike u' = true) : d.Matched d' := by
  cases shape with
  | constant v =>
    cases shape' with
    | constant v' =>
      cases parameters
      cases parameters'
      exact .constant (Value.tuple_alike alike).1
    | _ => simp [name] at names
  | flip number =>
    cases shape' with
    | flip number' =>
      cases parameters
      cases parameters'
      obtain ⟨_, known, same⟩ := Value.toExact_of_alike (Value.tuple_alike alike).1 number
      rw [number'] at known
      cases known
      exact .flip same
    | _ => simp [name] at names
  | gaussian mu sigma =>
    cases shape' with
    | gaussian mu' sigma' =>
      cases parameters
      cases parameters'
      have same : [mu, sigma] = [mu', sigma'] := Value.reals_of_alike alike
      cases same
      exact .tableless rfl
    | _ => simp [name] at names
  | exponential rate =>
    cases shape' with
    | exponential rate' =>
      cases parameters
      cases parameters'
      have same : [rate] = [rate'] := Value.reals_of_alike alike
      cases same
      exact .tableless rfl
    | _ => simp [name] at names
  | uniform low high =>
    cases shape' with
    | uniform low' high' =>
      cases parameters
      cases parameters'
      have same : [low, high] = [low', high'] := Value.reals_of_alike alike
      cases same
      exact .tableless rfl
    | _ => simp [name] at names
  | geometric p =>
    cases shape' with
    | geometric p' =>
      cases parameters
      cases parameters'
      have same : [p] = [p'] := Value.reals_of_alike alike
      cases same
      exact .tableless rfl
    | _ => simp [name] at names
  | @multivariate m built =>
    cases shape' with
    | @multivariate m' built' =>
      obtain rfl := multivariate_of_alike built built' parameters parameters' alike
      exact .tableless rfl
    | _ => simp [name] at names
  | enumeration built =>
    cases shape' with
    | enumeration built' =>
      cases parameters
      cases parameters'
      exact .finite (Group.forall₂_of_alike alike) built.sampled built'.sampled
    | _ => simp [name] at names
  | multinomial built =>
    cases shape' with
    | multinomial built' =>
      cases parameters
      cases parameters'
      exact .finite (Group.forall₂_of_alike alike) built.sampled built'.sampled
    | _ => simp [name] at names
  | truncatedGeometric number first second table built =>
    cases shape' with
    | truncatedGeometric number' first' second' table' built' =>
      cases parameters
      cases parameters'
      obtain ⟨probability, rest⟩ := Value.tuple_alike alike
      obtain ⟨left, rest⟩ := Value.tuple_alike rest
      obtain ⟨_, known, same⟩ := Value.toExact_of_alike probability number
      rw [number'] at known
      cases known
      obtain rfl := Value.integer_of_alike left first first'
      obtain rfl := Value.integer_of_alike (Value.tuple_alike rest).1 second second'
      -- The probability may be an integer here and a real number there; the tables are the same.
      rw [same, table'] at table
      cases table
      exact .finite (List.forall₂_same.mpr fun g _ => ⟨Value.alike_refl _, rfl⟩) built.sampled
        built'.sampled
    | _ => simp [name] at names

def Unkeyed (d : Distribution Exact) : Prop :=
  ∀ o t, d = .finite o t → t.keyOf = .ok

theorem Shape.built (shape : d.Shape) {o : Origin Exact} {t : Table Exact} (form : d = .finite o t) :
    t.Built := by
  cases shape <;> cases form <;> assumption

end Distribution

/-- Leaves with equal keys are interchangeable exactly if their tables show like values and their
functions group all values alike.  Where no function groups values, equal keys are enough. -/
theorem interchangeable_iff_groupsLike {l l' : Leaf Exact} (made : l.distribution.Made)
    (made' : l'.distribution.Made) {k k' : LeafKey Exact} (key : l.key = .ok k) (key' : l'.key = .ok k')
    (same : k.same k' = true) :
    (l.distribution.Interchangeable l'.distribution ↔ l.distribution.GroupsLike l'.distribution) ∧
      (l.distribution.Unkeyed → l'.distribution.Unkeyed →
        l.distribution.Interchangeable l'.distribution) := by
  obtain ⟨u, parameters, named⟩ := Outcome.bind_ok.mp key
  obtain ⟨u', parameters', named'⟩ := Outcome.bind_ok.mp key'
  cases named
  cases named'
  obtain ⟨names, alike⟩ : l.distribution.name = l'.distribution.name ∧ u.alike u' = true := by
    simpa [LeafKey.same] using same
  have matched := made.shape.matched made'.shape names parameters parameters' alike
  refine ⟨matched.interchangeable_iff, fun unkeyed unkeyed' => matched.interchangeable_iff.mpr ?_⟩
  intro o o' t t' form form'
  have plain := (made.shape.built form).plain (unkeyed o t form)
  have plain' := (made'.shape.built form').plain (unkeyed' o' t' form')
  rw [form, form'] at matched
  cases matched with
  | tableless none => cases none
  | finite keyed => exact keyed.groupsLike plain plain'

section Example

noncomputable def lump (v : Value Exact) : Outcome Exact (Distribution Exact) :=
  Distribution.makeEnumeration [(v, .real 1)] fun _ => .ok (.int 0)

theorem lump_makes (v : Value Exact) : ∃ s, lump v =
    .ok (.finite .enumeration ⟨fun _ => .ok (.int 0), [⟨.int 0, v, .finite 1⟩], s⟩) := by
  have grouped : groupItems (fun _ => .ok (.int 0)) [(v, .real 1)] =
      (.ok [⟨.int 0, v, .real 1⟩] : Outcome Exact (List (Group Exact (Value Exact)))) := rfl
  have total : exactSumBy (fun g : Group Exact (Value Exact) => g.weight.toScalar)
      [⟨.int 0, v, .real 1⟩] = .ok (.finite 1) := by
    rw [exactSumBy_finite (r := fun _ => 1)]
    · simp
    · intro g member
      obtain rfl := List.mem_singleton.mp member
      rfl
  have shared : (⟨.int 0, v, (1 : Exact) / .finite 1⟩ : Group Exact Exact) = ⟨.int 0, v, .finite 1⟩ := by
    rw [Exact.one_eq, Exact.finite_div one_ne_zero, div_one]
  have above : ¬ (1 : Exact) < 0 ∧ ¬ (1 : Exact) ≤ 0 := by
    simp [Exact.zero_eq, Exact.one_eq]
  have sampled : ∃ s, AliasSampler.build [v] [(.finite 1 : Exact)] = .ok s := by
    refine ⟨⟨[v], .ofWeights [.finite 1] (.finite 1)⟩, ?_⟩
    have sum : (0 : Exact) + 1 = 1 := by simp [Exact.zero_eq, Exact.one_eq]
    simp [AliasSampler.build, above, ← Exact.one_eq, sum]
  obtain ⟨s, sampled⟩ := sampled
  refine ⟨s, Outcome.bind_ok.mpr ⟨_, Outcome.bind_ok.mpr ⟨_, grouped, ?_⟩, rfl⟩⟩
  unfold Table.ofGroups
  simp only [Outcome.bind_ok, Outcome.ite_ok, Outcome.pure_ok, Outcome.throw_ne_ok, false_and,
    exists_false, and_false, false_or]
  refine ⟨by simp, _, total, above.2, [⟨.int 0, v, .finite 1⟩], ?_, s, sampled, rfl⟩
  exact congrArg (Except.ok [·]) shared

theorem lump_made {v : Value Exact} {d : Distribution Exact} (made : lump v = .ok d) : d.Made :=
  .enumeration made

theorem interchangeable_iff_groupsLike_lumps : ∃ l l' : Leaf Exact,
    lump (.int 1) = .ok l.distribution ∧ lump (.bool true) = .ok l'.distribution ∧
      l.distribution.Interchangeable l'.distribution := by
  obtain ⟨s, made⟩ := lump_makes (.int 1)
  obtain ⟨s', made'⟩ := lump_makes (.bool true)
  refine ⟨⟨⟨0, 0⟩, _⟩, ⟨⟨0, 1⟩, _⟩, made, made', ?_⟩
  refine (interchangeable_iff_groupsLike (lump_made made) (lump_made made') rfl rfl ?_).1.mpr ?_
  · simp [LeafKey.same, Distribution.name, Value.alike_refl]
  · rintro o o' t t' ⟨⟩ ⟨⟩
    refine ⟨.cons ?_ .nil, fun v => rfl⟩
    simp [Value.alike, Value.equalBy, Value.number?, Number.equalBy]

/-- The key of a table has nothing of the values that stand in it. -/
theorem lumps_not_interchangeable : ∃ (l l' : Leaf Exact) (k k' : LeafKey Exact),
    lump (.int 2) = .ok l.distribution ∧ lump (.int 3) = .ok l'.distribution ∧ l.distribution.Made ∧
      l'.distribution.Made ∧ l.key = .ok k ∧ l'.key = .ok k' ∧ k.same k' = true ∧
      ¬ l.distribution.Interchangeable l'.distribution := by
  obtain ⟨s, made⟩ := lump_makes (.int 2)
  obtain ⟨s', made'⟩ := lump_makes (.int 3)
  refine ⟨⟨⟨0, 0⟩, _⟩, ⟨⟨0, 1⟩, _⟩, _, _, made, made', lump_made made, lump_made made', rfl, rfl, ?_, ?_⟩
  · simp [LeafKey.same, Distribution.name, Value.alike_refl]
  · intro same
    have tables := same.tables
    simp [Distribution.support, Table.support, Outcome.Related, Value.alike, Value.equalBy,
      Value.number?, Number.equalBy] at tables

end Example

end ChanceGraph
