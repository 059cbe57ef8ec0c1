import ChanceGraph.Proofs.Generations
import ChanceGraph.Proofs.Renaming
import ChanceGraph.Proofs.Runs
import ChanceGraph.Proofs.Tables

/-!
Samplers against the enumeration: what a traversal yields is an item of it, whose weight is that of
the sample times what the tables of the leaves say of the values seen there.
-/

set_option autoImplicit false

namespace ChanceGraph

variable {S σ : Type}

/-- The leaves that are met on the paths of the enumeration, whatever the stamps of calls are. -/
inductive Leaf.Occurs [Scalar S] (l : Leaf S) : Node S → Prop where
  | leaf : l.Occurs (.leaf l)
  | weightedMap {n : Node S} {project : Value S → Outcome S (Weighted S)} (source : l.Occurs n) :
    l.Occurs (.weightedMap n project)
  | source {n : Node S} {dependent : Value S → Nat → Node S}
    {combine : Value S → Value S → Outcome S (Weighted S)} (source : l.Occurs n) :
    l.Occurs (.weightedBind n dependent combine)
  | dependent {n : Node S} {dependent : Value S → Nat → Node S}
    {combine : Value S → Value S → Outcome S (Weighted S)} {items : List (Weighted S)}
    {a : Weighted S} (stamp : Nat) (enumerated : enumerate n = .ok items) (member : a ∈ items)
    (called : l.Occurs (dependent a.value stamp)) : l.Occurs (.weightedBind n dependent combine)
  | filter {n : Node S} {predicate : Predicate S} (source : l.Occurs n) :
    l.Occurs (.filter n predicate)

/-- A graph whose leaves draw from their tables, and whose interchangeable leaves have one table. -/
structure Tabled [Scalar S] (source : Source (StateM σ) S) (root : Node S) : Prop where
  steady : root.Steady
  draws : ∀ (l : Leaf S) v, l.Occurs root → source.Draws l v → ∃ w, l.Lists v w
  objects : ∀ l l' : Leaf S, l.Occurs root → l'.Occurs root → l.id = l'.id →
    l.distribution.support = l'.distribution.support
  keys : ∀ (l l' : Leaf S) k k', l.Occurs root → l'.Occurs root → l.key = .ok k → l'.key = .ok k' →
    k.same k' = true → l.distribution.support = l'.distribution.support

/-- A visit that saw a value of its leaf's table. -/
def Visit.Listed [Scalar S] (root : Node S) (v : Visit S) : Prop :=
  v.leaf.Occurs root ∧ ∃ w, v.leaf.Lists v.value w

structure Fits [Scalar S] (root : Node S) (cache : Cache S) : Prop where
  past : cache.Past
  lists : ∀ id v, cache.get? id = some v → ∀ l : Leaf S, l.Occurs root → l.id = id →
    ∃ w, l.Lists v w

/-- Items of the tables of the visited leaves, with the values seen there. -/
def Chosen [Scalar S] (visits : List (Visit S)) (items : List (Weighted S)) : Prop :=
  List.Forall₂ (fun v w => v.leaf.Lists v.value w) visits items

/-- The outcome is an item of the enumeration, of the weight that the tables give it. -/
def Walked.Accounted (a : Walked Exact) (items : List (Weighted Exact)) : Prop :=
  ∀ chosen, Chosen a.visits chosen → ∃ item ∈ items, item.value = a.sample.value ∧
    item.weight.toExact = a.sample.weight * (chosen.map (·.weight.toExact)).prod

theorem chosen_append [Scalar S] {xs ys : List (Visit S)} {items : List (Weighted S)}
    (each : Chosen (xs ++ ys) items) :
    ∃ first second, Chosen xs first ∧ Chosen ys second ∧ items = first ++ second := by
  induction xs generalizing items with
  | nil => exact ⟨[], items, .nil, each, rfl⟩
  | cons x xs ih =>
    rcases each with _ | ⟨head, tail⟩
    obtain ⟨first, second, left, right, rfl⟩ := ih tail
    exact ⟨_ :: first, second, .cons head left, right, rfl⟩

theorem exists_chosen [Scalar S] {root : Node S} {visits : List (Visit S)}
    (listed : ∀ v ∈ visits, v.Listed root) : ∃ items, Chosen visits items := by
  induction visits with
  | nil => exact ⟨[], .nil⟩
  | cons v rest ih =>
    obtain ⟨⟨-, w, head⟩, listed⟩ := List.forall_mem_cons.mp listed
    obtain ⟨items, tail⟩ := ih listed
    exact ⟨w :: items, .cons head tail⟩

section Weights

theorem product_append (xs ys : List Exact) : (xs ++ ys).prod = xs.prod * ys.prod := by
  induction xs with
  | nil => simp [Exact.one_mul]
  | cons x xs ih => simp [ih, Exact.mul_assoc]

theorem project_exact {a s : Sample Exact} {r : Weighted Exact} (projects : a.project r = .ok s) :
    s = ⟨r.value, a.weight * r.weight.toExact⟩ := by
  simpa [Sample.project, pure, Except.pure] using projects.symm

theorem combine_exact {a c s : Sample Exact} {r : Weighted Exact} (combines : a.combine c r = .ok s) :
    s = ⟨r.value, r.weight.toExact * a.weight * c.weight⟩ := by
  simpa [Sample.combine, pure, Except.pure] using combines.symm

theorem projected_exact {project : Value Exact → Outcome Exact (Weighted Exact)}
    {a b r : Weighted Exact} (projects : project a.value = .ok r)
    (made : projected project a = .ok b) :
    b.value = r.value ∧ b.weight.toExact = a.weight.toExact * r.weight.toExact := by
  obtain ⟨w, product, weight⟩ := Number.mul_exact a.weight r.weight
  simp only [projected, projects, Outcome.ok_bind, product] at made
  cases made
  exact ⟨rfl, weight⟩

theorem combined_exact {combine : Value Exact → Value Exact → Outcome Exact (Weighted Exact)}
    {a b c r : Weighted Exact} (combines : combine a.value c.value = .ok r)
    (made : combined combine a c = .ok b) :
    b.value = r.value ∧
      b.weight.toExact = a.weight.toExact * c.weight.toExact * r.weight.toExact := by
  obtain ⟨u, first, firstWeight⟩ := Number.mul_exact a.weight c.weight
  obtain ⟨w, second, weight⟩ := Number.mul_exact u r.weight
  simp only [combined, combines, Outcome.ok_bind, first, second] at made
  cases made
  exact ⟨rfl, by rw [weight, firstWeight]⟩

end Weights

namespace Walked.Accounted

variable {a b c : Walked Exact} {items found : List (Weighted Exact)} {r : Weighted Exact}

theorem ofVisit {v : Visit Exact} {there : Progress Exact}
    (table : v.leaf.distribution.support = .ok items) : (Walked.ofVisit v there).Accounted items := by
  intro chosen each
  rcases each with _ | ⟨⟨_, known, member, value⟩, rest⟩
  cases rest
  rw [table] at known
  cases known
  refine ⟨_, member, value, ?_⟩
  simp only [Walked.ofVisit, Sample.ofValue, List.map_cons, List.map_nil, List.prod_cons,
    List.prod_nil]
  rw [Exact.one_mul, Exact.mul_comm, Exact.one_mul]

theorem project {project : Value Exact → Outcome Exact (Weighted Exact)}
    (accounted : a.Accounted items) (mapped : items.mapM (projected project) = .ok found)
    (projects : project a.sample.value = .ok r) (result : a.project r = .ok b) :
    b.Accounted found := by
  obtain ⟨s, sample, rfl⟩ := Walked.project_ok result
  obtain rfl := project_exact sample
  intro chosen each
  obtain ⟨item, member, value, weight⟩ := accounted chosen each
  obtain ⟨image, member, made⟩ := Outcome.mem_of_mapM mapped member
  rw [← value] at projects
  obtain ⟨imageValue, imageWeight⟩ := projected_exact projects made
  refine ⟨image, member, imageValue, ?_⟩
  rw [imageWeight, weight]
  dsimp only
  ac_rfl

theorem combine (dependent : Value Exact → Outcome Exact (List (Weighted Exact)))
    {combine : Value Exact → Value Exact → Outcome Exact (Weighted Exact)}
    {inner : List (Weighted Exact)} {lists : List (List (Weighted Exact))}
    (first : a.Accounted items) (second : c.Accounted inner)
    (called : dependent a.sample.value = .ok inner)
    (mapped : items.mapM (fun a => do (← dependent a.value).mapM (combined combine a)) = .ok lists)
    (combines : combine a.sample.value c.sample.value = .ok r) (result : a.combine c r = .ok b) :
    b.Accounted lists.flatten := by
  obtain ⟨s, sample, rfl⟩ := Walked.combine_ok result
  obtain rfl := combine_exact sample
  intro chosen each
  -- The chosen items belong to the source or to the call, each of which has its own item.
  obtain ⟨chosen₁, chosen₂, each₁, each₂, rfl⟩ := chosen_append each
  obtain ⟨item₁, member₁, value₁, weight₁⟩ := first chosen₁ each₁
  obtain ⟨item₂, member₂, value₂, weight₂⟩ := second chosen₂ each₂
  obtain ⟨list, inLists, made⟩ := Outcome.mem_of_mapM mapped member₁
  rw [value₁, called, Outcome.ok_bind] at made
  obtain ⟨image, member, made⟩ := Outcome.mem_of_mapM made member₂
  rw [← value₁, ← value₂] at combines
  obtain ⟨imageValue, imageWeight⟩ := combined_exact combines made
  refine ⟨image, List.mem_flatten_of_mem inLists member, imageValue, ?_⟩
  rw [imageWeight, weight₁, weight₂, List.map_append, product_append]
  dsimp only
  ac_rfl

theorem pass {predicate : Predicate Exact} (accounted : a.Accounted items)
    (holds : predicate a.sample.value = .ok true)
    (filtered : items.filterM (fun a => predicate a.value) = .ok found) :
    (a.pass predicate).Accounted found := by
  intro chosen each
  obtain ⟨item, member, value, weight⟩ := accounted chosen each
  refine ⟨item, Outcome.mem_of_filterM filtered member ?_, value, weight⟩
  rw [value]
  exact holds

end Walked.Accounted

/-- What a sampler knows, draws or keeps for a leaf of the graph is in the leaf's table. -/
structure LeafRules.WithinTables [Scalar S] (rules : LeafRules S) (root : Node S) : Prop where
  direct : ∀ (l : Leaf S) v, l.Occurs root → rules.direct l = some v → ∃ w, l.Lists v w
  obtained : ∀ (l : Leaf S) v, l.Occurs root → rules.draws l v ∨ rules.keeps l v → ∃ w, l.Lists v w

section Walks

variable [Scalar S] {source : Source (StateM σ) S} {root : Node S} {rules : LeafRules S}
  {here : Progress S} {cache cache' : Cache S}

theorem Fits.advance (past : cache.Past) : Fits root cache.advance where
  past := past.advance
  lists id v seen := by simp [Cache.get?_advance past] at seen

theorem Tabled.meets (tabled : Tabled source root) (within : rules.WithinTables root) {l : Leaf S}
    {v : Visit S} {there : Progress S} (meets : Meets rules l here cache v there cache')
    (occurs : l.Occurs root) (fits : Fits root cache) :
    Fits root cache' ∧ v.leaf = l ∧ v.Listed root := by
  cases meets with
  | direct known => exact ⟨fits, rfl, occurs, within.direct l _ occurs known⟩
  | held indirect held notes => exact ⟨fits, rfl, occurs, fits.lists _ _ held l occurs rfl⟩
  | obtained indirect absent obtained notes =>
    obtain ⟨w, lists⟩ := within.obtained l _ occurs obtained
    refine ⟨⟨fits.past.put _ _, ?_⟩, rfl, occurs, w, lists⟩
    intro id u seen l' occurs' same
    by_cases now : l.id = id
    · rw [now, Cache.get?_put_self] at seen
      cases seen
      obtain ⟨table, known, member⟩ := lists
      exact ⟨w, table, tabled.objects l l' occurs occurs' (now.trans same.symm) ▸ known, member⟩
    · rw [Cache.get?_put_of_ne now] at seen
      exact fits.lists id u seen l' occurs' same

omit [Scalar S] in
theorem Meets.choices {l : Leaf S} {v : Visit S} {there : Progress S}
    (meets : Meets rules l here cache v there cache') :
    ∀ c ∈ there.trace.choices, c ∈ here.trace.choices ∨
      ∃ u ∈ [v], u.leaf = c.leaf ∧ u.value = c.value := by
  have noted {u : Visit S} (notes : here.Notes u.leaf u.value there) :
      ∀ c ∈ there.trace.choices, c ∈ here.trace.choices ∨
        ∃ u' ∈ [u], u'.leaf = c.leaf ∧ u'.value = c.value := by
    intro c member
    rcases notes with rfl | ⟨score, reused, rfl⟩
    · exact .inl member
    · refine (List.mem_append.mp member).imp_right fun last => ?_
      obtain rfl := List.mem_singleton.mp last
      exact ⟨u, List.mem_singleton_self u, rfl, rfl⟩
  cases meets with
  | direct known => exact fun c member => .inl member
  | held _ _ notes => exact noted notes
  | obtained _ _ _ notes => exact noted notes

theorem passed_of_walks {n : Node S} {a : Walked S} (walks : Walks rules n here cache a cache') :
    ∀ q ∈ a.passed, q.1 q.2 = .ok true := by
  induction walks with
  | leaf => simp [Walked.ofVisit]
  | weightedMap _ _ result ih =>
    obtain ⟨_, -, rfl⟩ := Walked.project_ok result
    exact ih
  | weightedBind _ _ _ _ result ihFirst ihSecond =>
    obtain ⟨_, -, rfl⟩ := Walked.combine_ok result
    exact List.forall_mem_append.mpr ⟨ihFirst, ihSecond⟩
  | accepted _ holds ih => exact List.forall_mem_append.mpr ⟨ih, by simpa using holds⟩
  | rejected _ _ _ _ ih => exact ih

theorem choices_of_walks {n : Node S} {a : Walked S} (walks : Walks rules n here cache a cache') :
    ∀ c ∈ a.here.trace.choices, c ∈ here.trace.choices ∨
      ∃ v ∈ a.visits, v.leaf = c.leaf ∧ v.value = c.value := by
  induction walks with
  | leaf meets => exact meets.choices
  | weightedMap _ _ result ih =>
    obtain ⟨_, -, rfl⟩ := Walked.project_ok result
    exact ih
  | weightedBind _ _ _ _ result ihFirst ihSecond =>
    obtain ⟨_, -, rfl⟩ := Walked.combine_ok result
    intro c member
    rcases ihSecond c member with earlier | ⟨v, visited, same⟩
    · rcases ihFirst c earlier with before | ⟨v, visited, same⟩
      · exact .inl before
      · exact .inr ⟨v, List.mem_append_left _ visited, same⟩
    · exact .inr ⟨v, List.mem_append_right _ visited, same⟩
  | accepted _ _ ih => exact ih
  | rejected _ _ _ _ ih => exact ih

end Walks

theorem Tabled.walks {source : Source (StateM σ) Exact} {root : Node Exact}
    (tabled : Tabled source root) {rules : LeafRules Exact} (within : rules.WithinTables root)
    {n : Node Exact} {here : Progress Exact} {cache cache' : Cache Exact} {a : Walked Exact}
    (walks : Walks rules n here cache a cache') {r : Renaming} (renamed : n.Renamed r n)
    {items : List (Weighted Exact)} (enumerated : enumerate n = .ok items)
    (inside : ∀ l : Leaf Exact, l.Occurs n → l.Occurs root) (fits : Fits root cache) :
    Fits root cache' ∧ (∀ v ∈ a.visits, v.Listed root) ∧ a.Accounted items := by
  induction walks generalizing r items with
  | leaf meets =>
    obtain ⟨fits, rfl, listed⟩ := tabled.meets within meets (inside _ .leaf) fits
    exact ⟨fits, by simpa [Walked.ofVisit] using listed, .ofVisit enumerated⟩
  | weightedMap _ projects result ih =>
    obtain ⟨found, enumerated, mapped⟩ := Outcome.bind_ok.mp enumerated
    cases renamed with
    | weightedMap source =>
      obtain ⟨fits, listed, accounted⟩ :=
        ih source enumerated (fun l occurs => inside l (.weightedMap occurs)) fits
      have outcome := accounted.project mapped projects result
      obtain ⟨_, -, rfl⟩ := Walked.project_ok result
      exact ⟨fits, listed, outcome⟩
  | @weightedBind _ dependent _ _ _ _ _ _ _ _ _ stamp _ _ combines result ihFirst ihSecond =>
    obtain ⟨found, sourceItems, nested⟩ := Outcome.bind_ok.mp enumerated
    obtain ⟨lists, mapped, flattened⟩ := Outcome.bind_ok.mp nested
    obtain rfl := Outcome.pure_ok.mp flattened
    cases renamed with
    | weightedBind source calls =>
      obtain ⟨fits, listed, accounted⟩ :=
        ihFirst source sourceItems (fun l occurs => inside l (.source occurs)) fits
      -- The value of the source is enumerated, so the enumeration has its call too.
      obtain ⟨chosen, each⟩ := exists_chosen listed
      obtain ⟨item, member, value, -⟩ := accounted chosen each
      obtain ⟨list, -, made⟩ := Outcome.mem_of_mapM mapped member
      obtain ⟨inner, called, -⟩ := Outcome.bind_ok.mp made
      rw [value] at called
      -- The traversal makes its call at another stamp than the enumeration does.
      have again := (calls _ stamp 0).enumerate_eq.trans called
      obtain ⟨fits, listed', accounted'⟩ := ihSecond (calls _ stamp stamp) again
        (fun l occurs => inside l (.dependent stamp sourceItems member (value ▸ occurs))) fits
      have outcome := accounted.combine (fun v => enumerate (dependent v 0)) accounted' called mapped combines
        result
      obtain ⟨_, -, rfl⟩ := Walked.combine_ok result
      exact ⟨fits, List.forall_mem_append.mpr ⟨listed, listed'⟩, outcome⟩
  | accepted _ holds ih =>
    obtain ⟨found, enumerated, filtered⟩ := Outcome.bind_ok.mp enumerated
    cases renamed with
    | filter source =>
      obtain ⟨fits, listed, accounted⟩ :=
        ih source enumerated (fun l occurs => inside l (.filter occurs)) fits
      exact ⟨fits, listed, accounted.pass holds filtered⟩
  | rejected _ _ _ ihAttempt ihAgain =>
    obtain ⟨found, attempted, -⟩ := Outcome.bind_ok.mp enumerated
    cases renamed with
    | filter source =>
      obtain ⟨fits, -⟩ :=
        ihAttempt source attempted (fun l occurs => inside l (.filter occurs)) fits
      exact ihAgain (.filter source) enumerated inside (.advance fits.past)

/-- What is known of a traversal that yields a sample: its visits saw values of the tables, its trace
records visits only, and the enumeration has its outcome. -/
structure Walked.Sound (root : Node Exact) (items : List (Weighted Exact)) (a : Walked Exact) :
    Prop where
  listed : ∀ v ∈ a.visits, v.Listed root
  recorded : ∀ c ∈ a.here.trace.choices, ∃ v ∈ a.visits, v.leaf = c.leaf ∧ v.value = c.value
  accounted : a.Accounted items
  passed : ∀ q ∈ a.passed, q.1 q.2 = .ok true

section Samplers

variable {source : Source (StateM σ) Exact} {root : Node Exact} {items : List (Weighted Exact)}

theorem Tabled.sound (tabled : Tabled source root) (enumerated : enumerate root = .ok items)
    {rules : LeafRules Exact} (within : rules.WithinTables root) {cache cache' : Cache Exact}
    {a : Walked Exact} (past : cache.Past)
    (walks : Walks rules root ⟨{}, .empty⟩ cache.advance a cache') :
    cache'.Past ∧ a.Sound root items := by
  obtain ⟨fits, listed, accounted⟩ :=
    tabled.walks within walks tabled.steady enumerated (fun _ occurs => occurs) (.advance past)
  refine ⟨fits.past, listed, fun c member => ?_, accounted, passed_of_walks walks⟩
  exact (choices_of_walks walks c member).resolve_left List.not_mem_nil

theorem Tabled.forward (tabled : Tabled source root) :
    (LeafRules.forward source).WithinTables root where
  direct := nofun
  obtained l v occurs drawn := tabled.draws l v occurs (drawn.resolve_right nofun)

theorem Tabled.chain (tabled : Tabled source root) {p : Proposal Exact}
    (previous : ∀ c ∈ p.previous.choices, c.leaf.Occurs root ∧ ∃ w, c.leaf.Lists c.value w) :
    (LeafRules.chain source p).WithinTables root where
  direct l v occurs known := by
    cases form : l.distribution <;> simp [LeafRules.chain, form] at known
    subst known
    exact ⟨_, _, by rw [form]; rfl, List.mem_singleton_self _, rfl⟩
  obtained l v occurs obtained := by
    rcases obtained with drawn | ⟨address, old, kept, rfl⟩
    · exact tabled.draws l v occurs drawn
    · obtain ⟨member, -, k, k', key, key', same⟩ := Trace.find?_ok (Proposal.kept_ok kept)
      obtain ⟨oldOccurs, w, table, known, lists⟩ := previous old member
      exact ⟨w, table, tabled.keys _ _ k k' oldOccurs occurs key key' same ▸ known, lists⟩

theorem Tabled.upholds (tabled : Tabled source root) (enumerated : enumerate root = .ok items) :
    Upholds source root Cache.Past (Walked.Sound root items) where
  forward cache a cache' past walks := tabled.sound enumerated tabled.forward past walks
  chain p previous cache a cache' past walks := by
    refine tabled.sound enumerated (tabled.chain ?_) past walks
    rcases previous with empty | ⟨b, sound, trace⟩
    · simp [empty, Trace.empty]
    · intro c member
      rw [trace] at member
      obtain ⟨v, visited, leaf, value⟩ := sound.recorded c member
      rw [← leaf, ← value]
      exact sound.listed v visited

end Samplers

end ChanceGraph
