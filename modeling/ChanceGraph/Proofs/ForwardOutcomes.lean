import ChanceGraph.Proofs.Conditioning
import ChanceGraph.Proofs.Soundness

/-!
Forward sampling over all draws: without filters, and where no leaf is met twice, its outcomes with their
chances are the items of the enumeration, one by one.
-/

set_option autoImplicit false

namespace ChanceGraph

namespace Traversal

variable {α β γ δ : Type}

/-- What a traversal leads to from a cache and a next stamp, each outcome with what it leaves of both and
its chance. -/
noncomputable def leads (t : Traversal Chance Exact α) (cache : Cache Exact) (stamp : Nat) :
    List (((Outcome Exact α × Cache Exact) × Nat) × ℝ) :=
  ((t.run.run cache).run stamp).outcomes

noncomputable def outcomes (t : Traversal Chance Exact α) (cache : Cache Exact) (stamp : Nat) :
    List (Outcome Exact α × ℝ) :=
  (leads t cache stamp).map fun r => (r.1.1.1, r.2)

/-- What follows an outcome; a fault is followed by nothing. -/
noncomputable def onward (f : α → Traversal Chance Exact β) (r : (Outcome Exact α × Cache Exact) × Nat) :
    List (((Outcome Exact β × Cache Exact) × Nat) × ℝ) :=
  match r.1.1 with
  | .ok a => leads (f a) r.1.2 r.2
  | .error fault => [(((.error fault, r.1.2), r.2), 1)]

section Leads

variable (cache : Cache Exact) (stamp : Nat)

theorem leads_pure (a : α) :
    leads (pure a : Traversal Chance Exact α) cache stamp = [(((.ok a, cache), stamp), 1)] := rfl

theorem leads_ofOutcome (r : Outcome Exact α) :
    leads (ofOutcome r : Traversal Chance Exact α) cache stamp = [(((r, cache), stamp), 1)] := rfl

theorem leads_bind (t : Traversal Chance Exact α) (f : α → Traversal Chance Exact β) :
    leads (t >>= f) cache stamp =
      (leads t cache stamp).flatMap fun r => (onward f r.1).map fun s => (s.1, r.2 * s.2) := by
  unfold leads
  rw [ExceptT.run_bind, StateT.run_bind, StateT.run_bind]
  -- To bind a law is to go on from each of its outcomes.
  change List.flatMap _ _ = _
  congr 1
  funext r
  rcases r with ⟨⟨⟨_ | a, cache⟩, stamp⟩, p⟩ <;> rfl

theorem leads_get_bind (k : Cache Exact → Traversal Chance Exact α) :
    leads (do k (← get)) cache stamp = leads (k cache) cache stamp := by
  unfold leads
  rw [run_get_bind]

theorem leads_modify (f : Cache Exact → Cache Exact) :
    leads (modify f : Traversal Chance Exact PUnit) cache stamp = [(((.ok ⟨⟩, f cache), stamp), 1)] := by
  unfold leads
  rw [run_modify]
  rfl

theorem leads_advance_bind (t : Traversal Chance Exact α) :
    leads (do advance; t) cache stamp = leads t cache.advance stamp := by
  rw [leads_bind, advance, leads_modify]
  simp [onward]

theorem leads_fresh (parts : Nat) :
    leads (fresh (Law.source parts)) cache stamp = [(((.ok stamp, cache), stamp + 1), 1)] := by
  change (((pure (stamp, stamp + 1) : Law (Nat × Nat)) >>= fun r => pure (.ok r.1, r.2)) >>= fun r =>
    (pure ((r.1, cache), r.2) : Law ((Outcome Exact Nat × Cache Exact) × Nat))).outcomes = _
  simp only [pure_bind]
  rfl

theorem leads_fresh_bind (parts : Nat) (f : Nat → Traversal Chance Exact α) :
    leads (fresh (Law.source parts) >>= f) cache stamp = leads (f stamp) cache (stamp + 1) := by
  rw [leads_bind, leads_fresh]
  simp [onward]

theorem leads_map (f : α → β) (t : Traversal Chance Exact α) :
    leads (f <$> t) cache stamp =
      (leads t cache stamp).map fun r => (((r.1.1.1.map f, r.1.1.2), r.1.2), r.2) := by
  rw [map_eq_pure_bind, leads_bind, List.map_eq_flatMap]
  congr 1
  funext r
  rcases r with ⟨⟨⟨_ | a, cache⟩, stamp⟩, p⟩ <;> simp [onward, leads_pure, Except.map]

theorem leads_ofAction (x : Law (Outcome Exact α)) :
    leads (ofAction (StateT.lift x)) cache stamp = x.outcomes.map fun r => (((r.1, cache), stamp), r.2) := by
  change ((x >>= fun r => pure (r, stamp)) >>= fun r =>
    (pure ((r.1, cache), r.2) : Law ((Outcome Exact α × Cache Exact) × Nat))).outcomes = _
  rw [bind_assoc]
  change List.flatMap (fun r => [(((r.1, cache), stamp), r.2 * (1 * 1))]) x.outcomes = _
  simp [List.map_eq_flatMap]

theorem leads_sample {parts : Nat} {l : Leaf Exact} {table : List (Weighted Exact)}
    (supported : l.distribution.support = .ok table) (absent : cache.get? l.id = none) :
    leads (sample (Law.source parts) l) cache stamp =
      table.map fun w => (((.ok w.value, cache.put l.id w.value), stamp), w.weight.toExact.toReal) := by
  unfold sample
  rw [leads_get_bind]
  simp only [absent, leads_bind]
  rw [Law.source, leads_ofAction, Leaf.law, supported]
  rw [List.map_map, List.flatMap_map, List.map_eq_flatMap]
  congr 1
  funext w
  simp only [Function.comp_apply, onward, leads_bind, leads_modify]
  simp [leads_pure]

theorem leads_sample_held {parts : Nat} {l : Leaf Exact} {v : Value Exact} (held : cache.get? l.id = some v) :
    leads (sample (Law.source parts) l) cache stamp = [(((.ok v, cache), stamp), 1)] := by
  unfold sample
  rw [leads_get_bind]
  simp only [held, leads_pure]

end Leads

variable {t : Traversal Chance Exact α} {cache : Cache Exact} {stamp : Nat}

/-- The traversal leads to no fault, and only to what is so. -/
def Surely (t : Traversal Chance Exact α) (cache : Cache Exact) (stamp : Nat)
    (P : α → Cache Exact → Nat → Prop) : Prop :=
  ∀ r ∈ leads t cache stamp, ∃ a, r.1.1.1 = .ok a ∧ P a r.1.1.2 r.1.2

theorem surely_bind {f : α → Traversal Chance Exact β} {P : β → Cache Exact → Nat → Prop} :
    Surely (t >>= f) cache stamp P ↔
      Surely t cache stamp fun a cache stamp => Surely (f a) cache stamp P := by
  simp only [Surely, leads_bind, List.forall_mem_flatMap, List.forall_mem_map]
  refine forall₂_congr fun r _ => ?_
  rcases r with ⟨⟨⟨fault | a, _⟩, _⟩, _⟩ <;> simp [onward]

theorem Surely.imp {P Q : α → Cache Exact → Nat → Prop} (surely : Surely t cache stamp P)
    (weaker : ∀ a cache stamp, P a cache stamp → Q a cache stamp) : Surely t cache stamp Q := by
  intro r led
  obtain ⟨a, result, holds⟩ := surely r led
  exact ⟨a, result, weaker _ _ _ holds⟩

theorem surely_ofOutcome {r : Outcome Exact α} {P : α → Cache Exact → Nat → Prop} :
    Surely (ofOutcome r) cache stamp P ↔ ∃ a, r = .ok a ∧ P a cache stamp := by
  rw [Surely, leads_ofOutcome, List.forall_mem_singleton]

theorem surely_advance {P : α → Cache Exact → Nat → Prop} :
    Surely (do advance; t) cache stamp P ↔ Surely t cache.advance stamp P := by
  rw [Surely, leads_advance_bind]
  rfl

theorem surely_fresh {parts : Nat} {f : Nat → Traversal Chance Exact α} {P : α → Cache Exact → Nat → Prop} :
    Surely (fresh (Law.source parts) >>= f) cache stamp P ↔ Surely (f stamp) cache (stamp + 1) P := by
  rw [Surely, leads_fresh_bind]
  rfl

theorem leads_bind_ne {f : α → Traversal Chance Exact β} (some : leads t cache stamp ≠ [])
    (next : ∀ a cache stamp, leads (f a) cache stamp ≠ []) : leads (t >>= f) cache stamp ≠ [] := by
  obtain ⟨r, rest, led⟩ := List.exists_cons_of_ne_nil some
  rw [leads_bind, led, List.flatMap_cons]
  refine List.append_ne_nil_of_left_ne_nil ?_ _
  rw [ne_eq, List.map_eq_nil_iff, onward]
  cases r.1.1.1 with
  | ok a => exact next a _ _
  | error fault => exact List.cons_ne_nil _ _

/-- The traversal leads to one outcome for each item, in the order of the items. -/
def Itemizes (t : Traversal Chance Exact α) (cache : Cache Exact) (stamp : Nat)
    (R : α → Cache Exact → ℝ → β → Prop) (items : List β) : Prop :=
  List.Forall₂ (fun r b => ∃ a, r.1.1.1 = .ok a ∧ R a r.1.1.2 r.2 b) (leads t cache stamp) items

theorem itemizes_fresh {parts : Nat} {f : Nat → Traversal Chance Exact α} {R : α → Cache Exact → ℝ → β → Prop}
    {items : List β} : Itemizes (fresh (Law.source parts) >>= f) cache stamp R items ↔
      Itemizes (f stamp) cache (stamp + 1) R items := by
  rw [Itemizes, leads_fresh_bind]
  rfl

section Itemizes

variable {R : α → Cache Exact → ℝ → β → Prop} {S : γ → Cache Exact → ℝ → δ → Prop}
  {P : γ → Cache Exact → Nat → Prop} {items : List β}

theorem Itemizes.bind {f : α → Traversal Chance Exact γ} {e : β → Outcome Exact (List δ)}
    (first : Itemizes t cache stamp R items) (surely : Surely (t >>= f) cache stamp P)
    (next : ∀ a cache stamp p b, R a cache p b → Surely (f a) cache stamp P → ∃ list, e b = .ok list ∧
      Itemizes (f a) cache stamp (fun c cache q d => S c cache (p * q) d) list) :
    ∃ lists, items.mapM e = .ok lists ∧ Itemizes (t >>= f) cache stamp S lists.flatten := by
  have safe := surely_bind.mp surely
  unfold Itemizes at first ⊢
  rw [leads_bind]
  unfold Surely at safe
  generalize leads t cache stamp = led at first safe
  -- Each outcome goes on beside its own item, and what it leads to stays in one piece.
  induction first with
  | nil => exact ⟨[], rfl, .nil⟩
  | @cons r b led items related _ ih =>
    obtain ⟨⟨a', result', safely⟩, rest⟩ := List.forall_mem_cons.mp safe
    obtain ⟨a, result, related⟩ := related
    cases result.symm.trans result'
    obtain ⟨list, called, itemizes⟩ := next _ _ _ _ _ related safely
    obtain ⟨lists, mapped, itemized⟩ := ih rest
    refine ⟨list :: lists, by rw [List.mapM_cons, called, Outcome.ok_bind, mapped]; rfl, ?_⟩
    rw [List.flatMap_cons, List.flatten_cons, onward, result]
    refine List.rel_append ?_ itemized
    rw [List.forall₂_map_left_iff]
    exact itemizes

theorem Itemizes.ofOutcome {g : α → Outcome Exact γ} {e : β → Outcome Exact δ}
    (first : Itemizes t cache stamp R items)
    (surely : Surely (t >>= fun a => ofOutcome (g a)) cache stamp P)
    (next : ∀ a cache p b c, R a cache p b → g a = .ok c → ∃ d, e b = .ok d ∧ S c cache p d) :
    ∃ found, items.mapM e = .ok found ∧
      Itemizes (t >>= fun a => ofOutcome (g a)) cache stamp S found := by
  obtain ⟨lists, mapped, itemized⟩ := first.bind (S := S) (e := fun b => (fun d => [d]) <$> e b) surely
    fun a cache stamp p b related safely => by
      obtain ⟨c, made, -⟩ := surely_ofOutcome.mp safely
      obtain ⟨d, called, holds⟩ := next _ _ _ _ _ related made
      refine ⟨[d], by rw [called]; rfl, ?_⟩
      rw [Itemizes, leads_ofOutcome]
      exact .cons ⟨c, made, by rwa [mul_one]⟩ .nil
  rw [← Outcome.map_mapM] at mapped
  obtain ⟨found, called, single⟩ := Outcome.bind_ok.mp mapped
  obtain rfl := Except.ok.inj single
  refine ⟨found, called, ?_⟩
  rwa [← List.flatMap_def, List.flatMap_singleton'] at itemized

end Itemizes

end Traversal

namespace Node

variable {S : Type}

def FilterFree : Node S → Prop
  | .leaf _ | .unknown _ | .broken _ => True
  | .weightedMap n _ => n.FilterFree
  | .weightedBind n dependent _ => n.FilterFree ∧ ∀ v k, (dependent v k).FilterFree
  | .filter _ _ => False

end Node

/-- A leaf with a table that lists something, each with a real number for its weight. -/
def Leaf.Tabled (l : Leaf Exact) : Prop :=
  ∃ table, l.distribution.support = .ok table ∧ table ≠ [] ∧ ∀ w ∈ table, ∃ x, w.weight.toExact = .finite x

/-- The sample counts as the item does, where it is taken with the chance. -/
structure Sample.Counts (a : Sample Exact) (p : ℝ) (w : Weighted Exact) : Prop where
  value : a.value = w.value
  weight : Exact.finite p * a.weight = w.weight.toExact

namespace Sample.Counts

variable {a b : Sample Exact} {p q : ℝ} {w u : Weighted Exact}

theorem ofValue {x : ℝ} (weight : w.weight.toExact = .finite x) :
    (Sample.ofValue w.value : Sample Exact).Counts w.weight.toExact.toReal w where
  value := rfl
  weight := by
    rw [Sample.ofValue, Exact.mul_comm, Exact.one_mul, weight]
    rfl

theorem project {project : Value Exact → Outcome Exact (Weighted Exact)} {r : Weighted Exact}
    (counts : a.Counts p w) (projects : project a.value = .ok r) :
    ∃ s x, a.project r = .ok s ∧ projected project w = .ok x ∧ s.Counts p x := by
  rw [counts.value] at projects
  obtain ⟨y, product, exact⟩ := Number.mul_exact w.weight r.weight
  refine ⟨⟨r.value, a.weight * r.weight.toExact⟩, ⟨r.value, y⟩, ?_, ?_, rfl, ?_⟩
  · rw [Sample.project, Number.toScalar_exact]
    rfl
  · simp only [projected, projects, Outcome.ok_bind, product]
    rfl
  · rw [exact, ← counts.weight, Exact.mul_assoc]

theorem combine {combine : Value Exact → Value Exact → Outcome Exact (Weighted Exact)} {r : Weighted Exact}
    (first : a.Counts p w) (second : b.Counts q u) (combines : combine a.value b.value = .ok r) :
    ∃ s x, a.combine b r = .ok s ∧ combined combine w u = .ok x ∧ s.Counts (p * q) x := by
  rw [first.value, second.value] at combines
  obtain ⟨y, half, exactHalf⟩ := Number.mul_exact w.weight u.weight
  obtain ⟨z, product, exact⟩ := Number.mul_exact y r.weight
  refine ⟨⟨r.value, r.weight.toExact * a.weight * b.weight⟩, ⟨r.value, z⟩, ?_, ?_, rfl, ?_⟩
  · rw [Sample.combine, Number.toScalar_exact]
    rfl
  · simp only [combined, combines, Outcome.ok_bind, half, product]
    rfl
  · rw [exact, exactHalf, ← first.weight, ← second.weight, ← Exact.finite_mul]
    ac_rfl

end Sample.Counts

namespace Walked

/-- Nothing was visited twice, or seen before in the generation. -/
structure Unmet (cache : Cache Exact) (a : Walked Exact) : Prop where
  once : (a.visits.map (·.leaf.id)).Nodup
  unseen : ∀ v ∈ a.visits, cache.get? v.leaf.id = none

/-- What was traversed counts as the item does, and only what was visited is remembered. -/
structure CountsAs (cache : Cache Exact) (a : Walked Exact) (cache' : Cache Exact) (p : ℝ)
    (w : Weighted Exact) : Prop where
  sample : a.sample.Counts p w
  others : ∀ id, id ∉ a.visits.map (·.leaf.id) → cache'.get? id = cache.get? id

variable {cache cache' cache'' : Cache Exact} {a b c : Walked Exact} {p q : ℝ} {w u x : Weighted Exact}

theorem Unmet.project {r : Weighted Exact} (unmet : b.Unmet cache) (result : a.project r = .ok b) :
    a.Unmet cache := by
  obtain ⟨_, -, rfl⟩ := project_ok result
  exact ⟨unmet.once, unmet.unseen⟩

theorem Unmet.first {r : Weighted Exact} (unmet : b.Unmet cache) (result : a.combine c r = .ok b) :
    a.Unmet cache := by
  obtain ⟨_, -, rfl⟩ := combine_ok result
  have once := unmet.once
  rw [List.map_append] at once
  exact ⟨once.of_append_left, fun v visited => unmet.unseen v (List.mem_append_left _ visited)⟩

theorem Unmet.second {r : Weighted Exact} (unmet : b.Unmet cache) (result : a.combine c r = .ok b)
    (counts : a.CountsAs cache cache' p w) : c.Unmet cache' := by
  obtain ⟨_, -, rfl⟩ := combine_ok result
  have once := unmet.once
  rw [List.map_append] at once
  refine ⟨once.of_append_right, fun v visited => ?_⟩
  rw [counts.others]
  · exact unmet.unseen v (List.mem_append_right _ visited)
  · intro before
    exact List.disjoint_of_nodup_append once before (List.mem_map_of_mem visited)

theorem CountsAs.project {project : Value Exact → Outcome Exact (Weighted Exact)} {r : Weighted Exact}
    (counts : a.CountsAs cache cache' p w) (projects : project a.sample.value = .ok r)
    (result : a.project r = .ok b) : ∃ u, projected project w = .ok u ∧ b.CountsAs cache cache' p u := by
  obtain ⟨s, sample, rfl⟩ := project_ok result
  obtain ⟨_, u, sample', made, ends⟩ := counts.sample.project projects
  cases sample.symm.trans sample'
  exact ⟨u, made, ends, counts.others⟩

theorem CountsAs.combine {combine : Value Exact → Value Exact → Outcome Exact (Weighted Exact)}
    {r : Weighted Exact} (first : a.CountsAs cache cache' p w) (second : c.CountsAs cache' cache'' q u)
    (combines : combine a.sample.value c.sample.value = .ok r) (result : a.combine c r = .ok b) :
    ∃ x, combined combine w u = .ok x ∧ b.CountsAs cache cache'' (p * q) x := by
  obtain ⟨s, sample, rfl⟩ := combine_ok result
  obtain ⟨_, x, sample', made, ends⟩ := first.sample.combine second.sample combines
  cases sample.symm.trans sample'
  refine ⟨x, made, ends, fun id other => ?_⟩
  rw [List.map_append, List.mem_append, not_or] at other
  rw [second.others id other.2, first.others id other.1]

end Walked

open Traversal

section Walk

variable {parts patience : Nat} {n : Node Exact} {fresh : Bool} {here : Progress Exact} {cache : Cache Exact}
  {stamp : Nat}

/-- Forward sampling over all draws. -/
noncomputable abbrev walkAll (parts patience : Nat) (n : Node Exact) (fresh : Bool) (here : Progress Exact) :
    Traversal Chance Exact (Walked Exact) :=
  walk (forwardVisitor (Law.source parts)) (Law.source parts) patience n fresh here

theorem leads_leaf (l : Leaf Exact) (cache : Cache Exact) (stamp : Nat) :
    leads (walkAll parts patience (.leaf l) fresh here) cache stamp =
      (leads (sample (Law.source parts) l) cache stamp).map fun r =>
        (((r.1.1.1.map fun v => Walked.ofVisit ⟨l, v, cache.generation, cache.contains l.id⟩ here, r.1.1.2),
          r.1.2), r.2) := by
  simp only [walk, forwardVisitor, leads_get_bind, bind_pure_comp, leads_map, List.map_map]
  refine List.map_congr_left fun r _ => ?_
  rcases r with ⟨⟨⟨_ | v, _⟩, _⟩, _⟩ <;> rfl

theorem leads_walk_ne (free : n.FilterFree) (leaves : n.Leaves Leaf.Tabled) (cache : Cache Exact)
    (stamp : Nat) : leads (walkAll parts patience n fresh here) cache stamp ≠ [] := by
  induction n generalizing fresh here cache stamp with
  | leaf l =>
    obtain ⟨table, supported, some, -⟩ := leaves
    rw [leads_leaf, ne_eq, List.map_eq_nil_iff]
    cases held : cache.get? l.id with
    | some v =>
      rw [leads_sample_held _ _ held]
      exact List.cons_ne_nil _ _
    | none =>
      rw [leads_sample _ _ supported held]
      simpa using some
  | weightedMap n project ih =>
    exact leads_bind_ne (ih free leaves _ _) fun _ _ _ => List.cons_ne_nil _ _
  | weightedBind n dependent combine ih ihCalls =>
    refine leads_bind_ne (ih free.1 leaves.1 _ _) fun a cache stamp => ?_
    rw [leads_fresh_bind]
    refine leads_bind_ne (ihCalls _ _ (free.2 _ _) (leaves.2 _ _) _ _) fun _ _ _ => List.cons_ne_nil _ _
  | filter => exact free.elim
  | unknown | broken => exact List.cons_ne_nil _ _

theorem leaf_itemizes {l : Leaf Exact} (tabled : l.Tabled)
    (surely : Surely (walkAll parts patience (.leaf l) fresh here) cache stamp fun a _ _ => a.Unmet cache) :
    ∃ items, enumerate (.leaf l) = .ok items ∧
      Itemizes (walkAll parts patience (.leaf l) fresh here) cache stamp (Walked.CountsAs cache) items := by
  obtain ⟨table, supported, -, finite⟩ := tabled
  refine ⟨table, supported, ?_⟩
  rw [Surely, leads_leaf] at surely
  cases held : cache.get? l.id with
  | some v =>
    rw [leads_sample_held _ _ held] at surely
    obtain ⟨a, result, unmet⟩ := surely _ (List.mem_singleton_self _)
    cases result
    -- What the cache holds was seen before.
    have unseen := unmet.unseen _ (List.mem_singleton_self _)
    rw [held] at unseen
    cases unseen
  | none =>
    rw [Itemizes, leads_leaf, leads_sample _ _ supported held, List.map_map, List.forall₂_map_left_iff,
      List.forall₂_same]
    intro w listed
    obtain ⟨x, weight⟩ := finite w listed
    refine ⟨_, rfl, .ofValue weight, fun id other => ?_⟩
    have differ : l.id ≠ id := fun same => other (List.mem_singleton.mpr same.symm)
    exact Cache.get?_put_of_ne differ _

theorem surely_call {a : Walked Exact} {dependent : Value Exact → Nat → Node Exact}
    {combine : Value Exact → Value Exact → Outcome Exact (Weighted Exact)}
    {P : Walked Exact → Cache Exact → Nat → Prop}
    (surely : Surely (do
      let stamp ← Traversal.fresh (Law.source parts)
      let c ← walkAll parts patience (dependent a.sample.value stamp) fresh (a.here.advance .bind)
      ofOutcome do a.combine c (← combine a.sample.value c.sample.value)) cache stamp P) :
    Surely (walkAll parts patience (dependent a.sample.value stamp) fresh (a.here.advance .bind)) cache
      (stamp + 1) fun c cache stamp =>
        ∃ r b, combine a.sample.value c.sample.value = .ok r ∧ a.combine c r = .ok b ∧ P b cache stamp := by
  refine (surely_bind.mp (surely_fresh.mp surely)).imp fun c _ _ surely => ?_
  obtain ⟨b, made, holds⟩ := surely_ofOutcome.mp surely
  obtain ⟨r, combines, result⟩ := Outcome.bind_ok.mp made
  exact ⟨r, b, combines, result, holds⟩

theorem walk_itemizes {r : Renaming} (renamed : n.Renamed r n) (free : n.FilterFree)
    (leaves : n.Leaves Leaf.Tabled)
    (surely : Surely (walkAll parts patience n fresh here) cache stamp fun a _ _ => a.Unmet cache) :
    ∃ items, enumerate n = .ok items ∧
      Itemizes (walkAll parts patience n fresh here) cache stamp (Walked.CountsAs cache) items := by
  induction n generalizing r fresh here cache stamp with
  | leaf l => exact leaf_itemizes leaves surely
  | weightedMap n project ih =>
    cases renamed with
    | weightedMap renamed =>
      have first := (surely_bind.mp surely).imp (Q := fun a _ _ => a.Unmet cache) fun a _ _ surely => by
        obtain ⟨b, made, unmet⟩ := surely_ofOutcome.mp surely
        obtain ⟨_, -, result⟩ := Outcome.bind_ok.mp made
        exact unmet.project result
      obtain ⟨items, enumerated, itemizes⟩ := ih renamed free leaves first
      obtain ⟨found, mapped, itemized⟩ := itemizes.ofOutcome (e := projected project) surely
        fun a cache' p w b counts made => by
          obtain ⟨r, projects, result⟩ := Outcome.bind_ok.mp made
          exact counts.project projects result
      exact ⟨found, by rw [enumerate, enumerated, Outcome.ok_bind, mapped], itemized⟩
  | weightedBind n dependent combine ih ihCalls =>
    cases renamed with
    | weightedBind renamed calls =>
      have first := (surely_bind.mp surely).imp (Q := fun a _ _ => a.Unmet cache) fun a cache' k surely => by
        -- Every call leads to something, which shows what was visited before it.
        obtain ⟨s, rest, led⟩ := List.exists_cons_of_ne_nil (leads_walk_ne (free.2 a.sample.value k)
          (leaves.2 a.sample.value k) cache' (k + 1))
        obtain ⟨c, -, _, b, -, result, unmet⟩ := surely_call surely s (led ▸ List.mem_cons_self)
        exact unmet.first result
      obtain ⟨items, enumerated, itemizes⟩ := ih renamed free.1 leaves.1 first
      obtain ⟨lists, mapped, itemized⟩ := itemizes.bind (S := Walked.CountsAs cache)
        (e := fun w => do (← enumerate (dependent w.value 0)).mapM (combined combine w)) surely
        fun a cache' k p w counts surely => by
          have second := (surely_call surely).imp (Q := fun c _ _ => c.Unmet cache')
            fun c _ _ called => by
              obtain ⟨_, b, -, result, unmet⟩ := called
              exact unmet.second result counts
          obtain ⟨under, called, itemizes⟩ := ihCalls _ _ (calls a.sample.value k k) (free.2 _ _)
            (leaves.2 _ _) second
          rw [(calls a.sample.value k 0).enumerate_eq, counts.sample.value] at called
          simp only [called, Outcome.ok_bind, itemizes_fresh]
          refine itemizes.ofOutcome (surely_fresh.mp surely) fun c cache'' q u b counts' made => ?_
          obtain ⟨r, combines, result⟩ := Outcome.bind_ok.mp made
          exact counts.combine counts' combines result
      exact ⟨lists.flatten, by rw [enumerate, enumerated, Outcome.ok_bind, mapped]; rfl, itemized⟩
  | filter => exact free.elim
  | unknown name =>
    obtain ⟨_, same, -⟩ := surely _ (List.mem_singleton_self _)
    cases same
  | broken fault =>
    obtain ⟨_, same, -⟩ := surely _ (List.mem_singleton_self _)
    cases same

theorem surely_leaf {l : Leaf Exact} {table : List (Weighted Exact)}
    (supported : l.distribution.support = .ok table) (absent : cache.get? l.id = none)
    {P : Walked Exact → Cache Exact → Nat → Prop} (each : ∀ w ∈ table, ∀ generation held,
      P (.ofVisit ⟨l, w.value, generation, held⟩ here) (cache.put l.id w.value) stamp) :
    Surely (walkAll parts patience (.leaf l) fresh here) cache stamp P := by
  rw [Surely, leads_leaf, leads_sample _ _ supported absent, List.map_map, List.forall_mem_map]
  exact fun w listed => ⟨_, rfl, each w listed _ _⟩

end Walk

theorem Exact.toReal_finite_mul (p : ℝ) (x : Exact) : (Exact.finite p * x).toReal = p * x.toReal := by
  by_cases special : ∃ a b, Exact.finite p = .finite a ∧ x = .finite b
  · obtain ⟨_, b, -, rfl⟩ := special
    rfl
  · rw [mul_eq_ofSign _ _ special]
    cases x with
    | finite b => exact absurd ⟨p, b, rfl, rfl⟩ special
    | infinite | undefined =>
      cases (Exact.finite p).sign * _ <;> simp [ofSign, toReal]

theorem mass_of_outcomes {t : Traversal Chance Exact (Sample Exact)} {cache : Cache Exact} {stamp : Nat}
    {items : List (Weighted Exact)} (itemizes : Itemizes t cache stamp (fun a _ p w => a.Counts p w) items)
    (h : Value Exact → ℝ) :
    mean t cache stamp (fun a _ _ => a.weight.toReal * h a.value) = mass items h := by
  change ((leads t cache stamp).map fun r => r.2 * Outcome.worth _ r.1.1.1).sum = _
  unfold Itemizes at itemizes
  generalize leads t cache stamp = led at itemizes
  induction itemizes with
  | nil => rfl
  | cons related _ ih =>
    obtain ⟨a, result, counts⟩ := related
    rw [mass, List.map_cons, List.sum_cons, ih, List.map_cons, List.sum_cons, result, Outcome.worth,
      ← counts.weight, Exact.toReal_finite_mul, ← counts.value, mul_assoc]
    rfl

section Forward

variable {parts patience : Nat} {root : Node Exact} {cache : Cache Exact} {stamp : Nat}

/-- Without filters, and where nothing is met twice, forward sampling over all draws has one outcome for each
item of the enumeration: the same value, whose weight times the chance of the outcome is that of the item. -/
theorem forward_enumerates (free : root.FilterFree) (steady : root.Steady) (leaves : root.Leaves Leaf.Tabled)
    (past : cache.Past) (once : Surely (walkForward (Law.source parts) patience root) cache stamp
      fun a _ _ => (a.visits.map (·.leaf.id)).Nodup) :
    ∃ items, enumerate root = .ok items ∧
      ((outcomes (nextForward (Law.source parts) patience root) cache stamp).map fun r =>
        r.1.map fun a => (a.value, Exact.finite r.2 * a.weight)) =
          items.map (fun w => .ok (w.value, w.weight.toExact)) ∧
      ∀ h, mean (nextForward (Law.source parts) patience root) cache stamp
        (fun a _ _ => a.weight.toReal * h a.value) = mass items h := by
  have unmet : Surely (walkAll parts patience root false ⟨{}, .empty⟩) cache.advance stamp
      fun a _ _ => a.Unmet cache.advance :=
    (surely_advance.mp once).imp fun a _ _ once => ⟨once, fun v _ => Cache.get?_advance past _⟩
  obtain ⟨items, enumerated, itemizes⟩ := walk_itemizes steady free leaves unmet
  have sampled : Itemizes (nextForward (Law.source parts) patience root) cache stamp
      (fun a _ p w => a.Counts p w) items := by
    rw [← walkForward_sample, Itemizes, leads_map, List.forall₂_map_left_iff, walkForward, leads_advance_bind]
    refine itemizes.imp ?_
    rintro r w ⟨a, result, counts, -⟩
    exact ⟨a.sample, by rw [result]; rfl, counts⟩
  refine ⟨items, enumerated, ?_, mass_of_outcomes sampled⟩
  rw [← List.forall₂_eq_eq_eq, List.forall₂_map_left_iff, List.forall₂_map_right_iff, outcomes,
    List.forall₂_map_left_iff]
  refine sampled.imp ?_
  rintro r w ⟨a, result, counts⟩
  rw [result, ← counts.value, ← counts.weight]
  rfl

end Forward

/-- A flip, and one whose bias depends on it. -/
noncomputable def dependentFlips (x y z : ℝ) : Node Exact :=
  (firstFlip x).bind (biased y z) pair

section Example

variable {x y z : ℝ}

theorem flipOf_tabled (id : ObjectId) (x : ℝ) : (flipOf id x).Tabled :=
  ⟨_, flipOf_support id x, by simp [flipItems], by simp [flipItems]⟩

theorem dependentFlips_once : Surely (walkForward (Law.source 1) 0 (dependentFlips x y z)) {} 1
    fun a _ _ => (a.visits.map (·.leaf.id)).Nodup := by
  have first := Cache.get?_advance (S := Exact) Cache.past_new
  refine surely_advance.mpr (surely_bind.mpr (surely_leaf (flipOf_support _ _) (first _) fun w _ _ _ => ?_))
  have later : (Cache.put (Cache.advance {}) ⟨0, 0⟩ w.value).get? ⟨1, 0⟩ = none := by
    rw [Cache.get?_put_of_ne (by simp)]
    exact first _
  refine surely_fresh.mpr (surely_bind.mpr (surely_leaf (flipOf_support _ _) later fun u _ _ _ => ?_))
  refine surely_ofOutcome.mpr ⟨_, rfl, ?_⟩
  simp [Walked.ofVisit, flipOf]

theorem dependentFlips_mass (within : 0 < x ∧ x ≤ 1) (first : 0 < y ∧ y ≤ 1) (second : 0 < z ∧ z ≤ 1)
    {items : List (Weighted Exact)} (enumerated : enumerate (dependentFlips x y z) = .ok items)
    (h : Value Exact → ℝ) : mass items h =
      x * (y * h (.tuple [.bool true, .bool true]) + (1 - y) * h (.tuple [.bool true, .bool false])) +
      (1 - x) * (z * h (.tuple [.bool false, .bool true]) +
        (1 - z) * h (.tuple [.bool false, .bool false])) := by
  have source := (flipOf_leaf ⟨0, 0⟩ within.1.le within.2 1).2.1
  have called (a : Weighted Exact) := (biased_leaf first second a.value 0 1).2.1
  obtain ⟨joint, enumerates, masses⟩ : ∃ joint, (dependentFlips x y z).Enumerates joint ∧
      ∀ h, mass joint h = mass (flipItems x) fun v =>
        mass (flipItems (bias y z v)) fun u => Outcome.worth h (pair v u) := by
    refine source.bind (fun a _ => called a) fun a listed c listed' => ⟨_, rfl, ?_⟩
    simp only [flipItems, List.mem_cons, List.not_mem_nil, or_false] at listed listed'
    rcases listed with rfl | rfl <;> rcases listed' with rfl | rfl <;> rfl
  cases enumerated.symm.trans enumerates.enumerated
  rw [masses]
  simp only [mass_flipItems, pair, Outcome.worth, bias]

theorem forward_enumerates_dependentFlips : ∃ items,
    enumerate (dependentFlips (1 / 2) (1 / 3) (3 / 4)) = .ok items ∧
    ((outcomes (nextForward (Law.source 1) 0 (dependentFlips (1 / 2) (1 / 3) (3 / 4))) {} 1).map fun r =>
      r.1.map fun a => (a.value, Exact.finite r.2 * a.weight)) =
        items.map (fun w => .ok (w.value, w.weight.toExact)) ∧
    ∀ h : Value Exact → ℝ,
      mean (nextForward (Law.source 1) 0 (dependentFlips (1 / 2) (1 / 3) (3 / 4))) {} 1
        (fun a _ _ => a.weight.toReal * h a.value) =
      1 / 2 * (1 / 3 * h (.tuple [.bool true, .bool true]) + 2 / 3 * h (.tuple [.bool true, .bool false])) +
      1 / 2 * (3 / 4 * h (.tuple [.bool false, .bool true]) +
        1 / 4 * h (.tuple [.bool false, .bool false])) := by
  have free : (dependentFlips (1 / 2) (1 / 3) (3 / 4)).FilterFree := ⟨trivial, fun _ _ => trivial⟩
  have steady : (dependentFlips (1 / 2) (1 / 3) (3 / 4)).Steady :=
    .weightedBind (.leaf rfl rfl) fun _ _ _ => .leaf (.inr ⟨0, rfl, rfl⟩) rfl
  obtain ⟨items, enumerated, same, weighs⟩ := forward_enumerates free steady
    ⟨flipOf_tabled _ _, fun _ _ => flipOf_tabled _ _⟩ Cache.past_new dependentFlips_once
  refine ⟨items, enumerated, same, fun h => ?_⟩
  rw [weighs, dependentFlips_mass (by norm_num) (by norm_num) (by norm_num) enumerated]
  norm_num

end Example

end ChanceGraph
