import ChanceGraph.Proofs.Paths

/-!
Forward sampling and the paths of the enumeration: a sampler holds the value of a leaf that it meets again, so
that it goes along those paths only on which every leaf has one value.
-/

set_option autoImplicit false

namespace ChanceGraph

open Traversal

/-- On a path an identity stands for one leaf. -/
def Identified (seen : List (Stop Exact)) : Prop :=
  seen.Pairwise fun a b => a.leaf.id = b.leaf.id → a.leaf = b.leaf

def Settled (seen : List (Stop Exact)) : Prop :=
  seen.Pairwise fun a b => a.leaf.id = b.leaf.id → a.item.value = b.item.value

/-- The cache shows the values that were seen, and no others. -/
structure Recalls (cache : Cache Exact) (seen : List (Stop Exact)) : Prop where
  known : ∀ a ∈ seen, cache.get? a.leaf.id = some a.item.value
  visited : ∀ id v, cache.get? id = some v → ∃ a ∈ seen, a.leaf.id = id ∧ a.item.value = v

namespace Recalls

variable {cache : Cache Exact} {seen : List (Stop Exact)} {l : Leaf Exact} {w : Weighted Exact}

theorem start (past : cache.Past) : Recalls cache.advance [] where
  known := by simp
  visited id v shown := by simp [Cache.get?_advance past] at shown

theorem again (recalls : Recalls cache seen) (held : cache.get? l.id = some w.value) :
    Recalls cache (seen ++ [⟨l, w⟩]) where
  known := List.forall_mem_append.mpr ⟨recalls.known, by simpa using held⟩
  visited id v shown := by
    obtain ⟨a, member, same⟩ := recalls.visited id v shown
    exact ⟨a, List.mem_append_left _ member, same⟩

theorem put (recalls : Recalls cache seen) (absent : cache.get? l.id = none) (w : Weighted Exact) :
    Recalls (cache.put l.id w.value) (seen ++ [⟨l, w⟩]) where
  known := by
    refine List.forall_mem_append.mpr ⟨fun a member => ?_, by simp [Cache.get?_put_self]⟩
    have known := recalls.known a member
    have differ : l.id ≠ a.leaf.id := by
      intro same
      rw [same, known] at absent
      cases absent
    rw [Cache.get?_put_of_ne differ, known]
  visited id v shown := by
    by_cases same : l.id = id
    · rw [same, Cache.get?_put_self, Option.some.injEq] at shown
      exact ⟨_, List.mem_append_right _ (List.mem_singleton_self _), same, shown⟩
    · rw [Cache.get?_put_of_ne same] at shown
      obtain ⟨a, member, same⟩ := recalls.visited id v shown
      exact ⟨a, List.mem_append_left _ member, same⟩

theorem settled (recalls : Recalls cache seen) : Settled seen :=
  List.pairwise_of_forall_mem_list fun a first b second same => by
    have known := recalls.known a first
    rw [same, recalls.known b second] at known
    exact (Option.some.inj known).symm

end Recalls

namespace Sample.Counts

variable {a b : Sample Exact} {c d : ℝ} {w u x : Weighted Exact}

theorem projected {project : Value Exact → Outcome Exact (Weighted Exact)} (counts : a.Counts c w)
    (made : projected project w = .ok u) :
    ∃ s, (do a.project (← project a.value)) = (.ok s : Outcome Exact _) ∧ s.Counts c u := by
  obtain ⟨r, projects, -⟩ := Outcome.bind_ok.mp made
  rw [← counts.value] at projects
  obtain ⟨s, _, sample, made', ends⟩ := counts.project projects
  cases made.symm.trans made'
  exact ⟨s, by rw [projects, Outcome.ok_bind, sample], ends⟩

theorem combined {combine : Value Exact → Value Exact → Outcome Exact (Weighted Exact)}
    (first : a.Counts c w) (second : b.Counts d u) (made : combined combine w u = .ok x) :
    ∃ s, (do a.combine b (← combine a.value b.value)) = (.ok s : Outcome Exact _) ∧
      s.Counts (c * d) x := by
  obtain ⟨r, combines, -⟩ := Outcome.bind_ok.mp made
  rw [← first.value, ← second.value] at combines
  obtain ⟨s, _, sample, made', ends⟩ := first.combine second combines
  cases made.symm.trans made'
  exact ⟨s, by rw [combines, Outcome.ok_bind, sample], ends⟩

end Sample.Counts

noncomputable def chanceOf (seen : List (Stop Exact)) : ℝ :=
  (seen.map fun a => a.item.weight.toExact.toReal).prod

theorem chanceOf_ne_zero {seen : List (Stop Exact)} :
    chanceOf seen ≠ 0 ↔ ∀ a ∈ seen, a.item.weight.toExact.toReal ≠ 0 := by
  simp [chanceOf, List.prod_eq_zero_iff]

theorem chanceOf_append (xs ys : List (Stop Exact)) : chanceOf (xs ++ ys) = chanceOf xs * chanceOf ys := by
  simp [chanceOf]

/-- What forward sampling comes to at the end of the path, after what was seen before it. -/
def Path.Ends (p : Path Exact) (seen : List (Stop Exact))
    (r : (Outcome Exact (Sample Exact) × Cache Exact) × Nat) : Prop :=
  ∃ a cache, r = ((.ok a, cache), p.next) ∧ a.Counts (chanceOf p.visits) p.item ∧
    Recalls cache (seen ++ p.visits)

theorem mem_leads_bind {α β : Type} {t : Traversal Chance Exact α} {f : α → Traversal Chance Exact β}
    {cache : Cache Exact} {stamp : Nat} {s : ((Outcome Exact β × Cache Exact) × Nat) × ℝ} :
    s ∈ leads (t >>= f) cache stamp ↔
      ∃ r ∈ leads t cache stamp, ∃ u ∈ onward f r.1, s = (u.1, r.2 * u.2) := by
  simp only [leads_bind, List.mem_flatMap, List.mem_map, eq_comm]

theorem mem_leads_ofOutcome {α β : Type} {t : Traversal Chance Exact α} {g : α → Outcome Exact β}
    {cache cache' : Cache Exact} {stamp next : Nat} {a : α} {b : β} {x : ℝ}
    (led : (((.ok a, cache'), next), x) ∈ leads t cache stamp) (made : g a = .ok b) :
    (((.ok b, cache'), next), x) ∈ leads (do ofOutcome (g (← t))) cache stamp := by
  refine mem_leads_bind.mpr ⟨_, led, (((.ok b, cache'), next), 1), ?_, by rw [mul_one]⟩
  simp only [onward, leads_ofOutcome, made, List.mem_singleton]

section Forward

variable {parts patience : Nat} {n : Node Exact} {cache : Cache Exact} {stamp : Nat} {ps : List (Path Exact)}
  {seen : List (Stop Exact)}

theorem leads_forward_leaf (l : Leaf Exact) (cache : Cache Exact) (stamp : Nat) :
    leads (forward (Law.source parts) patience (.leaf l)) cache stamp =
      (leads (sample (Law.source parts) l) cache stamp).map fun r =>
        (((r.1.1.1.map Sample.ofValue, r.1.1.2), r.1.2), r.2) := by
  rw [forward, bind_pure_comp, leads_map]

theorem counts_leaf {l : Leaf Exact} {w : Weighted Exact} {x : ℝ} (weight : w.weight.toExact = .finite x) :
    (Sample.ofValue w.value : Sample Exact).Counts (chanceOf [⟨l, w⟩]) w := by
  simpa only [chanceOf, List.map_cons, List.map_nil, List.prod_singleton] using Sample.Counts.ofValue weight

theorem leaf_of_leads {l : Leaf Exact} (tabled : l.Tabled) {table : List (Weighted Exact)}
    (supported : l.distribution.support = .ok table) (recalls : Recalls cache seen)
    (listed : ∀ a ∈ seen, a.leaf.Lists a.item.value a.item)
    (identified : ∀ w ∈ table, Identified (seen ++ [⟨l, w⟩])) :
    ∀ r ∈ leads (forward (Law.source parts) patience (.leaf l)) cache stamp, ∃ w ∈ table,
      Path.Ends ⟨w, [⟨l, w⟩], stamp⟩ seen r.1 ∧ (chanceOf seen ≠ 0 → r.2 ≠ 0 → chanceOf [⟨l, w⟩] ≠ 0) := by
  obtain ⟨table', supported', some, finite⟩ := tabled
  cases supported.symm.trans supported'
  rw [leads_forward_leaf]
  cases held : cache.get? l.id with
  | some v =>
    rw [leads_sample_held _ _ held]
    obtain ⟨⟨l', w⟩, member, id, rfl⟩ := recalls.visited _ _ held
    -- What the cache holds for the leaf was taken from its own table.
    obtain ⟨u, rest⟩ := List.exists_mem_of_ne_nil _ some
    have same : l' = l :=
      (List.pairwise_append.mp (identified u rest)).2.2 _ member _ (List.mem_singleton_self _) id
    obtain ⟨_, supported'', taken, -⟩ := same ▸ listed _ member
    cases supported.symm.trans supported''
    obtain ⟨x, weight⟩ := finite w taken
    simp only [List.map_cons, List.map_nil, List.forall_mem_singleton]
    refine ⟨w, taken, ⟨_, _, rfl, counts_leaf weight, recalls.again held⟩, fun nonzero _ => ?_⟩
    rw [chanceOf_ne_zero] at nonzero ⊢
    simpa using nonzero _ member
  | none =>
    rw [leads_sample _ _ supported held]
    simp only [List.map_map, List.forall_mem_map]
    intro w taken
    obtain ⟨x, weight⟩ := finite w taken
    exact ⟨w, taken, ⟨_, _, rfl, counts_leaf weight, recalls.put held w⟩, by simp [chanceOf]⟩

theorem leads_of_leaf {l : Leaf Exact} (tabled : l.Tabled) {w : Weighted Exact} (listed : l.Lists w.value w)
    (recalls : Recalls cache seen) (settled : Settled (seen ++ [⟨l, w⟩])) :
    ∃ r ∈ leads (forward (Law.source parts) patience (.leaf l)) cache stamp,
      Path.Ends ⟨w, [⟨l, w⟩], stamp⟩ seen r.1 ∧ (chanceOf [⟨l, w⟩] ≠ 0 → r.2 ≠ 0) := by
  obtain ⟨table, supported, -, finite⟩ := tabled
  obtain ⟨_, supported', taken, -⟩ := listed
  cases supported.symm.trans supported'
  obtain ⟨x, weight⟩ := finite w taken
  rw [leads_forward_leaf]
  cases held : cache.get? l.id with
  | some v =>
    -- The path shows the value that is held, for it shows the same identity before.
    obtain ⟨a, before, id, rfl⟩ := recalls.visited _ _ held
    have same : a.item.value = w.value :=
      (List.pairwise_append.mp settled).2.2 a before _ (List.mem_singleton_self _) id
    rw [leads_sample_held _ _ held, same]
    exact ⟨_, List.mem_singleton_self _, ⟨_, _, rfl, counts_leaf weight, recalls.again (same ▸ held)⟩,
      fun _ => one_ne_zero⟩
  | none =>
    rw [leads_sample _ _ supported held, List.map_map]
    refine ⟨_, List.mem_map_of_mem taken, ⟨_, _, rfl, counts_leaf weight, recalls.put held w⟩, ?_⟩
    simp [chanceOf]

theorem path_of_leads (free : n.FilterFree) (leaves : n.Leaves Leaf.Tabled)
    (expanded : paths n stamp = .ok ps) (recalls : Recalls cache seen)
    (listed : ∀ a ∈ seen, a.leaf.Lists a.item.value a.item)
    (identified : ∀ p ∈ ps, Identified (seen ++ p.visits)) :
    ∀ r ∈ leads (forward (Law.source parts) patience n) cache stamp, ∃ p ∈ ps, p.Ends seen r.1 ∧
      (chanceOf seen ≠ 0 → r.2 ≠ 0 → chanceOf p.visits ≠ 0) := by
  -- The stamps of the calls along a path are those that the traversal takes.
  induction n generalizing cache stamp ps seen with
  | leaf l =>
    obtain ⟨table, supported, rfl⟩ := paths_leaf expanded
    intro r led
    obtain ⟨w, taken, ends⟩ := leaf_of_leads leaves supported recalls listed
      (fun w taken => identified _ (List.mem_map_of_mem taken)) r led
    exact ⟨_, List.mem_map_of_mem taken, ends⟩
  | weightedMap n project ih =>
    obtain ⟨qs, source, onto, -⟩ := paths_weightedMap expanded
    have before (q : Path Exact) (from' : q ∈ qs) : Identified (seen ++ q.visits) := by
      obtain ⟨p, member, result⟩ := onto q from'
      exact Path.visits_of_project result ▸ identified p member
    intro r led
    obtain ⟨⟨r₁, x⟩, led₁, r₂, then', rfl⟩ := mem_leads_bind.mp led
    obtain ⟨q, from', ⟨a, _, rfl, counts, recalls⟩, likely⟩ :=
      ih free leaves source recalls listed before _ led₁
    obtain ⟨p, member, result⟩ := onto q from'
    obtain ⟨w, made, rfl⟩ := Path.project_ok result
    obtain ⟨s, projects, counts⟩ := counts.projected made
    simp only [onward, leads_ofOutcome, projects, List.mem_singleton] at then'
    obtain rfl := then'
    exact ⟨_, member, ⟨s, _, rfl, counts, recalls⟩,
      fun nonzero product => likely nonzero (left_ne_zero_of_mul product)⟩
  | weightedBind n dependent combine ih ihCalls =>
    obtain ⟨qs, source, onto, -⟩ := paths_weightedBind expanded
    have after (q : Path Exact) (from' : q ∈ qs) : ∃ us,
        paths (dependent q.item.value q.next) (q.next + 1) = .ok us ∧
          ∀ u ∈ us, Identified (seen ++ q.visits ++ u.visits) := by
      obtain ⟨us, called, onto⟩ := onto q from'
      refine ⟨us, called, fun u through => ?_⟩
      obtain ⟨p, member, result⟩ := onto u through
      rw [List.append_assoc, ← Path.visits_of_combine result]
      exact identified p member
    have before (q : Path Exact) (from' : q ∈ qs) : Identified (seen ++ q.visits) := by
      -- Every call has a path, which goes on from what was visited before it.
      obtain ⟨us, called, after⟩ := after q from'
      obtain ⟨u, through⟩ := List.exists_mem_of_ne_nil _ (paths_ne (free.2 _ _) (leaves.2 _ _) called)
      exact (List.pairwise_append.mp (after u through)).1
    intro r led
    obtain ⟨⟨r₁, x⟩, led₁, r₂, then', rfl⟩ := mem_leads_bind.mp led
    obtain ⟨q, from', ⟨a, _, rfl, counts, recalls⟩, likely⟩ :=
      ih free.1 leaves.1 source recalls listed before _ led₁
    simp only [onward, leads_fresh_bind, counts.value] at then'
    obtain ⟨⟨r₃, y⟩, led₂, r₄, last, rfl⟩ := mem_leads_bind.mp then'
    obtain ⟨us, called, after⟩ := after q from'
    obtain ⟨u, through, ⟨b, _, rfl, counts', recalls⟩, likely'⟩ :=
      ihCalls _ _ (free.2 _ _) (leaves.2 _ _) called recalls
        (List.forall_mem_append.mpr ⟨listed, paths_listed source q from'⟩) after _ led₂
    obtain ⟨us', called', onto⟩ := onto q from'
    cases called.symm.trans called'
    obtain ⟨p, member, result⟩ := onto u through
    obtain ⟨w, made, rfl⟩ := Path.combine_ok result
    obtain ⟨s, combines, ends⟩ := counts.combined counts' made
    rw [counts.value] at combines
    simp only [onward, leads_ofOutcome, combines, List.mem_singleton] at last
    obtain rfl := last
    refine ⟨_, member, ⟨s, _, rfl, ?_, ?_⟩, fun nonzero product => ?_⟩
    · rwa [chanceOf_append]
    · rwa [← List.append_assoc]
    · have first := likely nonzero (left_ne_zero_of_mul product)
      have second := left_ne_zero_of_mul (right_ne_zero_of_mul product)
      rw [chanceOf_append] at likely' ⊢
      exact mul_ne_zero first (likely' (mul_ne_zero nonzero first) second)
  | filter => exact free.elim
  | unknown | broken => cases expanded

theorem mem_leads_call {dependent : Value Exact → Nat → Node Exact}
    {combine : Value Exact → Value Exact → Outcome Exact (Weighted Exact)} {a b s : Sample Exact}
    {cache' cache'' : Cache Exact} {k next : Nat} {x y : ℝ}
    (led : (((.ok a, cache'), k), x) ∈ leads (forward (Law.source parts) patience n) cache stamp)
    (led' : (((.ok b, cache''), next), y) ∈
      leads (forward (Law.source parts) patience (dependent a.value k)) cache' (k + 1))
    (combines : (do a.combine b (← combine a.value b.value)) = (.ok s : Outcome Exact _)) :
    (((.ok s, cache''), next), x * y) ∈
      leads (forward (Law.source parts) patience (.weightedBind n dependent combine)) cache stamp := by
  refine mem_leads_bind.mpr ⟨_, led, (((.ok s, cache''), next), y), ?_, rfl⟩
  simp only [onward, leads_fresh_bind]
  exact mem_leads_ofOutcome led' combines

theorem leads_of_path (free : n.FilterFree) (leaves : n.Leaves Leaf.Tabled)
    (expanded : paths n stamp = .ok ps) (recalls : Recalls cache seen) {p : Path Exact} (member : p ∈ ps)
    (settled : Settled (seen ++ p.visits)) :
    ∃ r ∈ leads (forward (Law.source parts) patience n) cache stamp, p.Ends seen r.1 ∧
      (chanceOf p.visits ≠ 0 → r.2 ≠ 0) := by
  -- What the path has seen is in the cache, so that the traversal follows the path for sure.
  induction n generalizing cache stamp ps seen p with
  | leaf l =>
    obtain ⟨table, supported, rfl⟩ := paths_leaf expanded
    obtain ⟨w, taken, rfl⟩ := List.mem_map.mp member
    exact leads_of_leaf leaves ⟨table, supported, taken, rfl⟩ recalls settled
  | weightedMap n project ih =>
    obtain ⟨qs, source, -, into⟩ := paths_weightedMap expanded
    obtain ⟨q, from', result⟩ := into p member
    obtain ⟨w, made, rfl⟩ := Path.project_ok result
    obtain ⟨⟨_, x⟩, led, ⟨a, _, rfl, counts, recalls⟩, likely⟩ := ih free leaves source recalls from' settled
    obtain ⟨s, projects, counts⟩ := counts.projected made
    exact ⟨_, mem_leads_ofOutcome led projects, ⟨s, _, rfl, counts, recalls⟩, likely⟩
  | weightedBind n dependent combine ih ihCalls =>
    obtain ⟨qs, source, -, into⟩ := paths_weightedBind expanded
    obtain ⟨q, from', us, called, u, through, result⟩ := into p member
    obtain ⟨w, made, rfl⟩ := Path.combine_ok result
    rw [← List.append_assoc] at settled
    obtain ⟨⟨_, x⟩, led, ⟨a, _, rfl, counts, recalls⟩, likely⟩ :=
      ih free.1 leaves.1 source recalls from' (List.pairwise_append.mp settled).1
    obtain ⟨⟨_, y⟩, led', ⟨b, _, rfl, counts', recalls⟩, likely'⟩ :=
      ihCalls _ _ (free.2 _ _) (leaves.2 _ _) called recalls through settled
    obtain ⟨s, combines, ends⟩ := counts.combined counts' made
    rw [← counts.value] at led'
    refine ⟨_, mem_leads_call led led' combines, ⟨s, _, rfl, ?_, ?_⟩, fun chance => ?_⟩
    · rwa [chanceOf_append]
    · rwa [← List.append_assoc]
    · rw [chanceOf_append] at chance
      exact mul_ne_zero (likely (left_ne_zero_of_mul chance)) (likely' (right_ne_zero_of_mul chance))
  | filter => exact free.elim
  | unknown | broken => cases expanded

end Forward

/-- The outcome has the value, with some mass. -/
def Carries (r : Outcome Exact (Sample Exact) × ℝ) (v : Value Exact) : Prop :=
  ∃ a, r.1 = .ok a ∧ a.value = v ∧ r.2 * a.weight.toReal ≠ 0

section Root

variable {parts patience : Nat} {root : Node Exact} {cache : Cache Exact} {stamp : Nat}

theorem forward_carries_iff {ps : List (Path Exact)} (free : root.FilterFree)
    (leaves : root.Leaves Leaf.Tabled) (expanded : paths root stamp = .ok ps)
    (identified : ∀ p ∈ ps, Identified p.visits) (past : cache.Past) (v : Value Exact) :
    (∃ r ∈ outcomes (nextForward (Law.source parts) patience root) cache stamp, Carries r v) ↔
      ∃ p ∈ ps, p.OneValue ∧ p.item.value = v ∧ p.item.weight.toExact.toReal ≠ 0 := by
  rw [outcomes, nextForward, leads_advance_bind]
  -- An outcome has a mass only if the weight and the chance of its path are not zero.
  constructor
  · rintro ⟨_, led, a, result, rfl, carries⟩
    obtain ⟨r, led', rfl⟩ := List.mem_map.mp led
    obtain ⟨p, member, ⟨_, _, same, counts, recalls⟩, likely⟩ :=
      path_of_leads free leaves expanded (.start past) (by simp) identified r led'
    rw [same, Except.ok.injEq] at result
    subst result
    refine ⟨p, member, ?_, counts.value.symm, ?_⟩
    · exact recalls.settled.imp fun value leaf => value (congrArg Leaf.id leaf)
    · rw [← counts.weight, Exact.toReal_finite_mul]
      have chance := likely (by simp [chanceOf]) (left_ne_zero_of_mul carries)
      exact mul_ne_zero chance (right_ne_zero_of_mul carries)
  · rintro ⟨p, member, one, rfl, carries⟩
    have settled : Settled p.visits :=
      (identified p member).imp₂ (fun _ _ leaf value id => value (leaf id)) one
    obtain ⟨r, led, ⟨a, _, same, counts, -⟩, likely⟩ :
        ∃ r ∈ leads (forward (Law.source parts) patience root) cache.advance stamp,
          p.Ends [] r.1 ∧ (chanceOf p.visits ≠ 0 → r.2 ≠ 0) :=
      leads_of_path free leaves expanded (.start past) member settled
    rw [← counts.weight, Exact.toReal_finite_mul] at carries
    refine ⟨_, List.mem_map_of_mem led, a, ?_, counts.value, ?_⟩
    · rw [same]
    · exact mul_ne_zero (likely (left_ne_zero_of_mul carries)) (right_ne_zero_of_mul carries)

/-- The enumeration expands a leaf that is met again with all its values.  So each leaf has one value on a
path if the tables of those that are met again list one value only; and without filters only then.  Forward
sampling carries just what is listed along the paths on which each leaf has one value. -/
theorem paths_oneValue {items : List (Weighted Exact)} (steady : root.Steady)
    (enumerated : enumerate root = .ok items) (stamp : Nat) :
    ∃ ps, paths root stamp = .ok ps ∧ ps.map Path.item = items ∧
      (∀ p ∈ ps, (∀ l, p.Repeats l → l.SingleValued) → p.OneValue) ∧
      (root.FilterFree → root.Leaves Leaf.Tabled →
        ((∀ p ∈ ps, p.OneValue) ↔ ∀ p ∈ ps, ∀ l, p.Repeats l → l.SingleValued) ∧
        ((∀ p ∈ ps, Identified p.visits) → ∀ parts patience cache, cache.Past → ∀ v,
          (∃ r ∈ outcomes (nextForward (Law.source parts) patience root) cache stamp, Carries r v) ↔
            ∃ p ∈ ps, p.OneValue ∧ p.item.value = v ∧ p.item.weight.toExact.toReal ≠ 0)) := by
  rw [← paths_items steady stamp] at enumerated
  cases expanded : paths root stamp with
  | error fault =>
    rw [expanded] at enumerated
    cases enumerated
  | ok ps =>
    rw [expanded] at enumerated
    cases enumerated
    refine ⟨ps, rfl, rfl, fun p member => ?_, fun free leaves => ⟨?_, ?_⟩⟩
    · exact Path.oneValue_of_singleValued (paths_listed expanded p member)
    · exact oneValue_iff_singleValued free leaves expanded
    · exact fun identified _ _ _ past => forward_carries_iff free leaves expanded identified past

end Root

theorem fairFlip_tabled (index : Nat) : (fairFlip index : Leaf Exact).Tabled := by
  refine ⟨_, rfl, List.cons_ne_nil _ _, ?_⟩
  simp [Number.toExact_real, Exact.one_eq]

/-- One flip is listed as if it were two, of which forward sampling knows nothing. -/
theorem twice_varies : ∃ items ps, enumerate (twice : Node Exact) = .ok items ∧ paths twice 0 = .ok ps ∧
    ps.map Path.item = items ∧
    (∃ p ∈ ps, p.item.value = .tuple [.bool true, .bool false] ∧ p.item.weight.toExact = .finite (1 / 4) ∧
      ¬ p.OneValue) ∧
    ∀ r ∈ outcomes (nextForward (Law.source 1) 0 twice) {} 0,
      ¬ Carries r (.tuple [.bool true, .bool false]) := by
  obtain ⟨ps, expanded⟩ : ∃ ps, paths (twice : Node Exact) 0 = .ok ps := ⟨_, rfl⟩
  have steady : (twice : Node Exact).Steady := .weightedBind (.leaf rfl rfl) fun _ _ _ => .leaf (.inl rfl) rfl
  have enumerated := paths_items steady 0
  rw [expanded] at enumerated
  -- All four pairs are listed, but forward sampling carries those only that have one value.
  obtain ⟨every, each⟩ := paths_again expanded
  refine ⟨_, ps, enumerated.symm, expanded, rfl, ?_, fun r led carries => ?_⟩
  · obtain ⟨p, member, value, weight, visits⟩ := each ⟨.bool true, .real (Scalar.ratio 1 2)⟩
      ⟨.bool false, .real (1 - Scalar.ratio 1 2)⟩ ⟨_, rfl, List.mem_cons_self, rfl⟩
      ⟨_, rfl, List.mem_cons_of_mem _ List.mem_cons_self, rfl⟩
    refine ⟨p, member, value, ?_, ?_⟩
    · rw [weight, Number.toExact_real, Number.toExact_real]
      simp [Exact.one_eq]
      norm_num
    · simp [Path.OneValue, visits]
  · have identified (p : Path Exact) (member : p ∈ ps) : Identified p.visits := by
      obtain ⟨w, u, -, -, pairs⟩ := every p member
      simp [Identified, pairs.visits]
    have free : (twice : Node Exact).FilterFree := ⟨trivial, fun _ _ => trivial⟩
    have leaves : (twice : Node Exact).Leaves Leaf.Tabled := ⟨fairFlip_tabled 0, fun _ _ => fairFlip_tabled 0⟩
    obtain ⟨p, member, one, value, -⟩ :=
      (forward_carries_iff free leaves expanded identified Cache.past_new _).mp ⟨r, led, carries⟩
    obtain ⟨w, u, -, -, pairs⟩ := every p member
    have same : w.value = u.value := by simpa [Path.OneValue, pairs.visits] using one
    rw [pairs.value, same] at value
    simp only [Value.tuple.injEq, List.cons.injEq, and_true] at value
    obtain ⟨first, second⟩ := value
    rw [first] at second
    cases second

noncomputable def certain : Leaf Exact :=
  ⟨⟨0, 0⟩, .constant (.bool true)⟩

/-- A leaf with one value, met before a flip and after it. -/
noncomputable def bracketed : Node Exact :=
  (Node.leaf certain).bind (fun _ _ => (Node.leaf (fairFlip 1)).bind (fun _ _ => .leaf certain) pair) pair

theorem bracketed_leaves {k : Nat} {ps : List (Path Exact)} (expanded : paths bracketed k = .ok ps) :
    ∀ p ∈ ps, p.visits.map Stop.leaf = [certain, fairFlip 1, certain] := by
  have leaf {l : Leaf Exact} {k : Nat} {ps : List (Path Exact)} (expanded : paths (.leaf l) k = .ok ps) :
      ∀ p ∈ ps, p.visits.map Stop.leaf = [l] := by
    obtain ⟨table, -, rfl⟩ := paths_leaf expanded
    simp
  intro p member
  obtain ⟨qs, source, -, into⟩ := paths_weightedBind expanded
  obtain ⟨q, from', us, called, u, through, result⟩ := into p member
  obtain ⟨qs', source', -, into'⟩ := paths_weightedBind called
  obtain ⟨q', from'', us', called', u', through', result'⟩ := into' u through
  rw [Path.visits_of_combine result, Path.visits_of_combine result', List.map_append, List.map_append,
    leaf source q from', leaf source' q' from'', leaf called' u' through']
  rfl

theorem certain_singleValued : certain.SingleValued := by
  have shows (v : Value Exact) (w : Weighted Exact) (lists : certain.Lists v w) : v = .bool true := by
    obtain ⟨_, supported, listed, rfl⟩ := lists
    cases supported
    obtain rfl := List.mem_singleton.mp listed
    rfl
  intro v w v' w' lists lists'
  rw [shows v w lists, shows v' w' lists']

theorem paths_oneValue_bracketed : ∃ items ps, enumerate bracketed = .ok items ∧ paths bracketed 0 = .ok ps ∧
    ps.map Path.item = items ∧ (∀ p ∈ ps, p.Repeats certain ∧ p.OneValue) ∧
    ∀ v, (∃ r ∈ outcomes (nextForward (Law.source 1) 0 bracketed) {} 0, Carries r v) ↔
      ∃ w ∈ items, w.value = v ∧ w.weight.toExact.toReal ≠ 0 := by
  have steady : bracketed.Steady := .weightedBind (.leaf rfl rfl) fun _ _ _ =>
    .weightedBind (.leaf (.inl rfl) rfl) fun _ _ _ => .leaf (.inl (.inl rfl)) rfl
  have tabled : certain.Tabled := ⟨_, rfl, List.cons_ne_nil _ _, by simp [Number.toExact_one, Exact.one_eq]⟩
  obtain ⟨items, enumerated⟩ : ∃ items, enumerate bracketed = .ok items := ⟨_, rfl⟩
  obtain ⟨ps, expanded, rfl, one, exact⟩ := paths_oneValue steady enumerated 0
  obtain ⟨-, carries⟩ := exact ⟨trivial, fun _ _ => ⟨trivial, fun _ _ => trivial⟩⟩
    ⟨tabled, fun _ _ => ⟨fairFlip_tabled 1, fun _ _ => tabled⟩⟩
  have leaves := bracketed_leaves expanded
  have differ : certain.id ≠ (fairFlip 1 : Leaf Exact).id := by simp [certain, fairFlip]
  -- The only leaf that is met twice has one value in its table.
  have each (p : Path Exact) (member : p ∈ ps) : p.OneValue := by
    refine one p member fun l repeats => ?_
    rw [Path.Repeats, leaves p member] at repeats
    obtain rfl : l = certain := by
      simp only [List.duplicate_cons_iff, List.mem_cons, List.not_mem_nil, or_false,
        List.not_duplicate_nil] at repeats
      grind
    exact certain_singleValued
  have identified (p : Path Exact) (member : p ∈ ps) : Identified p.visits := by
    have apart : (p.visits.map Stop.leaf).Pairwise fun a b => a.id = b.id → a = b := by
      simp [leaves p member, differ, differ.symm]
    exact List.pairwise_map.mp apart
  refine ⟨_, ps, enumerated, expanded, rfl, fun p member => ⟨?_, each p member⟩, fun v => ?_⟩
  · simp [Path.Repeats, leaves p member]
  · rw [carries identified 1 0 {} Cache.past_new v]
    simp only [List.mem_map]
    constructor
    · rintro ⟨p, member, -, value, weighs⟩
      exact ⟨_, ⟨p, member, rfl⟩, value, weighs⟩
    · rintro ⟨_, ⟨p, member, rfl⟩, value, weighs⟩
      exact ⟨p, member, each p member, value, weighs⟩

end ChanceGraph
