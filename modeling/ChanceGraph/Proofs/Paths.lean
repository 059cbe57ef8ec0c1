import ChanceGraph.Proofs.ForwardOutcomes

/-!
The paths of the enumeration, with what they take from the table of each leaf that they meet.  A leaf that
is met again is expanded again, with all values of its table.
-/

set_option autoImplicit false

namespace ChanceGraph

/-- A leaf that is met, and the item of its table that is taken there. -/
structure Stop (S : Type) where
  leaf : Leaf S
  item : Weighted S

/-- One way through a graph: what it comes to, the leaves met on it, and the stamp of the next call. -/
structure Path (S : Type) where
  item : Weighted S
  visits : List (Stop S)
  next : Nat

variable {S : Type} [Scalar S]

namespace Path

def project (project : Value S → Outcome S (Weighted S)) (p : Path S) : Outcome S (Path S) := do
  return { p with item := ← projected project p.item }

def combine (combine : Value S → Value S → Outcome S (Weighted S)) (p q : Path S) :
    Outcome S (Path S) := do
  return ⟨← combined combine p.item q.item, p.visits ++ q.visits, q.next⟩

variable {p q r : Path S}

theorem project_ok {project : Value S → Outcome S (Weighted S)} (result : p.project project = .ok q) :
    ∃ w, projected project p.item = .ok w ∧ q = { p with item := w } := by
  obtain ⟨w, made, result⟩ := Outcome.bind_ok.mp result
  cases result
  exact ⟨w, made, rfl⟩

theorem combine_ok {combine : Value S → Value S → Outcome S (Weighted S)}
    (result : p.combine combine q = .ok r) :
    ∃ w, combined combine p.item q.item = .ok w ∧ r = ⟨w, p.visits ++ q.visits, q.next⟩ := by
  obtain ⟨w, made, result⟩ := Outcome.bind_ok.mp result
  cases result
  exact ⟨w, made, rfl⟩

theorem visits_of_project {project : Value S → Outcome S (Weighted S)} (result : p.project project = .ok q) :
    q.visits = p.visits := by
  obtain ⟨_, -, rfl⟩ := project_ok result
  rfl

theorem visits_of_combine {combine : Value S → Value S → Outcome S (Weighted S)}
    (result : p.combine combine q = .ok r) : r.visits = p.visits ++ q.visits := by
  obtain ⟨_, -, rfl⟩ := combine_ok result
  rfl

end Path

/-- The enumeration with its paths kept.  A call of a dependent gets the stamp that a traversal along the path
gives it. -/
def paths : Node S → Nat → Outcome S (List (Path S))
  | .leaf l, k => do
    return (← l.distribution.support).map fun w => ⟨w, [⟨l, w⟩], k⟩
  | .weightedMap n project, k => do
    (← paths n k).mapM (Path.project project)
  | .weightedBind n dependent combine, k => do
    let lists ← (← paths n k).mapM fun p => do
      (← paths (dependent p.item.value p.next) (p.next + 1)).mapM (Path.combine combine p)
    return lists.flatten
  | .filter n predicate, k => do
    (← paths n k).filterM fun p => predicate p.item.value
  | .unknown name, _ => .error (.unknownNode (Node.label name))
  | .broken fault, _ => .error fault

theorem paths_items {n : Node S} {r : Renaming} (renamed : n.Renamed r n) (k : Nat) :
    List.map Path.item <$> paths n k = enumerate n := by
  induction n generalizing r k with
  | leaf l =>
    simp only [paths, enumerate, map_bind, map_pure, List.map_map, Function.comp_def, List.map_id']
    exact bind_pure _
  | weightedMap n project ih =>
    cases renamed with
    | weightedMap renamed =>
      simp only [paths, enumerate, ← ih renamed k, map_bind, bind_map_left, Outcome.map_mapM, List.mapM_map]
      simp [Path.project, Function.comp_def]
  | weightedBind n dependent combine ih ihCalls =>
    cases renamed with
    | weightedBind renamed calls =>
      -- The enumeration calls at another stamp, with the same result but for identities.
      have call (p : Path S) :
          List.map Path.item <$> (paths (dependent p.item.value p.next) (p.next + 1) >>= fun qs =>
              qs.mapM (Path.combine combine p)) =
            enumerate (dependent p.item.value 0) >>= fun items => items.mapM (combined combine p.item) := by
        rw [← (calls p.item.value p.next 0).enumerate_eq, ← ihCalls _ _ (calls _ _ _) (p.next + 1)]
        simp only [map_bind, bind_map_left, Outcome.map_mapM, List.mapM_map]
        simp [Path.combine, Function.comp_def]
      simp only [paths, enumerate, ← ih renamed k, map_bind, bind_map_left, map_pure, List.mapM_map,
        List.map_flatten, Function.comp_def, ← call]
      refine bind_congr fun qs => ?_
      simp only [← map_bind, ← Outcome.map_mapM, bind_map_left]
  | filter n predicate ih =>
    cases renamed with
    | filter renamed =>
      simp only [paths, enumerate, ← ih renamed k, map_bind, bind_map_left, Outcome.filterM_map]
  | unknown | broken => rfl

theorem paths_weightedMap {n : Node S} {project : Value S → Outcome S (Weighted S)} {k : Nat}
    {ps : List (Path S)} (expanded : paths (.weightedMap n project) k = .ok ps) :
    ∃ qs, paths n k = .ok qs ∧ (∀ q ∈ qs, ∃ p ∈ ps, q.project project = .ok p) ∧
      ∀ p ∈ ps, ∃ q ∈ qs, q.project project = .ok p := by
  obtain ⟨qs, source, mapped⟩ := Outcome.bind_ok.mp expanded
  exact ⟨qs, source, fun q => Outcome.mem_of_mapM mapped, fun p => Outcome.exists_of_mem_mapM mapped⟩

theorem paths_weightedBind {n : Node S} {dependent : Value S → Nat → Node S}
    {combine : Value S → Value S → Outcome S (Weighted S)} {k : Nat} {ps : List (Path S)}
    (expanded : paths (.weightedBind n dependent combine) k = .ok ps) :
    ∃ qs, paths n k = .ok qs ∧
      (∀ q ∈ qs, ∃ us, paths (dependent q.item.value q.next) (q.next + 1) = .ok us ∧
        ∀ u ∈ us, ∃ p ∈ ps, q.combine combine u = .ok p) ∧
      ∀ p ∈ ps, ∃ q ∈ qs, ∃ us, paths (dependent q.item.value q.next) (q.next + 1) = .ok us ∧
        ∃ u ∈ us, q.combine combine u = .ok p := by
  obtain ⟨qs, source, expanded⟩ := Outcome.bind_ok.mp expanded
  obtain ⟨lists, mapped, flattened⟩ := Outcome.bind_ok.mp expanded
  obtain rfl := Outcome.pure_ok.mp flattened
  refine ⟨qs, source, fun q member => ?_, fun p member => ?_⟩
  · obtain ⟨list, listed, called⟩ := Outcome.mem_of_mapM mapped member
    obtain ⟨us, called, combined⟩ := Outcome.bind_ok.mp called
    refine ⟨us, called, fun u member => ?_⟩
    obtain ⟨p, member, result⟩ := Outcome.mem_of_mapM combined member
    exact ⟨p, List.mem_flatten_of_mem listed member, result⟩
  · obtain ⟨list, listed, member⟩ := List.mem_flatten.mp member
    obtain ⟨q, from', called⟩ := Outcome.exists_of_mem_mapM mapped listed
    obtain ⟨us, called, combined⟩ := Outcome.bind_ok.mp called
    exact ⟨q, from', us, called, Outcome.exists_of_mem_mapM combined member⟩

theorem paths_leaf {l : Leaf S} {k : Nat} {ps : List (Path S)} (expanded : paths (.leaf l) k = .ok ps) :
    ∃ table, l.distribution.support = .ok table ∧ ps = table.map fun w => ⟨w, [⟨l, w⟩], k⟩ := by
  obtain ⟨table, supported, made⟩ := Outcome.bind_ok.mp expanded
  exact ⟨table, supported, (Outcome.pure_ok.mp made).symm⟩

theorem paths_listed {n : Node S} {k : Nat} {ps : List (Path S)} (expanded : paths n k = .ok ps) :
    ∀ p ∈ ps, ∀ a ∈ p.visits, a.leaf.Lists a.item.value a.item := by
  induction n generalizing k ps with
  | leaf l =>
    obtain ⟨table, supported, rfl⟩ := paths_leaf expanded
    simp only [List.forall_mem_map, List.forall_mem_singleton]
    exact fun w listed => ⟨table, supported, listed, rfl⟩
  | weightedMap n project ih =>
    intro p member
    obtain ⟨qs, source, -, into⟩ := paths_weightedMap expanded
    obtain ⟨q, from', result⟩ := into p member
    rw [Path.visits_of_project result]
    exact ih source q from'
  | weightedBind n dependent combine ih ihCalls =>
    intro p member
    obtain ⟨qs, source, -, into⟩ := paths_weightedBind expanded
    obtain ⟨q, from', us, called, u, through, result⟩ := into p member
    rw [Path.visits_of_combine result]
    exact List.forall_mem_append.mpr ⟨ih source q from', ihCalls _ _ called u through⟩
  | filter n predicate ih =>
    obtain ⟨qs, source, filtered⟩ := Outcome.bind_ok.mp expanded
    exact fun p member => ih source p (Outcome.holds_of_mem_filterM filtered member).1
  | unknown | broken => cases expanded

/-- The table lists one value only. -/
def Leaf.SingleValued (l : Leaf S) : Prop :=
  ∀ v w v' w', l.Lists v w → l.Lists v' w' → v = v'

namespace Path

omit [Scalar S]

variable {p : Path S} {l : Leaf S}

/-- Any two visits to one leaf see one value. -/
def OneValue (p : Path S) : Prop :=
  p.visits.Pairwise fun a b => a.leaf = b.leaf → a.item.value = b.item.value

def Repeats (p : Path S) (l : Leaf S) : Prop :=
  List.Duplicate l (p.visits.map Stop.leaf)

theorem Repeats.split (repeats : p.Repeats l) :
    ∃ before w after, p.visits = before ++ ⟨l, w⟩ :: after ∧ ∃ w', ⟨l, w'⟩ ∈ before := by
  obtain ⟨both, sub, same⟩ := List.sublist_map_iff.mp (List.duplicate_iff_sublist.mp repeats)
  obtain ⟨first, rest, rfl, rfl, same⟩ := List.map_eq_cons_iff.mp same.symm
  obtain ⟨second, none, rfl, again, same⟩ := List.map_eq_cons_iff.mp same
  obtain rfl := List.map_eq_nil_iff.mp same
  obtain ⟨before, later, whole, earlier, sub⟩ := List.cons_sublist_iff.mp sub
  obtain ⟨between, after, rfl⟩ := List.append_of_mem (List.singleton_sublist.mp sub)
  refine ⟨before ++ between, second.item, after, ?_, first.item, List.mem_append_left _ earlier⟩
  rw [whole, List.append_assoc, ← again]

theorem oneValue_of_singleValued [Scalar S] (listed : ∀ a ∈ p.visits, a.leaf.Lists a.item.value a.item)
    (single : ∀ l, p.Repeats l → l.SingleValued) : p.OneValue := by
  refine List.pairwise_iff_forall_sublist.mpr fun {a b} sub same => ?_
  have repeats : p.Repeats a.leaf := by
    refine List.duplicate_iff_sublist.mpr ?_
    simpa [same] using sub.map Stop.leaf
  have first := listed a (sub.subset List.mem_cons_self)
  have second := listed b (sub.subset (List.mem_cons_of_mem _ List.mem_cons_self))
  exact single a.leaf repeats _ _ _ _ first (same ▸ second)

end Path

section Exact

variable {n : Node Exact} {k : Nat} {ps : List (Path Exact)}

theorem paths_ne (free : n.FilterFree) (leaves : n.Leaves Leaf.Tabled) (expanded : paths n k = .ok ps) :
    ps ≠ [] := by
  -- Tables list something, and without filters nothing of it is lost.
  induction n generalizing k ps with
  | leaf l =>
    obtain ⟨table, supported, rfl⟩ := paths_leaf expanded
    obtain ⟨table', supported', some, -⟩ := leaves
    cases supported.symm.trans supported'
    simpa using some
  | weightedMap n project ih =>
    obtain ⟨qs, source, onto, -⟩ := paths_weightedMap expanded
    obtain ⟨q, from'⟩ := List.exists_mem_of_ne_nil _ (ih free leaves source)
    obtain ⟨p, member, -⟩ := onto q from'
    exact List.ne_nil_of_mem member
  | weightedBind n dependent combine ih ihCalls =>
    obtain ⟨qs, source, onto, -⟩ := paths_weightedBind expanded
    obtain ⟨q, from'⟩ := List.exists_mem_of_ne_nil _ (ih free.1 leaves.1 source)
    obtain ⟨us, called, onto⟩ := onto q from'
    obtain ⟨u, through⟩ := List.exists_mem_of_ne_nil _ (ihCalls _ _ (free.2 _ _) (leaves.2 _ _) called)
    obtain ⟨p, member, -⟩ := onto u through
    exact List.ne_nil_of_mem member
  | filter => exact free.elim
  | unknown | broken => cases expanded

theorem append_eq_cons_split {α : Type} {xs ys before after : List α} {a : α}
    (split : xs ++ ys = before ++ a :: after) :
    (∃ rest, xs = before ++ a :: rest) ∨ ∃ later, before = xs ++ later ∧ ys = later ++ a :: after := by
  rcases List.append_eq_append_iff.mp split with ⟨later, earlier, rest⟩ | ⟨_ | ⟨b, rest⟩, first, same⟩
  · exact .inr ⟨later, earlier, rest⟩
  · exact .inr ⟨[], by simpa using first.symm, same.symm⟩
  · cases same
    exact .inl ⟨rest, first⟩

theorem paths_vary (free : n.FilterFree) (leaves : n.Leaves Leaf.Tabled) (expanded : paths n k = .ok ps)
    {p : Path Exact} (member : p ∈ ps) {l : Leaf Exact} {w u : Weighted Exact}
    {before after : List (Stop Exact)} (split : p.visits = before ++ ⟨l, w⟩ :: after)
    (listed : l.Lists u.value u) : ∃ q ∈ ps, ∃ after', q.visits = before ++ ⟨l, u⟩ :: after' := by
  induction n generalizing k ps p before after with
  | leaf l' =>
    obtain ⟨table, supported, rfl⟩ := paths_leaf expanded
    obtain ⟨_, -, rfl⟩ := List.mem_map.mp member
    obtain ⟨table', supported', listed, -⟩ := listed
    rcases before with _ | ⟨b, before⟩
    · cases split
      cases supported.symm.trans supported'
      exact ⟨_, List.mem_map_of_mem listed, [], rfl⟩
    · simp at split
  | weightedMap n project ih =>
    obtain ⟨qs, source, onto, into⟩ := paths_weightedMap expanded
    obtain ⟨q, from', result⟩ := into p member
    rw [Path.visits_of_project result] at split
    obtain ⟨q', from', after', visits⟩ := ih free leaves source from' split
    obtain ⟨p', member, result⟩ := onto q' from'
    exact ⟨p', member, after', (Path.visits_of_project result).trans visits⟩
  | weightedBind n dependent combine ih ihCalls =>
    obtain ⟨qs, source, onto, into⟩ := paths_weightedBind expanded
    obtain ⟨q, from', us, called, t, through, result⟩ := into p member
    rw [Path.visits_of_combine result] at split
    -- The visit was made by the source, or by the call.
    rcases append_eq_cons_split split with ⟨rest, first⟩ | ⟨later, rfl, second⟩
    · obtain ⟨q', from', after', visits⟩ := ih free.1 leaves.1 source from' first
      -- With another value of the source the call is another one; it has some path.
      obtain ⟨us, called, onto⟩ := onto q' from'
      obtain ⟨t', through⟩ := List.exists_mem_of_ne_nil _ (paths_ne (free.2 _ _) (leaves.2 _ _) called)
      obtain ⟨p', member, result⟩ := onto t' through
      exact ⟨p', member, after' ++ t'.visits, by simp [Path.visits_of_combine result, visits]⟩
    · obtain ⟨t', through, after', visits⟩ := ihCalls _ _ (free.2 _ _) (leaves.2 _ _) called through second
      obtain ⟨us', called', onto⟩ := onto q from'
      cases called.symm.trans called'
      obtain ⟨p', member, result⟩ := onto t' through
      exact ⟨p', member, after', by simp [Path.visits_of_combine result, visits]⟩
  | filter => exact free.elim
  | unknown | broken => cases expanded

theorem oneValue_iff_singleValued (free : n.FilterFree) (leaves : n.Leaves Leaf.Tabled)
    (expanded : paths n k = .ok ps) :
    (∀ p ∈ ps, p.OneValue) ↔ ∀ p ∈ ps, ∀ l, p.Repeats l → l.SingleValued := by
  constructor
  · intro one p member l repeats v w v' w' lists lists'
    obtain ⟨before, u, after, split, u', seen⟩ := repeats.split
    -- The last visit could have seen any value of the table, after the same visits before.
    have shows {v : Value Exact} {w : Weighted Exact} (lists : l.Lists v w) : u'.value = v := by
      obtain ⟨table, supported, listed, rfl⟩ := lists
      obtain ⟨q, member, after', visits⟩ :=
        paths_vary free leaves expanded member split ⟨table, supported, listed, rfl⟩
      have pairwise := one q member
      rw [Path.OneValue, visits, List.pairwise_append] at pairwise
      exact pairwise.2.2 _ seen _ List.mem_cons_self rfl
    rw [← shows lists, ← shows lists']
  · exact fun single p member =>
      Path.oneValue_of_singleValued (paths_listed expanded p member) (single p member)

end Exact

section Again

variable {l : Leaf Exact} {k : Nat} {ps : List (Path Exact)}

structure Path.Pairs (p : Path Exact) (l : Leaf Exact) (w u : Weighted Exact) : Prop where
  value : p.item.value = .tuple [w.value, u.value]
  weight : p.item.weight.toExact = w.weight.toExact * u.weight.toExact
  visits : p.visits = [⟨l, w⟩, ⟨l, u⟩]

theorem pairs_of_combine {p : Path Exact} {w u : Weighted Exact} {j k : Nat}
    (result : Path.combine (fun a b => do return ⟨← pair a b, .one⟩) ⟨w, [⟨l, w⟩], j⟩ ⟨u, [⟨l, u⟩], k⟩ =
      .ok p) : p.Pairs l w u := by
  obtain ⟨_, made, rfl⟩ := Path.combine_ok result
  obtain ⟨value, weight⟩ := combined_exact (r := ⟨.tuple [w.value, u.value], .one⟩) rfl made
  rw [Number.toExact_one, Exact.mul_comm, Exact.one_mul] at weight
  exact ⟨value, weight, rfl⟩

theorem paths_again (expanded : paths ((Node.leaf l).bind (fun _ _ => .leaf l) pair) k = .ok ps) :
    (∀ p ∈ ps, ∃ w u, l.Lists w.value w ∧ l.Lists u.value u ∧ p.Pairs l w u) ∧
      ∀ w u, l.Lists w.value w → l.Lists u.value u → ∃ p ∈ ps, p.Pairs l w u := by
  obtain ⟨qs, source, onto, into⟩ := paths_weightedBind expanded
  obtain ⟨table, supported, rfl⟩ := paths_leaf source
  -- The call expands the leaf once more, with no regard to what the source took from its table.
  constructor
  · intro p member
    obtain ⟨q, from', us, called, u, through, result⟩ := into p member
    obtain ⟨table', supported', rfl⟩ := paths_leaf called
    obtain ⟨w, listed, rfl⟩ := List.mem_map.mp from'
    obtain ⟨u, listed', rfl⟩ := List.mem_map.mp through
    exact ⟨w, u, ⟨table, supported, listed, rfl⟩, ⟨table', supported', listed', rfl⟩, pairs_of_combine result⟩
  · rintro w u ⟨_, supported', listed, -⟩ ⟨_, supported'', listed', -⟩
    cases supported.symm.trans supported'
    cases supported.symm.trans supported''
    obtain ⟨us, called, onto⟩ := onto _ (List.mem_map_of_mem listed)
    obtain ⟨table', supported', rfl⟩ := paths_leaf called
    cases supported.symm.trans supported'
    obtain ⟨p, member, result⟩ := onto _ (List.mem_map_of_mem listed')
    exact ⟨p, member, pairs_of_combine result⟩

end Again

end ChanceGraph
