import ChanceGraph.Node.Build
import ChanceGraph.Proofs.Listing

/-!
Sequences of graphs.  The outcomes of a sequence are the tuples of outcomes of its members, in the order in
which they are counted through with the last member changing first, and a sequence may be cut in two anywhere.
-/

set_option autoImplicit false

namespace ChanceGraph

section Tuples

variable {α β : Type}

/-- All ways to take one item of each list; that of the first list changes last. -/
def tuples : List (List α) → List (List α)
  | [] => [[]]
  | xs :: rest => xs.flatMap fun x => (tuples rest).map (x :: ·)

theorem mem_tuples {lists : List (List α)} {row : List α} :
    row ∈ tuples lists ↔ List.Forall₂ (· ∈ ·) row lists := by
  induction lists generalizing row with
  | nil => simp [tuples]
  | cons xs rest ih =>
    cases row with
    | nil => simp [tuples]
    | cons x row => simp [tuples, ih]

theorem length_tuples (lists : List (List α)) : (tuples lists).length = (lists.map List.length).prod := by
  induction lists with
  | nil => rfl
  | cons xs rest ih => simp [tuples, ih]

theorem tuples_map (f : α → β) (lists : List (List α)) :
    tuples (lists.map (List.map f)) = (tuples lists).map (List.map f) := by
  induction lists with
  | nil => rfl
  | cons xs rest ih => simp [tuples, ih, List.flatMap_map, List.map_flatMap, Function.comp_def]

theorem tuples_ordered {before : α → α → Prop} {lists : List (List α)}
    (ordered : ∀ xs ∈ lists, xs.Pairwise before) : (tuples lists).Pairwise (List.Lex before) := by
  induction lists with
  | nil => exact List.pairwise_singleton _ _
  | cons xs rest ih =>
    have ⟨first, others⟩ := List.forall_mem_cons.mp ordered
    refine List.pairwise_flatMap.mpr ⟨fun x _ => ?_, first.imp fun {x y} earlier => ?_⟩
    · exact List.pairwise_map.mpr ((ih others).imp .cons)
    · intro row listed row' listed'
      obtain ⟨_, -, rfl⟩ := List.mem_map.mp listed
      obtain ⟨_, -, rfl⟩ := List.mem_map.mp listed'
      exact .rel earlier

/-- The items of each list with their places in it. -/
def placed (lists : List (List α)) : List (List (α × Nat)) :=
  lists.map List.zipIdx

theorem tuples_placed_ordered (lists : List (List α)) :
    (tuples (placed lists)).Pairwise (List.Lex fun a b => a.2 < b.2) := by
  refine tuples_ordered fun xs listed => ?_
  obtain ⟨xs, -, rfl⟩ := List.mem_map.mp listed
  rw [← List.pairwise_map (f := fun a : α × Nat => a.2) (R := (· < ·)), List.zipIdx_map_snd]
  exact List.pairwise_lt_range'

theorem tuples_placed (lists : List (List α)) :
    (tuples (placed lists)).map (List.map Prod.fst) = tuples lists := by
  rw [← tuples_map, placed, List.map_map]
  simp [Function.comp_def]

end Tuples

/-- Outcomes taken together: the tuple of their values, with the product of their weights. -/
noncomputable def jointly (row : List (Value Exact × Exact)) : Value Exact × Exact :=
  (.tuple (row.map Prod.fst), (row.map Prod.snd).foldr (· * ·) 1)

namespace Listing

theorem gather_some (h : Value Exact → List (Value Exact × Exact)) (xs : List (Value Exact × Exact)) :
    gather (fun v => some (h v)) xs = some (xs.flatMap fun x => (h x.1).map (scaled x.2)) := by
  induction xs with
  | nil => rfl
  | cons x rest ih =>
    rw [gather, ih]
    rfl

/-- What is listed when the outcomes of some listings are appended to a tuple, one after the other. -/
noncomputable def extended : List Listing → Value Exact → Listing
  | [], v => one v
  | l :: rest, v =>
    l >>= gather fun u => Outcome.listingOne (do return ⟨← Node.snoc v u, .one⟩) >>= gather (extended rest)

theorem extended_tuple (l : Listing) (rest : List Listing) (vs : List (Value Exact)) :
    extended (l :: rest) (.tuple vs) = l >>= gather fun u => extended rest (.tuple (vs ++ [u])) := by
  have appended (u : Value Exact) :
      Outcome.listingOne (do return ⟨← Node.snoc (.tuple vs) u, .one⟩) = one (.tuple (vs ++ [u])) := rfl
  simp only [extended, appended, one_gather]

theorem extended_some (lists : List (List (Value Exact × Exact))) (vs : List (Value Exact)) :
    extended (lists.map some) (.tuple vs) = some ((tuples lists).map fun row =>
      (.tuple (vs ++ row.map Prod.fst), (row.map Prod.snd).foldr (· * ·) 1)) := by
  induction lists generalizing vs with
  | nil => simp [extended, one, tuples]
  | cons xs rest ih =>
    rw [List.map_cons, extended_tuple]
    simp only [ih]
    refine (gather_some _ xs).trans ?_
    simp [tuples, List.map_flatMap, Function.comp_def, scaled]

/-- What is listed for the sum of two values. -/
noncomputable def sum (v u : Value Exact) : Listing :=
  Outcome.listingOne do return ⟨← v.add u, .one⟩

/-- What is appended to a tuple does not depend on how it begins. -/
theorem extended_sum (ls : List Listing) (us vs : List (Value Exact)) :
    extended ls (.tuple (us ++ vs)) = extended ls (.tuple vs) >>= gather (sum (.tuple us)) := by
  induction ls generalizing vs with
  | nil => exact (one_gather (f := sum (.tuple us)) (.tuple vs)).symm
  | cons l rest ih => simp only [extended_tuple, List.append_assoc, ih, bind_assoc, gather_gather]

theorem extended_append (ls ls' : List Listing) (vs : List (Value Exact)) :
    extended (ls ++ ls') (.tuple vs) =
      extended ls (.tuple vs) >>= gather fun v => extended ls' (.tuple []) >>= gather (sum v) := by
  induction ls generalizing vs with
  | nil =>
    rw [List.nil_append, extended, one_gather, ← extended_sum, List.append_nil]
  | cons l rest ih => simp only [List.cons_append, extended_tuple, ih, bind_assoc, gather_gather]

end Listing

/-- What is listed for a member of a sequence; a plain value is listed as it is. -/
noncomputable def Item.listing : Item Exact → Listing
  | .node _ n => n.listing
  | .plain v => Listing.one v

namespace Node

theorem listing_lift2_snoc (a b : Node Exact) : (lift2 snoc a b).listing =
    a.listing >>= Listing.gather fun v => b.listing >>= Listing.gather fun u =>
      Outcome.listingOne (do return ⟨← snoc v u, .one⟩) :=
  listing_weightedBind _ _ _

theorem listing_foldl (nodes : List (Node Exact)) (start : Node Exact) :
    (nodes.foldl (lift2 snoc) start).listing =
      start.listing >>= Listing.gather (Listing.extended (nodes.map listing)) := by
  induction nodes generalizing start with
  | nil => exact ((bind_congr fun items => Listing.gather_one items).trans (bind_pure _)).symm
  | cons b rest ih =>
    rw [List.foldl_cons, ih, listing_lift2_snoc]
    simp only [bind_assoc, Listing.gather_gather, List.map_cons, Listing.extended]

theorem listing_sequence (id : ObjectId) (nodes : List (Node Exact)) :
    (sequence id nodes).listing = Listing.extended (nodes.map listing) (.tuple []) := by
  rw [sequence, listing_foldl, listing_constant, Listing.one_gather]

end Node

theorem enumerate_of_listing {n : Node Exact} {entries : List (Value Exact × Exact)}
    (listed : n.listing = some entries) :
    ∃ outcomes, enumerate n = .ok outcomes ∧ outcomes.map Weighted.entry = entries := by
  obtain ⟨outcomes, known, same⟩ := Option.map_eq_some_iff.mp listed
  cases enumerated : enumerate n with
  | error fault => simp [enumerated, Except.toOption] at known
  | ok _ =>
    rw [enumerated] at known
    cases known
    exact ⟨outcomes, rfl, same⟩

theorem liftNodes_built (items : List (Item Exact)) (stamp index : Nat) :
    ∃ nodes next, items.mapM Item.liftNode stamp index = .ok (nodes, next) ∧
      nodes.map Node.listing = items.map Item.listing := by
  induction items generalizing index with
  | nil => exact ⟨[], index, rfl, rfl⟩
  | cons item rest ih =>
    obtain ⟨n, between, lifted, same⟩ : ∃ n between, item.liftNode stamp index = .ok (n, between) ∧
        n.listing = item.listing := by
      cases item with
      | node id n => exact ⟨n, index, rfl, rfl⟩
      | plain v => exact ⟨_, _, rfl, rfl⟩
    obtain ⟨nodes, next, later, others⟩ := ih between
    refine ⟨n :: nodes, next, ?_, by rw [List.map_cons, List.map_cons, same, others]⟩
    rw [List.mapM_cons]
    change (item.liftNode stamp index >>= fun made => rest.mapM Item.liftNode stamp made.2 >>= fun made' =>
      .ok (made.1 :: made'.1, made'.2)) = _
    rw [lifted, Outcome.ok_bind, later, Outcome.ok_bind]

theorem sequenceItems_built (items : List (Item Exact)) (stamp index : Nat) :
    ∃ n next, Node.sequenceItems items stamp index = .ok (n, next) ∧
      n.listing = Listing.extended (items.map Item.listing) (.tuple []) := by
  obtain ⟨nodes, next, lifted, same⟩ := liftNodes_built items stamp (index + 1)
  refine ⟨.sequence ⟨stamp, index⟩ nodes, next, ?_, by rw [Node.listing_sequence, same]⟩
  change (items.mapM Item.liftNode stamp (index + 1) >>= fun made =>
    .ok (Node.sequence ⟨stamp, index⟩ made.1, made.2)) = _
  rw [lifted, Outcome.ok_bind]

/-- The sequence as the dependent of a bind, built anew at each call. -/
noncomputable def Node.sequenceCalled (items : List (Item Exact)) (v : Value Exact) (stamp : Nat) : Node Exact :=
  Item.asDependent v ((Node.sequenceItems items >>= Item.ofNode).run stamp)

theorem sequenceCalled_listing (items : List (Item Exact)) (v : Value Exact) (stamp : Nat) :
    (Node.sequenceCalled items v stamp).listing = Listing.extended (items.map Item.listing) (.tuple []) := by
  obtain ⟨n, next, built, listed⟩ := sequenceItems_built items stamp 0
  obtain ⟨id, next', wrapped⟩ : ∃ id next', Item.ofNode n stamp next = .ok (.node id n, next') := by
    cases n <;> exact ⟨_, _, rfl⟩
  have ran : (Node.sequenceItems items >>= Item.ofNode).run stamp = .ok (.node id n) := by
    change ((Node.sequenceItems items stamp 0 >>= fun made => Item.ofNode made.1 stamp made.2) >>= fun made =>
      .ok made.1) = _
    rw [built, Outcome.ok_bind, wrapped]
    rfl
  rw [Node.sequenceCalled, ran]
  exact listed

/-- A sequence lists all ways to take an outcome of each member, by their places in order, each with the
tuple of the values and the product of the weights.  Cut in two it is listed as its first part, followed by
the other one at every outcome. -/
theorem sequence_lists_tuples :
    (∀ (items : List (Item Exact)) (lists : List (List (Value Exact × Exact))),
      items.map Item.listing = lists.map some → ∀ stamp index : Nat,
        ∃ n next outcomes, Node.sequenceItems items stamp index = .ok (n, next) ∧
          enumerate n = .ok outcomes ∧
          outcomes.map Weighted.entry = (tuples (placed lists)).map (fun row => jointly (row.map Prod.fst)) ∧
          (tuples (placed lists)).Pairwise (List.Lex fun a b => a.2 < b.2) ∧
          (∀ row, row ∈ tuples (placed lists) ↔ List.Forall₂ (· ∈ ·) row (placed lists)) ∧
          outcomes.length = (lists.map List.length).prod ∧
          ∀ w ∈ outcomes, ∃ vs, w.value = .tuple vs ∧ vs.length = items.length) ∧
    ∀ (xs ys : List (Item Exact)) (stamp index : Nat), ∃ n next m next',
      Node.sequenceItems (xs ++ ys) stamp index = .ok (n, next) ∧
      Node.sequenceItems xs stamp index = .ok (m, next') ∧
      n.listing = (m.bind (Node.sequenceCalled ys) Value.add).listing := by
  refine ⟨fun items lists supports stamp index => ?_, fun xs ys stamp index => ?_⟩
  · obtain ⟨n, next, built, listed⟩ := sequenceItems_built items stamp index
    rw [supports, Listing.extended_some] at listed
    obtain ⟨outcomes, enumerated, entries⟩ := enumerate_of_listing (listed.trans (congrArg some
      (List.map_congr_left fun row _ => rfl : _ = (tuples lists).map jointly)))
    refine ⟨n, next, outcomes, built, enumerated, ?_, tuples_placed_ordered lists, fun _ => mem_tuples, ?_, ?_⟩
    · rw [entries, ← tuples_placed, List.map_map]
      rfl
    · rw [← length_tuples, ← List.length_map Weighted.entry, entries, List.length_map]
    · intro w member
      have entry := List.mem_map_of_mem (f := Weighted.entry) member
      rw [entries] at entry
      obtain ⟨row, taken, same⟩ := List.mem_map.mp entry
      refine ⟨row.map Prod.fst, (congrArg Prod.fst same).symm, ?_⟩
      have sizes := congrArg List.length supports
      simp only [List.length_map] at sizes
      rw [List.length_map, (mem_tuples.mp taken).length_eq, sizes]
  · -- Wherever the sequence is cut, the rest is called with the values of the first part.
    obtain ⟨n, next, built, listed⟩ := sequenceItems_built (xs ++ ys) stamp index
    obtain ⟨m, next', built', listed'⟩ := sequenceItems_built xs stamp index
    refine ⟨n, next, m, next', built, built', ?_⟩
    rw [listed, Node.bind, Node.listing_weightedBind, listed', List.map_append, Listing.extended_append]
    simp only [sequenceCalled_listing]
    rfl

/-- A toss, a plain number, and a toss that must show heads. -/
noncomputable def mixedMembers : List (Item Exact) :=
  [.node ⟨0, 0⟩ (.leaf (fairFlip 0)), .plain (.int 7),
    .node ⟨0, 2⟩ ((Node.leaf (fairFlip 1)).filter Value.truth)]

theorem sequence_lists_tuples_mixed :
    (∃ n next outcomes, Node.sequenceItems mixedMembers 0 0 = .ok (n, next) ∧ enumerate n = .ok outcomes ∧
      outcomes.map Weighted.entry = [(.tuple [.bool true, .int 7, .bool true], .finite (1 / 4)),
        (.tuple [.bool false, .int 7, .bool true], .finite (1 / 4))]) ∧
    ∃ n next m next', Node.sequenceItems mixedMembers 0 0 = .ok (n, next) ∧
      Node.sequenceItems (mixedMembers.take 1) 0 0 = .ok (m, next') ∧
      n.listing = (m.bind (Node.sequenceCalled (mixedMembers.drop 1)) Value.add).listing := by
  have supports : mixedMembers.map Item.listing = List.map some
      [[(.bool true, .finite (1 / 2)), (.bool false, .finite (1 / 2))], [(.int 7, .finite 1)],
        [(.bool true, .finite (1 / 2))]] := by
    have heads : ((Node.leaf (fairFlip 1)).filter Value.truth).listing =
        some [(.bool true, .finite (1 / 2))] := by
      rw [Node.listing_filter,
        show (Node.leaf (fairFlip 1) : Node Exact).listing = _ from Node.listing_toss ⟨0, 1⟩]
      simp [Listing.gather, Outcome.listingIf, Value.truth, Except.toOption, scaled, Exact.one_eq]
    simp only [mixedMembers, List.map_cons, List.map_nil, Item.listing, heads,
      show (Node.leaf (fairFlip 0) : Node Exact).listing = _ from Node.listing_toss ⟨0, 0⟩]
    rfl
  obtain ⟨listed, cut⟩ := sequence_lists_tuples
  obtain ⟨n, next, outcomes, built, enumerated, entries, -⟩ := listed _ _ supports 0 0
  refine ⟨⟨n, next, outcomes, built, enumerated, entries.trans ?_⟩,
    cut (mixedMembers.take 1) (mixedMembers.drop 1) 0 0⟩
  simp [placed, tuples, jointly, Exact.one_eq]
  norm_num

end ChanceGraph
