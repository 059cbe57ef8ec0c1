import ChanceGraph.Proofs.Acceptance
import ChanceGraph.Proofs.Addresses

/-!
The acceptance of candidates.  Whatever the program, a candidate keeps choices of the trace before it as they
were, so all that it draws anew or finds in the cache cancels, and the old choices that it lacks are left.
-/

set_option autoImplicit false

namespace ChanceGraph

section Visits

variable {S σ : Type}

variable [Scalar S] {source : Source (StateM σ) S} {patience : Nat} {p : Proposal S} {fresh : Bool}
  {here there : Progress S} {cache cache' : Cache S} {a : Sample S}

/-- A choice that counts as kept is one of the trace before, with its value and its score. -/
def Choice.Kept (p : Proposal S) (c : Choice S) : Prop :=
  c.reused = true →
    ∃ old, p.kept c.address c.leaf = .ok (some old) ∧ old.value = c.value ∧ old.logScore = c.logScore

theorem visitFresh_keeps {l : Leaf S}
    (run : Yields (visitFresh source l here) cache (a, there) cache') : here.Gains (·.Kept p) there := by
  obtain ⟨_, _, -, recorded⟩ := yields_bind run
  obtain ⟨_, -, -, rfl, -⟩ := recordFresh_yields recorded
  refine .record ?_
  rintro ⟨⟩

theorem visitLeaf_keeps {l : Leaf S}
    (run : Yields (visitLeaf source p fresh l here) cache (a, there) cache') :
    here.Gains (·.Kept p) there := by
  rw [visitLeaf] at run
  split at run
  · obtain ⟨same, -⟩ := yields_pure run
    cases same
    exact .same rfl
  · replace run := yields_get run
    split_ifs at run
    · exact visitFresh_keeps run
    · obtain ⟨kept, _, decision, rest⟩ := yields_bind run
      obtain ⟨stays, -⟩ := Traversal.yields_ofOutcome decision
      cases kept with
      | none => exact visitFresh_keeps rest
      | some old =>
        obtain ⟨_, _, -, last⟩ := yields_bind rest
        obtain ⟨same, -⟩ := yields_pure last
        cases same
        exact .record fun _ => ⟨old, stays, rfl, rfl⟩

theorem propose_keeps {root : Node S} {current : Option (ChainState S)} {s : ChainState S}
    (run : Yields (propose source patience root current) cache s cache') :
    ∃ p, p.previous = traceOf current ∧ ∀ c ∈ s.trace.choices, c.Kept p := by
  obtain ⟨p, _, there, _, previous, visited, rfl⟩ := propose_yields run
  obtain ⟨choices, added, kept⟩ := visit_gains (fun _ _ => visitLeaf_keeps) visited
  have trace : there.trace.choices = choices := added
  exact ⟨p, previous, trace ▸ kept⟩

/-- What a chain proposes, from nothing or from what it has proposed before. -/
inductive Reached (source : Source (StateM σ) S) (patience : Nat) (root : Node S) : ChainState S → Prop where
  | proposed {current : Option (ChainState S)} {s : ChainState S} {cache cache' : Cache S}
    (before : ∀ c, current = some c → Reached source patience root c)
    (run : Yields (propose source patience root current) cache s cache') : Reached source patience root s

variable {root : Node S}

theorem Reached.addresses {s : ChainState S} (reached : Reached source patience root s) :
    (s.trace.choices.map (·.address)).Nodup := by
  obtain ⟨-, run⟩ := reached
  exact List.pairwise_map.mpr ((propose_adds run).imp Choice.Before.address_ne)

theorem nextState_reaches : ChainState.Kept source patience root (Reached source patience root) := by
  intro current left tally s tally' before run
  rcases nextState_yields run with stays | ⟨_, _, _, proposed, -, -⟩
  · exact before s stays
  · exact .proposed before proposed

/-- However many samples a chain has given, its state is one that it has proposed. -/
theorem takeSamples_reaches {k : Nat} {tally : ChainTally S} {samples : List (Sample S)}
    {reading : Reading S}
    (run : Yields (takeSamples (Reader.next source patience .markov root) k) ⟨tally, none⟩ samples reading) :
    ∀ s, reading.current = some s → Reached source patience root s := by
  refine (takeOnto_keeps nextState_reaches (fun s current => ?_) rfl run).2
  cases current

theorem runs_propose_next {s : ChainState S} {p : Proposal S} {u : S} {w w₁ w' : σ}
    (some : s.trace.isEmpty = false) (uniform : source.uniform w = (.ok u, w₁))
    (site : Proposal.at s.trace (Scalar.index u s.trace.size) = .ok p)
    (visited : Runs (visit source patience p root false ⟨{}, .empty⟩) cache.advance w₁ (a, there) cache' w') :
    Runs (propose source patience root (.some s)) cache w
      ⟨there.trace, a, .some (Scalar.index u s.trace.size)⟩ cache' w' := by
  have picked : Runs (pickSite source (.some s)) cache.advance w (p, .some (Scalar.index u s.trace.size))
      cache.advance w₁ := by
    rw [pickSite, some]
    exact Runs.bind (Traversal.runs_ofAction.mpr ⟨uniform, rfl⟩)
      (Runs.bind (Traversal.runs_ofOutcome.mpr ⟨site, rfl, rfl⟩) Runs.of_pure)
  exact Runs.bind (a := ⟨⟩) (runs_modify.mpr ⟨rfl, rfl⟩) (picked.bind (visited.bind Runs.of_pure))

theorem runs_visitChoice_kept {l : Leaf S} {p : Proposal S} {old : Choice S} {w : σ}
    (absent : cache.get? l.id = none) (kept : p.kept here.address l = .ok (some old)) :
    Runs (visitChoice source p false l here) cache w
      (.ofValue old.value, here.record l old.value old.logScore true) (cache.put l.id old.value) w := by
  apply Runs.get_bind
  have unseen : cache.contains l.id = false := by rw [Cache.contains, absent, Option.isSome_none]
  rw [unseen]
  exact Runs.bind (Traversal.runs_ofOutcome.mpr ⟨kept, rfl, rfl⟩)
    (Runs.bind (a := ⟨⟩) (runs_modify.mpr ⟨rfl, rfl⟩) Runs.of_pure)

end Visits

theorem Exact.log_lt_zero {u : ℝ} (unit : u ∈ Set.Ico 0 1) : Scalar.log (Exact.finite u) < 0 := by
  rcases unit.1.eq_or_lt with rfl | positive
  · have least : Scalar.log (Exact.finite 0) = .infinite false := by
      change Exact.log _ = _
      simp [Exact.log, lift]
    rw [least]
    rfl
  · rw [finite_log positive, zero_eq, finite_lt]
    exact Real.log_neg positive unit.2

section Exact

variable {σ : Type} {source : Source (StateM σ) Exact} {patience : Nat} {root : Node Exact}
  {cache cache' : Cache Exact} {s t : ChainState Exact}

theorem Reached.valued (reached : Reached source patience root s)
    (known : ∀ c ∈ s.trace.choices, ∃ k, checkedLeafKey c.leaf = .ok k)
    (possible : ∃ x, s.trace.score = .ok (.finite x)) : s.trace.Valued := by
  obtain ⟨_, score⟩ := possible
  obtain ⟨r, each, -⟩ := finite_of_exactSumBy score
  refine ⟨known, reached.addresses, fun c member => ?_⟩
  rw [Choice.score_eq (each c member)]
  exact each c member

/-- What a candidate has kept stands in the trace before it, in the same place and with the same score. -/
theorem propose_kept (run : Yields (propose source patience root (some s)) cache t cache') :
    ∀ n ∈ t.trace.choices, n.reused = true → ∃ c ∈ s.trace.choices, n.Shares c ∧ n.score = c.score := by
  obtain ⟨p, previous, kept⟩ := propose_keeps run
  intro n member flag
  obtain ⟨c, stays, -, score⟩ := kept n member flag
  obtain ⟨listed, address, k, k', key, key', same⟩ := Trace.find?_ok (Proposal.kept_ok stays)
  have shares : c.Shares n := ⟨address, k, k', key, key', same⟩
  rw [previous] at listed
  exact ⟨c, listed, shares.symm, by rw [Choice.score, Choice.score, score]⟩

theorem decideMove_accepts (certain : acceptance t.trace s.trace = .ok 0) {u : ℝ} (unit : u ∈ Set.Ico 0 1)
    {w w' : σ} (uniform : source.uniform w = (.ok (.finite u), w')) :
    Runs (decideMove source t (some s)) cache w true cache w' := by
  refine Runs.bind (Traversal.runs_ofOutcome.mpr ⟨certain, rfl, rfl⟩)
    (Runs.bind (Traversal.runs_ofAction.mpr ⟨uniform, rfl⟩) ?_)
  rw [decide_eq_true (Exact.log_lt_zero unit)]
  exact Runs.of_pure

/-- A candidate is charged for the sizes of the two traces and for the old choices that it has no match for,
and for nothing else; if it has a match for each of them and is as large, it is accepted for sure. -/
theorem acceptance_candidate (reached : Reached source patience root s)
    (run : Yields (propose source patience root (some s)) cache t cache')
    (nonempty : s.trace.choices ≠ []) (nonempty' : t.trace.choices ≠ [])
    (possible : ∃ x, s.trace.score = .ok (.finite x)) (possible' : ∃ x, t.trace.score = .ok (.finite x))
    (known : ∀ c ∈ s.trace.choices ++ t.trace.choices, ∃ k, checkedLeafKey c.leaf = .ok k) :
    acceptance t.trace s.trace = .ok (.finite (min 0
      (Real.log s.trace.size - Real.log t.trace.size - s.trace.unmatched t.trace))) ∧
    ((∀ c ∈ s.trace.choices, ∃ n ∈ t.trace.choices, n.Shares c) → s.trace.size = t.trace.size →
      acceptance t.trace s.trace = .ok 0 ∧
      ∀ u ∈ Set.Ico (0 : ℝ) 1, ∀ cache w w', source.uniform w = (.ok (.finite u), w') →
        Runs (decideMove source t (some s)) cache w true cache w') := by
  have ⟨left, right⟩ := List.forall_mem_append.mp known
  have old := reached.valued left possible
  have candidate : Reached source patience root t :=
    .proposed (fun c current => by cases current; exact reached) run
  have closed := (candidate.valued right possible').acceptance old nonempty' nonempty (propose_kept run)
  refine ⟨closed, fun matched sizes => ?_⟩
  -- Where every old choice has a match nothing is paid for.
  have nothing : s.trace.unmatched t.trace = 0 := by
    refine List.sum_eq_zero fun x listed => ?_
    obtain ⟨c, member, rfl⟩ := List.mem_map.mp listed
    exact counted_neg (not_not_intro (matched c member)) _
  have certain : acceptance t.trace s.trace = .ok 0 := by
    rw [closed, nothing, sizes, sub_self, sub_zero, min_self]
    rfl
  exact ⟨certain, fun u unit cache w w' uniform => decideMove_accepts certain unit uniform⟩

end Exact

section Example

/-- A source of tosses that picks sites in the middle. -/
noncomputable def middle : Source (StateM (List Bool)) Exact :=
  { tosses with uniform := fun rest => (.ok (Scalar.ratio 1 2), rest) }

/-- The flip on both sides of the filter, and the one under it, all true. -/
noncomputable def truths (kept : Bool) : Trace Exact :=
  ⟨[⟨{ binds := 1 }, fairFlip 0, .bool true, fairScore, kept⟩,
    ⟨{ binds := 3, filters := 1 }, fairFlip 1, .bool true, fairScore, false⟩,
    ⟨{ binds := 4, filters := 1 }, fairFlip 0, .bool true, fairScore, false⟩]⟩

theorem truths_possible (kept : Bool) : ∃ x, (truths kept).score = .ok (.finite x) := by
  refine ⟨_, exactSumBy_finite (r := fun _ => Real.log (1 / 2)) fun c member => ?_⟩
  have fair : c.logScore = fairScore := by
    simp only [truths, List.mem_cons, List.not_mem_nil, or_false] at member
    rcases member with rfl | rfl | rfl <;> rfl
  rw [fair, fairScore_eq, Number.toScalar_exact, Number.toExact_real]

theorem truths_known (kept : Bool) :
    ∀ c ∈ (truths kept).choices, ∃ k, checkedLeafKey c.leaf = .ok k := by
  simp only [truths, List.forall_mem_cons, List.not_mem_nil, false_imp_iff, implies_true, and_true]
  exact ⟨⟨_, rfl⟩, ⟨_, rfl⟩, ⟨_, rfl⟩⟩

theorem shares_fairFlip {address : Address} {index : Nat} {v v' : Value Exact} {x x' : Number Exact}
    {kept kept' : Bool} :
    Choice.Shares ⟨address, fairFlip index, v, x, kept⟩ ⟨address, fairFlip index, v', x', kept'⟩ :=
  ⟨rfl, _, _, rfl, rfl, by simp [LeafKey.same, Value.alike_refl]⟩

theorem visit_truths {p : Proposal Exact} {cache : Cache Exact} {w : List Bool} {kept : Bool}
    (past : cache.Past)
    (first : Runs (visit middle 1 p (.leaf (fairFlip 0)) false ⟨{ binds := 1 }, .empty⟩) cache.advance w
      (.ofValue (.bool true), Progress.record ⟨{ binds := 1 }, .empty⟩ (fairFlip 0) (.bool true) fairScore kept)
      (cache.advance.put (fairFlip (S := Exact) 0).id (.bool true)) [true]) :
    ∃ a there cache', cache'.Past ∧ there.trace = truths kept ∧
      Runs (visit middle 1 p acrossFilter false ⟨{}, .empty⟩) cache.advance w (a, there) cache' [] := by
  have apart : (fairFlip 0 : Leaf Exact).id ≠ (fairFlip 1 : Leaf Exact).id := by simp [fairFlip]
  refine ⟨_, _, _, (past.advance.put _ _).put _ _, rfl, runs_visit_weightedBind first rfl
    (runs_visit_weightedBind (runs_retry_accept
      (runs_visit_fairFlip_anew (.inl rfl) (Traversal.runs_sample_absent ?_ rfl)) rfl) rfl
      (runs_visit_fairFlip_anew (.inl ?_) (Traversal.runs_sample_held ?_)) rfl rfl) rfl rfl⟩
  · rw [Cache.get?_put_of_ne apart]
    exact Cache.get?_advance past _
  · rw [Cache.contains, Cache.get?_put_of_ne apart.symm, Cache.get?_put_self]
    rfl
  · rw [Cache.get?_put_of_ne apart.symm, Cache.get?_put_self]

theorem truths_first : ∃ a cache', cache'.Past ∧
    Yields (propose middle 1 acrossFilter none) {} ⟨truths false, a, none⟩ cache' := by
  have absent := Cache.get?_advance (S := Exact) Cache.past_new
  obtain ⟨a, there, cache', past, trace, visited⟩ := visit_truths Cache.past_new
    (runs_visit_fairFlip (w := [true, true]) (Traversal.runs_sample_absent (absent _) rfl))
  exact ⟨a, cache', past, _, _, trace ▸ runs_propose_first visited⟩

/-- The site in the middle is the flip under the filter, so the first flip is kept. -/
theorem truths_next {cache : Cache Exact} (past : cache.Past) (a : Sample Exact) : ∃ b cache',
    Yields (propose middle 1 acrossFilter (some ⟨truths false, a, none⟩)) cache
      ⟨truths true, b, some 1⟩ cache' := by
  have index : Scalar.index (Scalar.ratio 1 2 : Exact) (truths false).size = 1 := by
    have floor : ⌊((1 : Int) / (2 : Nat) : ℝ) * (3 : Nat)⌋ = 1 := by norm_num [Int.floor_eq_iff]
    have size : (truths false).size = 3 := rfl
    rw [size, Scalar.index, Exact.ratio_eq, Exact.ofNat_eq, Exact.finite_mul, Exact.finite_floor, floor]
    rfl
  obtain ⟨k, key⟩ : ∃ k, (fairFlip 1 : Leaf Exact).key = .ok k := ⟨_, rfl⟩
  set p : Proposal Exact := ⟨truths false, some ⟨{ binds := 3, filters := 1 }, k, ⟨0, 1⟩⟩⟩
  have site : Proposal.at (truths false) 1 = .ok p := by
    change (do return Proposal.mk (truths false) (some ⟨_, ← (fairFlip 1).key, _⟩)) = _
    rw [key]
    rfl
  let old : Choice Exact := ⟨{ binds := 1 }, fairFlip 0, .bool true, fairScore, false⟩
  have stays : p.kept { binds := 1 } (fairFlip 0) = .ok (some old) := by
    obtain ⟨_, known⟩ := truths_known false old List.mem_cons_self
    have looked : (truths false).find? { binds := 1 } (fairFlip 0) = .ok (some old) := by
      rcases Trace.find?_known (d := old) (truths_known false) known with
        ⟨c, member, shares, found⟩ | ⟨nothing, -⟩
      · simp only [truths, List.mem_cons, List.not_mem_nil, or_false] at member
        rcases member with rfl | rfl | rfl
        · exact found
        · cases shares.1
        · cases shares.1
      · exact absurd shares_fairFlip (nothing old List.mem_cons_self)
    have other : p.redraws { binds := 1 } (fairFlip 0) = .ok false := rfl
    exact Proposal.kept_of_found looked other
  -- The flip before the site is kept, so nothing is drawn for it.
  have first : Runs (visitChoice middle p false (fairFlip 0) ⟨{ binds := 1 }, .empty⟩) cache.advance [true]
      _ _ [true] := runs_visitChoice_kept (Cache.get?_advance past _) stays
  obtain ⟨b, there, cache', -, trace, visited⟩ := visit_truths past first
  have proposed : Runs (propose middle 1 acrossFilter (some ⟨truths false, a, none⟩)) cache [true]
      _ cache' [] := runs_propose_next rfl rfl (by rw [index, site]) visited
  rw [index, trace] at proposed
  exact ⟨b, cache', _, _, proposed⟩

/-- The flip under the filter is drawn anew, that before it is kept, and that after it found in the cache. -/
theorem acceptance_candidate_truths : ∃ s t cache cache', Reached middle 1 acrossFilter s ∧
    Yields (propose middle 1 acrossFilter (some s)) cache t cache' ∧
    s.trace = truths false ∧ t.trace = truths true ∧ acceptance t.trace s.trace = .ok 0 ∧
    Runs (decideMove middle t (some s)) cache' [] true cache' [] := by
  obtain ⟨a, cache, past, run⟩ := truths_first
  obtain ⟨b, cache', run'⟩ := truths_next past a
  have reached : Reached middle 1 acrossFilter ⟨truths false, a, none⟩ :=
    .proposed (fun _ current => by cases current) run
  obtain ⟨-, certain⟩ := acceptance_candidate reached run' (List.cons_ne_nil _ _) (List.cons_ne_nil _ _)
    (truths_possible false) (truths_possible true)
    (List.forall_mem_append.mpr ⟨truths_known false, truths_known true⟩)
  have matched : ∀ c ∈ (truths false).choices, ∃ n ∈ (truths true).choices, n.Shares c := by
    simp only [truths, List.forall_mem_cons, List.not_mem_nil, false_imp_iff, implies_true, and_true]
    exact ⟨⟨_, .head _, shares_fairFlip⟩, ⟨_, .tail _ (.head _), shares_fairFlip⟩,
      ⟨_, .tail _ (.tail _ (.head _)), shares_fairFlip⟩⟩
  obtain ⟨accepted, moves⟩ := certain matched rfl
  exact ⟨_, _, cache, cache', reached, run', rfl, rfl, accepted,
    moves (1 / 2) (by norm_num) cache' [] [] (by simp [middle])⟩

end Example

end ChanceGraph
