import ChanceGraph.Proofs.Proposals

/-!
The probability of a move of a chain from one trace of a graph to another: the one choice that may be
redrawn is the one at which the two fork.
-/

set_option autoImplicit false

namespace ChanceGraph

open Traversal

def Trace.Matches (s t : Trace Exact) : Prop :=
  List.Forall₂ Choice.Same s.choices t.choices

/-- The probability that a step from the current state ends in the trace: a candidate with that trace is
proposed, and accepted. -/
noncomputable def moveMass (patience : Nat) (root : Node Exact) (cache : Cache Exact) (stamp : Nat)
    (current : ChainState Exact) (target : Trace Exact) : ℝ :=
  mean (propose (Law.source current.trace.size) patience root (some current)) cache stamp
    fun candidate _ _ => counted (candidate.trace.Matches target)
      (Outcome.worth (fun a => (Scalar.exp a).toReal) (acceptance candidate.trace current.trace))

/-- A trace of positive density that a traversal of the graph leaves which meets no leaf twice.  The
graph was built before the stamp `built`, calls have later ones. -/
structure Trajectory (root : Node Exact) (built : Nat) (t : Trace Exact) : Prop where
  recorded : ∃ start a address stop, built ≤ start ∧
    Records root {} start t.choices a address stop
  once : (t.choices.map (·.leaf.id)).Nodup
  positive : ∀ c ∈ t.choices, 0 < c.chance

theorem Trajectory.proper {root : Node Exact} {built : Nat} {t : Trace Exact}
    (trajectory : Trajectory root built t) : t.Proper := by
  obtain ⟨start, a, address, stop, -, records⟩ := trajectory.recorded
  exact ⟨records.sound, records.addresses, trajectory.positive⟩

section Site

variable {parts patience : Nat} {root : Node Exact} {current : ChainState Exact}

theorem mean_propose (filled : current.trace.choices ≠ []) (cache : Cache Exact) (stamp : Nat)
    (g : ChainState Exact → Cache Exact → Nat → ℝ) :
    mean (propose (Law.source current.trace.size) patience root (some current)) cache stamp g =
      ((List.range current.trace.size).map fun i => 1 / (current.trace.size : ℝ) *
        Outcome.worth (fun p => mean (visit (Law.source current.trace.size) patience p root false
          ⟨{}, .empty⟩) cache.advance stamp fun a cache stamp => g ⟨a.2.trace, a.1, some i⟩ cache stamp)
          (Proposal.at current.trace i)).sum := by
  have nonempty : current.trace.isEmpty = false := by
    simp [Trace.isEmpty, filled]
  -- The site is one of the old choices, each with the same probability.
  rw [propose, mean_bind, advance, mean_modify, mean_bind]
  simp only [pickSite, nonempty, Bool.false_eq_true, if_false]
  rw [mean_bind, mean_uniform]
  congr 1
  refine List.map_congr_left fun i below => ?_
  rw [index_middle (List.mem_range.mp below), mean_bind, mean_ofOutcome]
  cases Proposal.at current.trace i with
  | error fault => rfl
  | ok p => simp only [Outcome.worth, mean_pure, mean_bind]

/-- Whether a proposal that redraws one choice redraws another: the same leaf, or one like it in its
place. -/
def Choice.Redraws (built : Nat) (x c : Choice Exact) : Prop :=
  x.Shares c ∨ x.leaf.id = c.leaf.id ∧ x.leaf.id.stamp < built

theorem Leaf.key_of_tabular {l : Leaf Exact} (tabular : l.distribution.Tabular) : ∃ k, l.key = .ok k := by
  obtain ⟨k, checked⟩ := l.hashable tabular
  exact ⟨k, (checkedLeafKey_ok.mp checked).1⟩

/-- What is kept of a trace on the way to another one. -/
structure Keeps (built : Nat) (s : Trace Exact) (x c : Choice Exact) (old : Option (Choice Exact)) :
    Prop where
  shared : ∀ d, old = some d → d ∈ s.choices ∧ d.Shares c ∧ ¬ x.Redraws built c
  gone : old = none → x.Redraws built c ∨ ∀ d ∈ s.choices, ¬ d.Shares c

variable {built start start' : Nat} {s : Trace Exact} {x c : Choice Exact}

theorem Proposal.redraws_shifted {k : LeafKey Exact} (key : x.leaf.key = .ok k)
    (old : x.leaf.id.stamp < start) (early : built ≤ start') (tabular : c.leaf.distribution.Tabular)
    {id : ObjectId} (ids : Renaming.shift built start start' id c.leaf.id) :
    ∃ b, (Proposal.mk s (some ⟨x.address, k, x.leaf.id⟩)).redraws c.address ⟨id, c.leaf.distribution⟩ =
      .ok b ∧ (b = true ↔ x.Redraws built c) := by
  obtain ⟨k', key'⟩ := Leaf.key_of_tabular tabular
  -- A leaf that a call of this proposal makes is not an old leaf, whatever the call.
  have object : x.leaf.id = id ↔ x.leaf.id = c.leaf.id ∧ x.leaf.id.stamp < built := by
    rcases ids with ⟨rfl, before⟩ | ⟨d, i, rfl, new⟩
    · exact ⟨fun same => ⟨same, same ▸ before⟩, fun same => same.1⟩
    · rw [new]
      constructor
      · intro same
        rw [same] at old
        simp only at old
        omega
      · rintro ⟨same, before⟩
        rw [same] at before
        simp only at before
        omega
  have asked : (Leaf.mk id c.leaf.distribution).key = .ok k' := key'
  unfold Proposal.redraws
  by_cases same : x.leaf.id = id
  · refine ⟨true, ?_, fun _ => .inr (object.mp same), fun _ => rfl⟩
    simp only [same, if_true]
    rfl
  · refine ⟨decide (x.address = c.address) && k.same k', ?_, ?_⟩
    · simp only [same, if_false, asked, Outcome.ok_bind]
      rfl
    · rw [Bool.and_eq_true, decide_eq_true_iff]
      constructor
      · exact fun ⟨address, keys⟩ => .inl ⟨address, k, k', key, key', keys⟩
      · rintro (⟨address, l, l', known, known', keys⟩ | also)
        · rw [key, Except.ok.injEq] at known
          rw [key', Except.ok.injEq] at known'
          subst known known'
          exact ⟨address, keys⟩
        · exact absurd (object.mpr also) same

theorem Trace.find?_congr (t : Trace Exact) (address : Address) {l l' : Leaf Exact}
    (same : l.distribution = l'.distribution) : t.find? address l = t.find? address l' := by
  unfold Trace.find? checkedLeafKey Leaf.key
  rw [same]

theorem Proposal.kept_nothing {p : Proposal Exact} {address : Address} {l : Leaf Exact}
    (looked : p.previous.find? address l = .ok none) : p.kept address l = .ok none := by
  rw [kept, looked]
  rfl

theorem Proposal.kept_found {p : Proposal Exact} {address : Address} {l : Leaf Exact}
    {d : Choice Exact} {b : Bool} (looked : p.previous.find? address l = .ok (some d))
    (decided : p.redraws address l = .ok b) :
    p.kept address l = .ok (if b = true then none else some d) := by
  rw [kept, looked]
  simp only [Outcome.ok_bind, decided]
  rfl

theorem Proposal.kept_shifted (sound : ∀ d ∈ s.choices, d.Sound) {k : LeafKey Exact}
    (key : x.leaf.key = .ok k) (old : x.leaf.id.stamp < start) (early : built ≤ start')
    (tabular : c.leaf.distribution.Tabular) :
    ∃ o, Keeps built s x c o ∧ ∀ id, Renaming.shift built start start' id c.leaf.id →
      (Proposal.mk s (some ⟨x.address, k, x.leaf.id⟩)).kept c.address ⟨id, c.leaf.distribution⟩ =
        .ok o := by
  have looked (id : ObjectId) : s.find? c.address ⟨id, c.leaf.distribution⟩ =
      s.find? c.address c.leaf := s.find?_congr c.address rfl
  rcases Trace.find?_shares sound tabular with ⟨d, member, shares, found⟩ | ⟨nothing, found⟩
  · by_cases anew : x.Redraws built c
    · refine ⟨none, ⟨fun _ same => (nomatch same), fun _ => .inl anew⟩, fun id ids => ?_⟩
      obtain ⟨b, decided, known⟩ := redraws_shifted (s := s) key old early tabular ids
      rw [kept_found ((looked id).trans found) decided, if_pos (known.mpr anew)]
    · refine ⟨some d, ⟨fun e same => ?_, fun same => (nomatch same)⟩, fun id ids => ?_⟩
      · cases same
        exact ⟨member, shares, anew⟩
      · obtain ⟨b, decided, known⟩ := redraws_shifted (s := s) key old early tabular ids
        rw [kept_found ((looked id).trans found) decided, if_neg (mt known.mp anew)]
  · refine ⟨none, ⟨fun _ same => (nomatch same), fun _ => .inr nothing⟩, fun id _ => ?_⟩
    exact kept_nothing ((looked id).trans found)

end Site

/-- One leaf takes two values in the two traces; up to there they are the same. -/
structure Fork (built : Nat) (s t : Trace Exact) (x y : Choice Exact) : Prop where
  old : x ∈ s.choices
  new : y ∈ t.choices
  shares : x.Shares y
  value : x.value ≠ y.value
  ids : (x.leaf.id = y.leaf.id ∧ x.leaf.id.stamp < built) ∨
    (built ≤ x.leaf.id.stamp ∧ built ≤ y.leaf.id.stamp)

theorem Fork.symm {built : Nat} {s t : Trace Exact} {x y : Choice Exact} (fork : Fork built s t x y) :
    Fork built t s y x where
  old := fork.new
  new := fork.old
  shares := fork.shares.symm
  value := fork.value.symm
  ids := fork.ids.imp (fun ⟨same, before⟩ => ⟨same.symm, same ▸ before⟩) And.symm

/-- The graph is the same at every call, and its own leaves were built before. -/
def Node.Settled (root : Node Exact) (built : Nat) : Prop :=
  root.Renamed (fun a b => a = b ∧ a.stamp < built) root

section Trajectories

variable {root : Node Exact} {built : Nat} {s t : Trace Exact} {x y : Choice Exact}

theorem Node.Settled.shift (settled : root.Settled built) (start start' : Nat) :
    root.Renamed (.shift built start start') root :=
  settled.mono fun _ _ same => .inl same

theorem Trajectory.fork (settled : root.Settled built) (left : Trajectory root built s)
    (right : Trajectory root built t) (differ : ¬ s.Matches t) : ∃ x y, Fork built s t x y := by
  obtain ⟨start, a, address, stop, early, records⟩ := left.recorded
  obtain ⟨start', a', address', stop', early', records'⟩ := right.recorded
  obtain ⟨x, old, y, new, place, same, ids, value⟩ | ⟨matches', -⟩ :=
    records.fork (settled.shift start start') ⟨0, rfl, rfl⟩ records'
  · obtain ⟨k, key⟩ := Leaf.key_of_tabular (records.sound x old).tabular
    have key' : y.leaf.key = .ok k := by
      rw [← key, Leaf.key, Leaf.key, same]
    have self : k.same k = true := by
      simp [LeafKey.same, Value.alike_refl]
    refine ⟨x, y, old, new, ⟨place, k, k, key, key', self⟩, value, ?_⟩
    rcases ids with ⟨same, before⟩ | ⟨d, i, left, right⟩
    · exact .inl ⟨same, before⟩
    · rw [left, right]
      exact .inr ⟨by simp only; omega, by simp only; omega⟩
  · exact absurd matches' differ

theorem Fork.redraws_iff (fork : Fork built s t x y) (right : Trajectory root built t)
    {c : Choice Exact} (member : c ∈ t.choices) : x.Redraws built c ↔ c = y := by
  constructor
  · -- The leaf that is redrawn, or one in its place, is met once on the way to the other trace.
    rintro (shares | ⟨same, before⟩)
    · exact right.proper.eq_of_shares member fork.new shares.symm fork.shares.symm
    · rcases fork.ids with ⟨same', -⟩ | ⟨late, -⟩
      · exact List.inj_on_of_nodup_map right.once member fork.new (same.symm.trans same')
      · omega
  · rintro rfl
    exact .inl fork.shares

theorem Fork.redraws_other (fork : Fork built s t x y) (left : Trajectory root built s)
    {r : Choice Exact} (member : r ∈ s.choices) (redraws : r.Redraws built y) : r = x := by
  rcases redraws with shares | ⟨same, before⟩
  · exact left.proper.eq_of_shares member fork.old shares fork.shares
  · rcases fork.ids with ⟨same', -⟩ | ⟨-, late⟩
    · exact List.inj_on_of_nodup_map left.once member fork.old (same.trans same'.symm)
    · rw [same] at before
      omega

theorem Keeps.eq_of_shares {old : Option (Choice Exact)} {c d : Choice Exact} (left : s.Proper)
    (keeps : Keeps built s x c old) (member : d ∈ s.choices) (shares : d.Shares c)
    (stays : ¬ x.Redraws built c) : old = some d := by
  cases known : old with
  | none => exact ((keeps.gone known).elim stays fun nothing => nothing d member shares).elim
  | some e =>
    have ⟨listed, shares', _⟩ := keeps.shared e known
    rw [left.eq_of_shares listed member shares' shares]

theorem follows_of_forall₂ {choices target : List (Choice Exact)}
    (same : List.Forall₂ Choice.Same choices target) : Follows choices target := by
  induction same with
  | nil => intro i c found; simp at found
  | @cons c d choices target head _ ih =>
    intro i e found
    cases i with
    | zero =>
      obtain rfl : c = e := by simpa using found
      exact ⟨d, rfl, head⟩
    | succ i => exact ih i e found

theorem mean_site (settled : root.Settled built) (left : Trajectory root built s)
    (right : Trajectory root built t) {cache : Cache Exact} (past : cache.Past) {stamp : Nat}
    (early : built ≤ stamp) {r : Choice Exact} (before : r.leaf.id.stamp < stamp)
    {k : LeafKey Exact} (key : r.leaf.key = .ok k) (parts patience : Nat) :
    ∃ kept, (∀ c ∈ t.choices, Keeps built s r c (kept c)) ∧
      ∀ (g : Sample Exact × Progress Exact → Cache Exact → Nat → ℝ) (G : ℝ), Aims t.choices g →
      ((∀ c ∈ t.choices, ∀ old, kept c = some old → old.value = c.value) →
        ∀ a address replayed cache now, List.Forall₂ (Choice.Replays kept) t.choices replayed →
        g (a, ⟨address, ⟨replayed⟩⟩) cache now = G) →
      mean (visit (Law.source parts) patience ⟨s, some ⟨r.address, k, r.leaf.id⟩⟩ root false
        ⟨{}, .empty⟩) cache.advance stamp g = (t.choices.map (Choice.toll kept)).prod * G := by
  obtain ⟨start, a, address, stop, early', records⟩ := right.recorded
  have each := fun (c : Choice Exact) (listed : c ∈ t.choices) =>
    Proposal.kept_shifted left.proper.sound key before early' (records.sound c listed).tabular
  -- What is kept depends on the choice of the target only, not on the stamps of the proposal.
  choose! kept spec using each
  refine ⟨kept, fun c member => (spec c member).1, fun g G aims arrives => ?_⟩
  refine mean_visit_on records (settled.shift stamp start) early ⟨0, rfl, rfl⟩
    ⟨List.prefix_rfl, fun c member => (spec c member).2,
      fun _ _ id _ => Cache.get?_advance past id, right.once⟩ aims ?_
  intro agree replayed cache now passed _
  exact arrives agree _ _ _ _ _ passed.replays

end Trajectories

namespace Choice.Replays

variable {kept : Choice Exact → Option (Choice Exact)} {c c' d : Choice Exact}

theorem key (replays : Replays kept c c') : c'.leaf.key = c.leaf.key := by
  rw [Leaf.key, Leaf.key, replays.distribution]

theorem chance (replays : Replays kept c c') : c'.chance = c.chance := by
  rw [Choice.chance, Choice.chance, Leaf.chance, Leaf.chance, replays.distribution, replays.value]

theorem shares_iff (replays : Replays kept c c') : c'.Shares d ↔ c.Shares d := by
  rw [Shares, Shares, replays.address, replays.key]

end Choice.Replays

section Candidate

variable {s t : Trace Exact} {kept : Choice Exact → Option (Choice Exact)}
  {replayed : List (Choice Exact)}

theorem proper_of_replays (left : s.Proper) (right : t.Proper)
    (found : ∀ c ∈ t.choices, ∀ old, kept c = some old →
      old ∈ s.choices ∧ old.Shares c ∧ old.value = c.value)
    (replays : List.Forall₂ (Choice.Replays kept) t.choices replayed) :
    (Trace.mk replayed).Proper := by
  have addresses : replayed.map (·.address) = t.choices.map (·.address) := by
    rw [← List.forall₂_eq_eq_eq, List.forall₂_map_left_iff, List.forall₂_map_right_iff]
    exact replays.flip.imp fun _ _ again => again.address
  refine ⟨fun c' member => ?_, by rw [addresses]; exact right.addresses, fun c' member => ?_⟩
  · obtain ⟨c, listed, again⟩ := exists_of_forall₂ replays member
    have sound := right.sound c listed
    -- What is kept comes with the old score, which is that of the target where the values agree.
    have score : c'.logScore = c.logScore := by
      rw [again.logScore]
      cases keeps : kept c with
      | none => rfl
      | some old =>
        obtain ⟨known, shares, agree⟩ := found c listed old keeps
        rw [Option.map_some, Option.getD_some, left.logScore known, right.logScore listed,
          shares.chance_eq (left.sound old known) sound agree]
    obtain ⟨w, table, supported, items⟩ := sound.listed
    refine ⟨again.distribution ▸ sound.tabular, ⟨w, table, ?_, ?_⟩, ?_⟩
    · rw [again.distribution, supported]
    · rw [again.value]
      exact items
    · rw [again.distribution, again.value, score]
      exact sound.scored
  · obtain ⟨c, listed, again⟩ := exists_of_forall₂ replays member
    rw [again.chance]
    exact right.positive c listed

theorem acceptance_replayed (left : s.Proper) (right : t.Proper) (filled : s.choices ≠ [])
    (filled' : t.choices ≠ [])
    (found : ∀ c ∈ t.choices, ∀ old, kept c = some old →
      old ∈ s.choices ∧ old.Shares c ∧ old.value = c.value)
    (replays : List.Forall₂ (Choice.Replays kept) t.choices replayed) :
    acceptance ⟨replayed⟩ s =
      .ok (.finite (min 0 (Real.log s.size - Real.log t.size - s.surplus t))) := by
  have size : (Trace.mk replayed).size = t.size := replays.length_eq.symm
  -- A choice has a match among the replayed ones just if it has one in the target.
  have surplus : s.surplus ⟨replayed⟩ = s.surplus t := by
    refine congrArg List.sum (List.map_congr_left fun c _ => ?_)
    have shared : (∃ d ∈ replayed, d.Shares c) ↔ ∃ d ∈ t.choices, d.Shares c := by
      constructor
      · rintro ⟨d, member, shares⟩
        obtain ⟨e, listed, again⟩ := exists_of_forall₂ replays member
        exact ⟨e, listed, again.shares_iff.mp shares⟩
      · rintro ⟨e, listed, shares⟩
        obtain ⟨d, member, again⟩ := exists_of_forall₂ replays.flip listed
        exact ⟨d, member, again.shares_iff.mpr shares⟩
    rw [shared]
  have nonempty : replayed ≠ [] := by
    intro empty
    rw [empty] at replays
    exact filled' (List.forall₂_nil_right_iff.mp replays)
  rw [Trace.acceptance_exact (proper_of_replays left right found replays) left nonempty filled, size,
    surplus]
  intro n member reused
  obtain ⟨c, listed, again⟩ := exists_of_forall₂ replays member
  rw [again.reused, Option.isSome_iff_exists] at reused
  obtain ⟨old, keeps⟩ := reused
  obtain ⟨known, shares, agree⟩ := found c listed old keeps
  exact ⟨old, known, again.shares_iff.mpr shares.symm, by rw [again.value, agree]⟩

theorem matches_replayed (replays : List.Forall₂ (Choice.Replays kept) t.choices replayed) :
    (Trace.mk replayed).Matches t :=
  replays.flip.imp fun _ _ again => ⟨again.address, again.key, again.value⟩

end Candidate

end ChanceGraph
