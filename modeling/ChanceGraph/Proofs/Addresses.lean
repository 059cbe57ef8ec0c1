import ChanceGraph.Proofs.Replay

/-!
What one traversal adds to a trace: choices that the visits to leaves record, at addresses that are never
the same, as counters never go back and a bind is counted between any two choices, however often a leaf is
visited and a filter refuses.
-/

set_option autoImplicit false

namespace ChanceGraph

variable {S σ : Type}

namespace Address

/-- No counter is beyond that of the other address. -/
structure UpTo (a b : Address) : Prop where
  maps : a.maps ≤ b.maps
  binds : a.binds ≤ b.binds
  filters : a.filters ≤ b.filters

variable {a b c : Address}

theorem UpTo.refl (a : Address) : a.UpTo a :=
  ⟨le_rfl, le_rfl, le_rfl⟩

theorem UpTo.trans (first : a.UpTo b) (second : b.UpTo c) : a.UpTo c :=
  ⟨first.maps.trans second.maps, first.binds.trans second.binds, first.filters.trans second.filters⟩

theorem upTo_advance (a : Address) (k : Combinator) : a.UpTo (a.advance k) := by
  cases k <;> constructor <;> simp [advance]

end Address

namespace Choice

/-- A choice further on in a trace: no counter has gone back, and that of binds has moved. -/
structure Before (c d : Choice S) : Prop where
  counters : c.address.UpTo d.address
  binds : c.address.binds < d.address.binds

theorem Before.address_ne {c d : Choice S} (before : c.Before d) : c.address ≠ d.address := by
  intro same
  have less := before.binds
  rw [same] at less
  exact lt_irrefl _ less

/-- What a choice is looked up by. -/
def key [Scalar S] (c : Choice S) : Outcome S (Address × LeafKey S) := do
  return (c.address, ← c.leaf.key)

theorem key_address [Scalar S] {c : Choice S} {k : Address × LeafKey S} (key : c.key = .ok k) :
    k.1 = c.address := by
  obtain ⟨_, -, made⟩ := Outcome.bind_ok.mp key
  cases made
  rfl

/-- No look-up that finds the one choice finds the other. -/
def Distinct [Scalar S] (c d : Choice S) : Prop :=
  ∀ k k', c.key = .ok k → d.key = .ok k' → ¬ (k.1 = k'.1 ∧ k.2.same k'.2 = true)

theorem Before.distinct [Scalar S] {c d : Choice S} (before : c.Before d) : c.Distinct d := by
  rintro k k' key key' ⟨same, -⟩
  rw [key_address key, key_address key'] at same
  exact before.address_ne same

end Choice

/-- More choices at the end of a trace, all of them with a property. -/
def Progress.Gains (P : Choice S → Prop) (here there : Progress S) : Prop :=
  ∃ choices, there.trace.choices = here.trace.choices ++ choices ∧ ∀ c ∈ choices, P c

namespace Progress.Gains

variable {P : Choice S → Prop} {here there there' : Progress S}

theorem same (trace : there.trace = here.trace) : here.Gains P there :=
  ⟨[], by rw [trace, List.append_nil], by simp⟩

theorem record {l : Leaf S} {v : Value S} {score : Number S} {reused : Bool}
    (holds : P ⟨here.address, l, v, score, reused⟩) : here.Gains P (here.record l v score reused) :=
  ⟨[_], rfl, by simpa using holds⟩

theorem trans (first : here.Gains P there) (second : there.Gains P there') : here.Gains P there' := by
  obtain ⟨choices, added, holds⟩ := first
  obtain ⟨choices', added', holds'⟩ := second
  refine ⟨choices ++ choices', ?_, List.forall_mem_append.mpr ⟨holds, holds'⟩⟩
  rw [added', added, List.append_assoc]

end Progress.Gains

/-- A traversal adds its choices in order, at addresses between those where it starts and ends. -/
structure Adds (here there : Progress S) (choices : List (Choice S)) : Prop where
  added : there.trace.choices = here.trace.choices ++ choices
  onward : here.address.UpTo there.address
  between : ∀ c ∈ choices, here.address.UpTo c.address ∧ c.address.UpTo there.address
  ordered : choices.Pairwise Choice.Before

namespace Adds

variable {here there there' : Progress S} {xs ys : List (Choice S)}

theorem nothing (here : Progress S) : Adds here here [] where
  added := (List.append_nil _).symm
  onward := .refl _
  between := by simp
  ordered := .nil

theorem record (here : Progress S) (l : Leaf S) (v : Value S) (score : Number S) (reused : Bool) :
    Adds here (here.record l v score reused) [⟨here.address, l, v, score, reused⟩] where
  added := rfl
  onward := .refl _
  between := by
    intro c member
    obtain rfl := List.mem_singleton.mp member
    exact ⟨.refl _, .refl _⟩
  ordered := List.pairwise_singleton _ _

theorem notes {l : Leaf S} {v : Value S} (notes : here.Notes l v there) :
    ∃ choices, Adds here there choices := by
  rcases notes with rfl | ⟨score, reused, rfl⟩
  · exact ⟨_, nothing _⟩
  · exact ⟨_, record here l v score reused⟩

theorem under {k : Combinator} (inner : Adds (here.advance k) there xs) : Adds here there xs where
  added := inner.added
  onward := (here.address.upTo_advance k).trans inner.onward
  between c member := (inner.between c member).imp_left (here.address.upTo_advance k).trans
  ordered := inner.ordered

theorem bind (first : Adds (here.advance .bind) there xs) (second : Adds (there.advance .bind) there' ys) :
    Adds here there' (xs ++ ys) where
  added := by
    have before : there.trace.choices = here.trace.choices ++ xs := first.added
    rw [second.added, ← List.append_assoc, ← before]
    rfl
  onward := first.under.onward.trans second.under.onward
  between := by
    refine List.forall_mem_append.mpr ⟨fun c member => ?_, fun c member => ?_⟩
    · exact (first.under.between c member).imp_right fun ends => ends.trans second.under.onward
    · exact (second.under.between c member).imp_left first.under.onward.trans
  ordered := by
    refine List.pairwise_append.mpr ⟨first.ordered, second.ordered, fun c member d member' => ?_⟩
    have ends := (first.between c member).2
    have starts := (second.between d member').1
    -- The bind counted before the dependent keeps what it adds apart from what the source added.
    have counted : there.address.binds < d.address.binds := Int.lt_of_add_one_le starts.binds
    exact ⟨ends.trans (second.under.between d member').1, ends.binds.trans_lt counted⟩

end Adds

variable [Scalar S]

theorem adds_of_walks {rules : LeafRules S} {n : Node S} {here : Progress S} {cache cache' : Cache S}
    {a : Walked S} (walks : Walks rules n here cache a cache') : ∃ choices, Adds here a.here choices := by
  induction walks with
  | leaf meets =>
    cases meets with
    | direct known => exact ⟨_, .nothing _⟩
    | held _ _ notes => exact Adds.notes notes
    | obtained _ _ _ notes => exact Adds.notes notes
  | weightedMap _ _ result ih =>
    obtain ⟨_, -, rfl⟩ := Walked.project_ok result
    obtain ⟨choices, inner⟩ := ih
    exact ⟨choices, inner.under⟩
  | weightedBind _ _ _ _ result ihFirst ihSecond =>
    obtain ⟨_, -, rfl⟩ := Walked.combine_ok result
    obtain ⟨choices, first⟩ := ihFirst
    obtain ⟨choices', second⟩ := ihSecond
    exact ⟨choices ++ choices', first.bind second⟩
  | accepted _ _ ih =>
    obtain ⟨choices, inner⟩ := ih
    exact ⟨choices, inner.under⟩
  | rejected _ _ _ _ ihAgain => exact ihAgain

section Traversals

variable {source : Source (StateM σ) S} {patience : Nat} {cache cache' : Cache S}

/-- What holds of every choice that a visit to a leaf of the program records holds of all that a traversal
records.  All leaves are drawn anew if the first one is. -/
theorem visit_gains {P : Choice S → Prop} {p : Proposal S} {n : Node S} {fresh : Bool}
    {here there : Progress S} {a : Sample S}
    (leaves : ∀ {l anew here cache a there cache'}, l.Within n → (fresh = true → anew = true) →
      Yields (visitLeaf source p anew l here) cache (a, there) cache' → here.Gains P there)
    (run : Yields (visit source patience p n fresh here) cache (a, there) cache') :
    here.Gains P there := by
  induction n generalizing fresh here there cache a cache' with
  | leaf l => exact leaves .leaf id run
  | weightedMap n project ih =>
    obtain ⟨⟨b, _⟩, _, inner, rest⟩ := yields_bind run
    obtain ⟨_, _, -, last⟩ := yields_bind rest
    obtain ⟨same, -⟩ := yields_pure last
    cases same
    have added := ih (fun within => leaves (.weightedMap within)) inner
    exact added
  | weightedBind n dependent combine ih ihDependent =>
    obtain ⟨⟨b, _⟩, _, first, rest⟩ := yields_bind run
    obtain ⟨_, _, -, rest⟩ := yields_bind rest
    obtain ⟨⟨c, _⟩, _, second, rest⟩ := yields_bind rest
    obtain ⟨_, _, -, last⟩ := yields_bind rest
    obtain ⟨same, -⟩ := yields_pure last
    cases same
    have added := ih (fun within => leaves (.source within)) first
    have added' := ihDependent _ _ (fun within => leaves (.dependent _ _ within)) second
    exact added.trans added'
  | filter n predicate ih =>
    -- Only the attempt that is accepted adds to the trace.
    obtain ⟨_, _, attempted, -⟩ := retry_accepted run
    have added := ih (fun within anew => leaves (.filter within) fun _ => anew rfl) attempted
    exact added
  | unknown name => exact absurd run yields_throw
  | broken fault => exact absurd run yields_throw

theorem visit_adds {p : Proposal S} {n : Node S} {fresh : Bool} {here there : Progress S} {a : Sample S}
    (run : Yields (visit source patience p n fresh here) cache (a, there) cache') :
    ∃ choices, Adds here there choices := by
  rw [← walk_visit] at run
  obtain ⟨w, walked, outcome⟩ := yields_map run
  cases outcome
  exact adds_of_walks (walks_of_yields (chainVisitor_follows source p) walked)

theorem propose_adds {root : Node S} {current : Option (ChainState S)} {s : ChainState S}
    (run : Yields (propose source patience root current) cache s cache') :
    s.trace.choices.Pairwise Choice.Before := by
  obtain ⟨_, _, there, _, -, visited, rfl⟩ := propose_yields run
  obtain ⟨choices, adds⟩ := visit_adds visited
  have trace : there.trace.choices = choices := adds.added
  rw [trace]
  exact adds.ordered

/-- No traversal leads back behind its address, and a proposal records its choices in order, each of them at
an address and under a key of its own. -/
theorem addresses_apart (source : Source (StateM σ) S) (patience : Nat) :
    (∀ p n fresh here cache a there cache',
      Yields (visit source patience p n fresh here) cache (a, there) cache' →
        here.address.UpTo there.address) ∧
    ∀ root current cache s cache', Yields (propose source patience root current) cache s cache' →
      (s.trace.choices.Pairwise fun c d => c.address.binds < d.address.binds ∧
        c.address.maps ≤ d.address.maps ∧ c.address.filters ≤ d.address.filters) ∧
      (s.trace.choices.map (·.address)).Nodup ∧ s.trace.choices.Pairwise Choice.Distinct := by
  refine ⟨fun p n fresh here cache a there cache' run => ?_, fun root current cache s cache' run => ?_⟩
  · obtain ⟨_, adds⟩ := visit_adds run
    exact adds.onward
  · have ordered := propose_adds run
    refine ⟨ordered.imp fun before => ?_, List.pairwise_map.mpr (ordered.imp Choice.Before.address_ne),
      ordered.imp Choice.Before.distinct⟩
    exact ⟨before.binds, before.counters.maps, before.counters.filters⟩

end Traversals

/-- One flip, recorded on both sides of a filter that refuses once. -/
theorem addresses_apart_acrossFilter : ∃ s cache',
    Yields (propose tosses 2 (acrossFilter : Node Exact) none) {} s cache' ∧ s.trace.size = 3 ∧
      (s.trace.choices.Pairwise fun c d => c.address.binds < d.address.binds ∧
        c.address.maps ≤ d.address.maps ∧ c.address.filters ≤ d.address.filters) ∧
      (s.trace.choices.map (·.address)).Nodup ∧ s.trace.choices.Pairwise Choice.Distinct := by
  obtain ⟨a, there, cache', visited, -, scores⟩ := acrossFilter_visits
  have run : Yields (propose tosses 2 (acrossFilter : Node Exact) none) {} ⟨there.trace, a, none⟩ cache' :=
    ⟨_, _, runs_propose_first visited⟩
  have three : there.trace.size = 3 := by
    rw [Trace.size, ← List.length_map, scores]
    rfl
  exact ⟨_, _, run, three, (addresses_apart tosses 2).2 _ _ _ _ _ run⟩

end ChanceGraph
