import ChanceGraph.Proofs.Exact
import ChanceGraph.Proofs.Generations
import ChanceGraph.Proofs.Runs

/-!
One leaf, one value: within a generation every visit to a leaf sees the same value.  A filter that
discards an attempt starts a new generation, in which leaves visited before it get new values.
-/

set_option autoImplicit false

namespace ChanceGraph

variable {S σ : Type}

/-- What a visit has to do with those before it. -/
structure Visit.Follows (b : Visit S) (before : List (Visit S)) : Prop where
  later : ∀ a ∈ before, a.generation ≤ b.generation
  same : ∀ a ∈ before, a.leaf = b.leaf → a.generation = b.generation → a.value = b.value
  held : b.held = true → ∃ a ∈ before, a.leaf.id = b.leaf.id ∧ a.generation = b.generation
  obtained : b.held = false → ∀ a ∈ before, a.leaf = b.leaf → a.generation = b.generation →
    b.leaf.distribution = .constant b.value

def Consistent (before : List (Visit S)) : List (Visit S) → Prop
  | [] => True
  | b :: rest => b.Follows before ∧ Consistent (before ++ [b]) rest

theorem consistent_append {before xs ys : List (Visit S)} (first : Consistent before xs)
    (second : Consistent (before ++ xs) ys) : Consistent before (xs ++ ys) := by
  induction xs generalizing before with
  | nil => simpa using second
  | cons x xs ih =>
    obtain ⟨follows, rest⟩ := first
    exact ⟨follows, ih rest (by simpa using second)⟩

theorem follows_of_consistent {before xs ys : List (Visit S)} {b : Visit S}
    (consistent : Consistent before (xs ++ b :: ys)) : b.Follows (before ++ xs) := by
  induction xs generalizing before with
  | nil => simpa using consistent.1
  | cons x xs ih => simpa using ih consistent.2

/-- The cache shows the values of this generation's visits, and of no others. -/
structure Remembers (rules : LeafRules S) (cache : Cache S) (visits : List (Visit S)) : Prop where
  past : cache.Past
  bounded : ∀ a ∈ visits, a.generation ≤ cache.generation
  visited : ∀ id v, cache.get? id = some v →
    ∃ a ∈ visits, a.leaf.id = id ∧ a.generation = cache.generation
  known : ∀ a ∈ visits, rules.direct a.leaf = some a.value ∨
    rules.direct a.leaf = none ∧ (a.generation = cache.generation →
      cache.get? a.leaf.id = some a.value)

namespace Remembers

variable {rules : LeafRules S} {cache cache' : Cache S} {before : List (Visit S)}

theorem start (past : cache.Past) : Remembers rules cache.advance [] where
  past := past.advance
  bounded := by simp
  visited id v seen := by simp [Cache.get?_advance past] at seen
  known := by simp

theorem discard {attempt : List (Visit S)} (remembers : Remembers rules cache (before ++ attempt)) :
    Remembers rules cache.advance before where
  past := remembers.past.advance
  bounded a member := by
    have early := remembers.bounded a (List.mem_append_left _ member)
    simp only [Cache.advance]
    omega
  visited id v seen := by simp [Cache.get?_advance remembers.past] at seen
  known a member := by
    have early := remembers.bounded a (List.mem_append_left _ member)
    rcases remembers.known a (List.mem_append_left _ member) with direct | ⟨indirect, -⟩
    · exact .inl direct
    · refine .inr ⟨indirect, fun now => ?_⟩
      simp only [Cache.advance] at now
      omega

variable {l : Leaf S} {here there : Progress S} {v : Visit S}

theorem snoc (remembers : Remembers rules cache before) (now : v.generation = cache.generation)
    (known : rules.direct v.leaf = some v.value ∨
      rules.direct v.leaf = none ∧ cache.get? v.leaf.id = some v.value) :
    Remembers rules cache (before ++ [v]) where
  past := remembers.past
  bounded := List.forall_mem_append.mpr ⟨remembers.bounded, by simp [now]⟩
  visited id u seen := by
    obtain ⟨a, member, facts⟩ := remembers.visited id u seen
    exact ⟨a, List.mem_append_left _ member, facts⟩
  known := List.forall_mem_append.mpr ⟨remembers.known, by simpa [now] using known⟩

theorem meets (remembers : Remembers rules cache before)
    (meets : Meets rules l here cache v there cache') : Remembers rules cache' (before ++ [v]) := by
  cases meets with
  | direct known => exact remembers.snoc rfl (.inl known)
  | held indirect held notes => exact remembers.snoc rfl (.inr ⟨indirect, held⟩)
  | @obtained v _ indirect absent obtained notes =>
    -- The cache changes for this leaf only, for which it had nothing.
    refine ⟨remembers.past.put _ _, ?_, ?_, ?_⟩
    · exact List.forall_mem_append.mpr ⟨remembers.bounded, by simp [Cache.put]⟩
    · intro id u seen
      by_cases same : l.id = id
      · exact ⟨_, List.mem_append_right _ (List.mem_singleton_self _), same, rfl⟩
      · rw [Cache.get?_put_of_ne same] at seen
        obtain ⟨a, member, facts⟩ := remembers.visited id u seen
        exact ⟨a, List.mem_append_left _ member, facts⟩
    · refine List.forall_mem_append.mpr ⟨fun a member => ?_, ?_⟩
      · rcases remembers.known a member with direct | ⟨indirect, seen⟩
        · exact .inl direct
        · refine .inr ⟨indirect, fun now => ?_⟩
          have differ : l.id ≠ a.leaf.id := by
            intro same
            rw [same, seen now] at absent
            cases absent
          rw [Cache.get?_put_of_ne differ]
          exact seen now
      · simp [indirect, Cache.get?_put_self]

theorem follows (remembers : Remembers rules cache before)
    (constant : ∀ l v, rules.direct l = some v → l.distribution = .constant v)
    (meets : Meets rules l here cache v there cache') : v.Follows before := by
  cases meets with
  | direct known =>
    refine ⟨remembers.bounded, ?_, ?_, ?_⟩
    · rintro a member rfl -
      rcases remembers.known a member with direct | ⟨indirect, -⟩
      · exact Option.some.inj (direct.symm.trans known)
      · rw [indirect] at known
        cases known
    · intro held
      obtain ⟨u, seen⟩ := Option.isSome_iff_exists.mp held
      exact remembers.visited _ _ seen
    · intros
      exact constant _ _ known
  | held indirect held notes =>
    refine ⟨remembers.bounded, ?_, fun _ => remembers.visited _ _ held, nofun⟩
    rintro a member rfl now
    rcases remembers.known a member with direct | ⟨-, seen⟩
    · rw [indirect] at direct
      cases direct
    · exact Option.some.inj ((seen now).symm.trans held)
  | obtained indirect absent obtained notes =>
    -- A leaf that was visited in this generation would still be in the cache.
    have never : ∀ a ∈ before, a.leaf = l → a.generation ≠ cache.generation := by
      rintro a member rfl now
      rcases remembers.known a member with direct | ⟨-, seen⟩
      · rw [indirect] at direct
        cases direct
      · rw [seen now] at absent
        cases absent
    exact ⟨remembers.bounded, fun a member same now => absurd now (never a member same), nofun,
      fun _ a member same now => absurd now (never a member same)⟩

variable [Scalar S] {n : Node S} {a : Walked S}

theorem walks (remembers : Remembers rules cache before)
    (constant : ∀ l v, rules.direct l = some v → l.distribution = .constant v)
    (walks : Walks rules n here cache a cache') :
    Remembers rules cache' (before ++ a.visits) ∧ Consistent before a.visits := by
  induction walks generalizing before with
  | leaf meets => exact ⟨remembers.meets meets, remembers.follows constant meets, trivial⟩
  | weightedMap _ _ result ih =>
    obtain ⟨_, -, rfl⟩ := Walked.project_ok result
    exact ih remembers
  | weightedBind stamp _ _ _ result ihFirst ihSecond =>
    obtain ⟨_, -, rfl⟩ := Walked.combine_ok result
    obtain ⟨remembers, first⟩ := ihFirst remembers
    obtain ⟨remembers, second⟩ := ihSecond remembers
    rw [List.append_assoc] at remembers
    exact ⟨remembers, consistent_append first second⟩
  | accepted _ _ ih => exact ih remembers
  | rejected _ _ _ ihAttempt ihAgain =>
    -- What a rejected attempt visited is not among the visits, nor in the new generation's cache.
    exact ihAgain (ihAttempt remembers).1.discard

end Remembers

variable [Scalar S]

omit [Scalar S] in
theorem forward_constant {source : Source (StateM σ) S} {l : Leaf S} {v : Value S}
    (direct : (LeafRules.forward source).direct l = some v) : l.distribution = .constant v := by
  cases direct

theorem chain_constant {source : Source (StateM σ) S} {p : Proposal S} {l : Leaf S} {v : Value S}
    (direct : (LeafRules.chain source p).direct l = some v) : l.distribution = .constant v := by
  cases form : l.distribution <;> simp_all [LeafRules.chain]

theorem upholds_consistent (source : Source (StateM σ) S) (root : Node S) :
    Upholds source root Cache.Past (fun a => Consistent [] a.visits) where
  forward cache a cache' past walks := by
    obtain ⟨remembers, consistent⟩ :=
      (Remembers.start past).walks (fun _ _ => forward_constant) walks
    exact ⟨remembers.past, consistent⟩
  chain p _ cache a cache' past walks := by
    obtain ⟨remembers, consistent⟩ :=
      (Remembers.start past).walks (fun _ _ => chain_constant) walks
    exact ⟨remembers.past, consistent⟩

/-- Every visit to a leaf saw one value. -/
def OneValue (visits : List (Visit S)) : Prop :=
  ∀ a ∈ visits, ∀ b ∈ visits, a.leaf = b.leaf → a.value = b.value

/-- Every leaf was visited in one generation only: no attempt was discarded between its visits. -/
def OneGeneration (visits : List (Visit S)) : Prop :=
  ∀ a ∈ visits, ∀ b ∈ visits, a.leaf = b.leaf → a.generation = b.generation

/-- Two visits to one leaf in one generation saw one value. -/
def Visit.Agrees (a b : Visit S) : Prop :=
  a.leaf = b.leaf → a.generation = b.generation → a.value = b.value

omit [Scalar S] in
theorem agrees_of_consistent {before visits : List (Visit S)}
    (consistent : Consistent before visits) :
    (∀ a ∈ before, ∀ b ∈ visits, a.Agrees b) ∧ visits.Pairwise Visit.Agrees := by
  induction visits generalizing before with
  | nil => simp
  | cons b rest ih =>
    obtain ⟨follows, consistent⟩ := consistent
    obtain ⟨earlier, pairwise⟩ := ih consistent
    constructor
    · intro a member
      exact List.forall_mem_cons.mpr
        ⟨follows.same a member, earlier a (List.mem_append_left _ member)⟩
    · exact List.pairwise_cons.mpr
        ⟨earlier b (List.mem_append_right _ (List.mem_singleton_self b)), pairwise⟩

instance : Std.Symm (Visit.Agrees (S := S)) where
  symm _ _ agrees leaf now := (agrees leaf.symm now.symm).symm

omit [Scalar S] in
theorem oneValue_of_consistent {visits : List (Visit S)} (consistent : Consistent [] visits)
    (generation : OneGeneration visits) : OneValue visits := by
  intro a first b second leaf
  exact (agrees_of_consistent consistent).2.forall_of_forall (fun _ _ _ _ => rfl)
    first second leaf (generation a first b second leaf)

theorem visits_of_generation_agree {source : Source (StateM σ) S} {root : Node S}
    {patience k : Nat} {strategy : Strategy} {tally : ChainTally S} (past : tally.cache.Past)
    {w w' : σ} {samples : List (Sample S)} {reading : Reading S}
    (run : (takeSamples (Reader.next source patience strategy root) k).run.run ⟨tally, none⟩ w =
      ((.ok samples, reading), w')) :
    ∃ taken reading', (takeSamples (WalkedReader.next source patience strategy root) k).run.run
        ⟨tally, none⟩ w = ((.ok taken, reading'), w') ∧
      taken.map Walked.sample = samples ∧
      ∀ a ∈ taken, (OneGeneration a.visits → OneValue a.visits) ∧
        ∀ before b after, a.visits = before ++ b :: after → b.Follows before := by
  obtain ⟨taken, reading', walked, sampled, consistent⟩ :=
    (upholds_consistent source root).samples past run
  refine ⟨taken, reading', walked, sampled, fun a member => ⟨?_, ?_⟩⟩
  · exact oneValue_of_consistent (consistent a member)
  · intro before b after split
    have whole := consistent a member
    rw [split] at whole
    exact follows_of_consistent whole

def pair (a b : Value S) : Outcome S (Value S) :=
  .ok (.tuple [a, b])

def twice : Node S :=
  (Node.leaf (fairFlip 0)).bind (fun _ _ => .leaf (fairFlip 0)) pair

theorem twice_runs : ∃ a cache',
    Runs (walk (forwardVisitor tosses) tosses 1 (twice (S := S)) false ⟨{}, .empty⟩)
      (Cache.advance {}) [true] a cache' [] ∧
    a.visits = [⟨fairFlip 0, .bool true, 1, false⟩, ⟨fairFlip 0, .bool true, 1, true⟩] := by
  have first := Cache.get?_advance (S := S) Cache.past_new
  refine ⟨_, _, runs_weightedBind (runs_leaf (Traversal.runs_sample_absent (first _) rfl)) rfl
    (runs_leaf (Traversal.runs_sample_held (Cache.get?_put_self _ _))) rfl rfl, ?_⟩
  have absent : (Cache.advance ({} : Cache S)).contains (fairFlip (S := S) 0).id = false := by
    rw [Cache.contains, first, Option.isSome_none]
  have stored : ((Cache.advance ({} : Cache S)).put (fairFlip (S := S) 0).id (.bool true)).contains
      (fairFlip (S := S) 0).id = true := by
    rw [Cache.contains, Cache.get?_put_self, Option.isSome_some]
  change [(⟨_, _, _, _⟩ : Visit S), ⟨_, _, _, _⟩] = _
  rw [absent, stored]
  rfl

theorem visits_of_generation_agree_twice : ∃ samples reading,
    (takeSamples (Reader.next tosses 1 .forward (twice : Node Exact)) 1).run.run ⟨{}, none⟩
      [true] = ((.ok samples, reading), []) ∧
    ∃ taken reading', (takeSamples (WalkedReader.next tosses 1 .forward (twice : Node Exact)) 1).run.run
        ⟨{}, none⟩ [true] = ((.ok taken, reading'), []) ∧
      taken.map Walked.sample = samples ∧
      ∀ a ∈ taken, OneValue a.visits ∧
        ∀ before b after, a.visits = before ++ b :: after → b.Follows before := by
  obtain ⟨a, cache', run, visits⟩ := twice_runs (S := Exact)
  have walkedRun := WalkedReader.runs_forward (r := ⟨{}, none⟩) run
  have sampled := WalkedReader.takeSamples_reading 1 walkedRun
  obtain ⟨taken, reading', walked, same, agree⟩ := visits_of_generation_agree Cache.past_new sampled
  refine ⟨_, _, sampled, taken, reading', walked, same, fun b member => ⟨?_, (agree b member).2⟩⟩
  apply (agree b member).1
  cases walkedRun.symm.trans walked
  obtain rfl := List.mem_singleton.mp member
  rw [visits]
  simp [OneGeneration]

/-- The first flip, true of the second flip, and the first flip again. -/
def acrossFilter : Node S :=
  (Node.leaf (fairFlip 0)).bind
    (fun _ _ => (Node.filter (.leaf (fairFlip 1)) Value.truth).bind (fun _ _ => .leaf (fairFlip 0))
      Node.second) pair

theorem acrossFilter_runs : ∃ a cache',
    Runs (walk (forwardVisitor tosses) tosses 2 (acrossFilter (S := S)) false ⟨{}, .empty⟩)
      (Cache.advance {}) [true, false, true, false] a cache' [] ∧
    a.sample.value = .tuple [.bool true, .bool false] ∧
    a.visits.map (fun v => (v.leaf, v.value)) =
      [(fairFlip 0, .bool true), (fairFlip 1, .bool true), (fairFlip 0, .bool false)] := by
  have past : (Cache.advance ({} : Cache S)).Past := Cache.past_new.advance
  have apart : (fairFlip 1 : Leaf S).id ≠ (fairFlip 0 : Leaf S).id := by simp [fairFlip]
  have first := Cache.get?_advance (S := S) Cache.past_new
  refine ⟨_, _, runs_weightedBind (runs_leaf (Traversal.runs_sample_absent (first _) rfl)) rfl
    (runs_weightedBind (runs_map (runs_retry_reject
      (runs_leaf (Traversal.runs_sample_absent ?_ rfl)) rfl
      (runs_retry_accept (runs_leaf (Traversal.runs_sample_absent ?_ rfl)) rfl))) rfl
      (runs_leaf (Traversal.runs_sample_absent ?_ rfl)) rfl rfl) rfl rfl, rfl, rfl⟩
  · rw [Cache.get?_put_of_ne apart.symm]
    exact first _
  · exact Cache.get?_advance ((past.put _ _).put _ _) _
  · rw [Cache.get?_put_of_ne apart]
    exact Cache.get?_advance ((past.put _ _).put _ _) _

theorem value_changes_across_rejection : ∃ taken reading,
    (takeSamples (WalkedReader.next tosses 2 .forward (acrossFilter : Node Exact)) 1).run.run {}
      [true, false, true, false] = ((.ok taken, reading), []) ∧
    ∃ a ∈ taken, a.sample.value = .tuple [.bool true, .bool false] ∧ ¬ OneValue a.visits := by
  obtain ⟨a, cache', run, sample, visits⟩ := acrossFilter_runs (S := Exact)
  refine ⟨_, _, WalkedReader.runs_forward run, a, List.mem_singleton_self a, sample, ?_⟩
  intro one
  have seen (index : Nat) (v : Value Exact) (member : (fairFlip index, v) ∈
      a.visits.map fun v => (v.leaf, v.value)) : ∃ b ∈ a.visits, b.leaf = fairFlip index ∧ b.value = v := by
    obtain ⟨b, member, same⟩ := List.mem_map.mp member
    exact ⟨b, member, congrArg Prod.fst same, congrArg Prod.snd same⟩
  rw [visits] at seen
  obtain ⟨b, first, leaf, value⟩ := seen 0 (.bool true) (by simp)
  obtain ⟨c, last, leaf', value'⟩ := seen 0 (.bool false) (by simp)
  have same := one b first c last (leaf.trans leaf'.symm)
  rw [value, value'] at same
  cases same

end ChanceGraph
