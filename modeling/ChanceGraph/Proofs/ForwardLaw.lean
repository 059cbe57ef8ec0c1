import ChanceGraph.Forward
import ChanceGraph.Proofs.Generations
import ChanceGraph.Proofs.Law
import ChanceGraph.Proofs.Renaming

/-!
Forward traversals under the law of their draws: what they are worth grows with their patience, and
depends on the cache only through the leaves of the graph.
-/

set_option autoImplicit false

namespace ChanceGraph

open Filter Topology

namespace Traversal

variable {α β : Type} {parts patience : Nat}

section Forward

variable (cache : Cache Exact) (stamp : Nat)

theorem mean_sample_held {l : Leaf Exact} {v : Value Exact} (held : cache.get? l.id = some v)
    (g : Value Exact → Cache Exact → Nat → ℝ) :
    mean (sample (Law.source parts) l) cache stamp g = g v cache stamp := by
  unfold sample
  rw [mean_get]
  simp only [held, mean_pure]

theorem mean_leaf (l : Leaf Exact) (g : Sample Exact → Cache Exact → Nat → ℝ) :
    mean (forward (Law.source parts) patience (.leaf l)) cache stamp g =
      mean (sample (Law.source parts) l) cache stamp fun v => g (.ofValue v) := by
  simp only [forward, mean_bind, mean_pure]

theorem mean_weightedMap (n : Node Exact) (project : Value Exact → Outcome Exact (Weighted Exact))
    (g : Sample Exact → Cache Exact → Nat → ℝ) :
    mean (forward (Law.source parts) patience (.weightedMap n project)) cache stamp g =
      mean (forward (Law.source parts) patience n) cache stamp fun a cache stamp =>
        Outcome.worth (fun b => g b cache stamp) (do a.project (← project a.value)) := by
  simp only [forward, mean_bind, mean_ofOutcome]

theorem mean_weightedBind (n : Node Exact) (dependent : Value Exact → Nat → Node Exact)
    (combine : Value Exact → Value Exact → Outcome Exact (Weighted Exact))
    (g : Sample Exact → Cache Exact → Nat → ℝ) :
    mean (forward (Law.source parts) patience (.weightedBind n dependent combine)) cache stamp g =
      mean (forward (Law.source parts) patience n) cache stamp fun a cache stamp =>
        mean (forward (Law.source parts) patience (dependent a.value stamp)) cache (stamp + 1)
          fun c cache stamp => Outcome.worth (fun b => g b cache stamp)
            (do a.combine c (← combine a.value c.value)) := by
  simp only [forward, mean_bind, mean_fresh, mean_ofOutcome]

theorem mean_retry_succ (attempt : Traversal Chance Exact α) (accept : α → Outcome Exact Bool)
    (patience : Nat) (g : α → Cache Exact → Nat → ℝ) :
    mean (retry attempt accept (patience + 1)) cache stamp g =
      mean attempt cache stamp fun a cache stamp => Outcome.worth (fun accepted =>
        if accepted then g a cache stamp else mean (retry attempt accept patience) cache.advance stamp g)
          (accept a) := by
  simp only [retry, mean_bind, mean_ofOutcome]
  congr 1
  funext a cache stamp
  congr 1
  funext accepted
  cases accepted with
  | true => exact mean_pure _ _ _ _
  | false => simp only [Bool.false_eq_true, if_false, mean_bind, advance, mean_modify]

end Forward

variable {t u : Traversal Chance Exact α}

/-- The chances of the outcomes are not negative, and come to no more than one. -/
structure Partial (t : Traversal Chance Exact α) : Prop where
  nonneg : ∀ cache stamp g, (∀ a c k, 0 ≤ g a c k) → 0 ≤ mean t cache stamp g
  total : ∀ cache stamp, mean t cache stamp (fun _ _ _ => 1) ≤ 1

theorem mean_add_mul (t : Traversal Chance Exact α) (cache : Cache Exact) (stamp : Nat)
    (f g : α → Cache Exact → Nat → ℝ) (x : ℝ) :
    (mean t cache stamp fun a c k => f a c k + x * g a c k) =
      mean t cache stamp f + x * mean t cache stamp g := by
  unfold mean
  rw [← Law.mean_add_mul]
  congr 1
  funext r
  rcases r with ⟨⟨_ | a, c⟩, k⟩ <;> simp [Outcome.worth]

theorem tendsto_mean (t : Traversal Chance Exact α) (cache : Cache Exact) (stamp : Nat)
    {g : Nat → α → Cache Exact → Nat → ℝ} {h : α → Cache Exact → Nat → ℝ}
    (each : ∀ a c k, Tendsto (fun i => g i a c k) atTop (𝓝 (h a c k))) :
    Tendsto (fun i => mean t cache stamp (g i)) atTop (𝓝 (mean t cache stamp h)) := by
  refine Law.tendsto_mean _ fun r => ?_
  rcases r with ⟨⟨_ | a, c⟩, k⟩
  · exact tendsto_const_nhds
  · exact each a c k

theorem Partial.mono (partly : Partial t) {cache : Cache Exact} {stamp : Nat}
    {f g : α → Cache Exact → Nat → ℝ} (less : ∀ a c k, f a c k ≤ g a c k) :
    mean t cache stamp f ≤ mean t cache stamp g := by
  have rest := partly.nonneg cache stamp (fun a c k => g a c k + -1 * f a c k) fun a c k => by
    linarith [less a c k]
  rw [mean_add_mul] at rest
  linarith

theorem worth_nonneg {r : Outcome Exact β} {g : β → ℝ} (nonneg : ∀ b, 0 ≤ g b) :
    0 ≤ Outcome.worth g r := by
  cases r with
  | error fault => exact le_rfl
  | ok b => exact nonneg b

theorem worth_le_one {r : Outcome Exact β} {g : β → ℝ} (less : ∀ b, g b ≤ 1) :
    Outcome.worth g r ≤ 1 := by
  cases r with
  | error fault => exact zero_le_one
  | ok b => exact less b

theorem Partial.le_one (partly : Partial t) {cache : Cache Exact} {stamp : Nat}
    {g : α → Cache Exact → Nat → ℝ} (less : ∀ a c k, g a c k ≤ 1) : mean t cache stamp g ≤ 1 :=
  (partly.mono less).trans (partly.total cache stamp)

theorem partial_of_settled (settled : ∀ cache stamp, ∃ r c k, ∀ g : α → Cache Exact → Nat → ℝ,
    mean t cache stamp g = Outcome.worth (fun a => g a c k) r) : Partial t := by
  constructor
  · intro cache stamp g nonneg
    obtain ⟨r, c, k, leads⟩ := settled cache stamp
    rw [leads]
    exact worth_nonneg fun a => nonneg a c k
  · intro cache stamp
    obtain ⟨r, c, k, leads⟩ := settled cache stamp
    rw [leads]
    exact worth_le_one fun _ => le_rfl

theorem partial_pure (a : α) : Partial (pure a) :=
  partial_of_settled fun cache stamp => ⟨.ok a, cache, stamp, mean_pure cache stamp a⟩

theorem partial_throw (fault : Fault Exact) : Partial (throw fault : Traversal Chance Exact α) :=
  partial_of_settled fun cache stamp => ⟨.error fault, cache, stamp, mean_throw cache stamp fault⟩

theorem partial_ofOutcome (r : Outcome Exact α) : Partial (ofOutcome r) :=
  partial_of_settled fun cache stamp => ⟨r, cache, stamp, mean_ofOutcome cache stamp r⟩

theorem partial_advance : Partial (advance : Traversal Chance Exact Unit) :=
  partial_of_settled fun cache stamp => ⟨.ok ⟨⟩, cache.advance, stamp, mean_modify cache stamp _⟩

theorem partial_fresh : Partial (fresh (Law.source parts)) :=
  partial_of_settled fun cache stamp => ⟨.ok stamp, cache, stamp + 1, mean_fresh cache stamp parts⟩

theorem Partial.bind {f : α → Traversal Chance Exact β} (first : Partial t) (next : ∀ a, Partial (f a)) :
    Partial (t >>= f) := by
  constructor
  · intro cache stamp g nonneg
    rw [mean_bind]
    exact first.nonneg _ _ _ fun a c k => (next a).nonneg c k g nonneg
  · intro cache stamp
    rw [mean_bind]
    exact first.le_one fun a c k => (next a).total c k

theorem Partial.verdict (again : Partial t) (a : α) (accepted : Bool) :
    Partial (if accepted then pure a else do advance; t) := by
  cases accepted with
  | true => exact partial_pure a
  | false => exact partial_advance.bind fun _ => again

theorem Partial.retry (partly : Partial t) (accept : α → Outcome Exact Bool) (patience : Nat) :
    Partial (retry t accept patience) := by
  induction patience with
  | zero => exact partial_throw _
  | succ patience ih =>
    exact partly.bind fun a => (partial_ofOutcome (accept a)).bind (ih.verdict a)

/-- All that the first leads to, the second leads to with no smaller chance. -/
def Below (t u : Traversal Chance Exact α) : Prop :=
  ∀ cache stamp g, (∀ a c k, 0 ≤ g a c k) → mean t cache stamp g ≤ mean u cache stamp g

theorem Below.refl (t : Traversal Chance Exact α) : Below t t :=
  fun _ _ _ _ => le_rfl

theorem Below.bind {f f' : α → Traversal Chance Exact β} (first : Below t u) (partly : Partial t)
    (next : ∀ a, Below (f a) (f' a)) (partly' : ∀ a, Partial (f' a)) : Below (t >>= f) (u >>= f') := by
  intro cache stamp g nonneg
  rw [mean_bind, mean_bind]
  -- First what follows leads to more, then what it follows.
  refine (partly.mono fun a c k => next a c k g nonneg).trans ?_
  exact first _ _ _ fun a c k => (partly' a).nonneg c k g nonneg

theorem Below.verdict (again : Below t u) (partly : Partial u) (a : α) (accepted : Bool) :
    Below (if accepted then pure a else do advance; t) (if accepted then pure a else do advance; u) := by
  cases accepted with
  | true => exact .refl _
  | false => exact (Below.refl _).bind partial_advance (fun _ => again) fun _ => partly

theorem Below.retry (below : Below t u) (partly : Partial t) (partly' : Partial u)
    (accept : α → Outcome Exact Bool) (patience : Nat) :
    Below (retry t accept patience) (Traversal.retry u accept (patience + 1)) := by
  induction patience with
  | zero =>
    intro cache stamp g nonneg
    rw [show mean (Traversal.retry t accept 0) cache stamp g = 0 from mean_throw cache stamp _ g]
    exact (partly'.retry accept 1).nonneg _ _ _ nonneg
  | succ patience ih =>
    have later : Partial (Traversal.retry u accept (patience + 1)) := partly'.retry accept _
    have judge (a : α) : Partial (ofOutcome (accept a)) := partial_ofOutcome _
    refine below.bind partly (fun a => ?_) fun a => (judge a).bind (later.verdict a)
    exact (Below.refl _).bind (judge a) (ih.verdict later a) (later.verdict a)

end Traversal

/-- The law of the leaf has no negative chances, which come to no more than one. -/
structure Leaf.Weighs (l : Leaf Exact) : Prop where
  nonneg : ∀ g, (∀ r, 0 ≤ g r) → 0 ≤ l.law.mean g
  total : l.law.mean (fun _ => 1) ≤ 1

/-- Every leaf of the graph has the property, whatever its dependents are called for. -/
def Node.Leaves {S : Type} (P : Leaf S → Prop) : Node S → Prop
  | .leaf l => P l
  | .weightedMap n _ => n.Leaves P
  | .weightedBind n dependent _ => n.Leaves P ∧ ∀ v k, (dependent v k).Leaves P
  | .filter n _ => n.Leaves P
  | .unknown _ | .broken _ => True

section Patience

open Traversal

variable {parts : Nat} {n : Node Exact}

theorem sample_partial {l : Leaf Exact} (weighs : l.Weighs) :
    Partial (sample (Law.source parts) l) := by
  constructor
  · intro cache stamp g nonneg
    cases held : cache.get? l.id with
    | some v =>
      rw [mean_sample_held _ _ held]
      exact nonneg _ _ _
    | none =>
      rw [mean_sample _ _ held]
      exact weighs.nonneg _ fun r => worth_nonneg fun v => nonneg _ _ _
  · intro cache stamp
    cases held : cache.get? l.id with
    | some v => exact (mean_sample_held _ _ held _).le
    | none =>
      rw [mean_sample _ _ held]
      refine le_trans ?_ weighs.total
      have rest := weighs.nonneg (fun r => 1 + -1 * Outcome.worth (fun _ => 1) r) fun r => by
        linarith [worth_le_one (r := r) (g := fun _ => (1 : ℝ)) fun _ => le_rfl]
      rw [Law.mean_add_mul] at rest
      linarith

theorem forward_partial (weighs : n.Leaves Leaf.Weighs) (patience : Nat) :
    Partial (forward (Law.source parts) patience n) := by
  induction n with
  | leaf l => exact (sample_partial weighs).bind fun _ => partial_pure _
  | weightedMap n project ih => exact (ih weighs).bind fun _ => partial_ofOutcome _
  | weightedBind n dependent combine ih ihCalls =>
    refine (ih weighs.1).bind fun a => partial_fresh.bind fun k => ?_
    exact (ihCalls a.value k (weighs.2 _ _)).bind fun _ => partial_ofOutcome _
  | filter n predicate ih => exact (ih weighs).retry _ patience
  | unknown name => exact partial_throw _
  | broken fault => exact partial_throw _

/-- More patience takes nothing away. -/
theorem forward_below (weighs : n.Leaves Leaf.Weighs) (patience : Nat) :
    Below (forward (Law.source parts) patience n) (forward (Law.source parts) (patience + 1) n) := by
  induction n with
  | leaf l => exact .refl _
  | weightedMap n project ih =>
    have partly : Partial (forward (Law.source parts) patience n) := forward_partial (n := n) weighs _
    exact (ih weighs).bind partly (fun _ => .refl _) fun _ => partial_ofOutcome _
  | weightedBind n dependent combine ih ihCalls =>
    have call (a : Sample Exact) (patience k : Nat) :
        Partial (forward (Law.source parts) patience (dependent a.value k)) :=
      forward_partial (weighs.2 _ _) patience
    have later (a : Sample Exact) (k : Nat) := ihCalls a.value k (weighs.2 _ _)
    refine (ih weighs.1).bind (forward_partial weighs.1 _) (fun a => ?_) fun a => ?_
    · refine (Below.refl _).bind partial_fresh (fun k => ?_) fun k => ?_
      · exact (later a k).bind (call a _ k) (fun _ => .refl _) fun _ => partial_ofOutcome _
      · exact (call a _ k).bind fun _ => partial_ofOutcome _
    · exact partial_fresh.bind fun k => (call a _ k).bind fun _ => partial_ofOutcome _
  | filter n predicate ih =>
    have partly (patience : Nat) : Partial (forward (Law.source parts) patience n) :=
      forward_partial (n := n) weighs patience
    exact (ih weighs).retry (partly _) (partly _) _ _
  | unknown name => exact .refl _
  | broken fault => exact .refl _

end Patience

section Parallel

open Traversal

/-- Two traversals of graphs whose leaves are paired: each leaf is seen as its partner is.  The first has
spared some leaves, which nothing is paired with. -/
structure Parallel (r : Renaming) (spared : ObjectId → Prop) (c c' : Cache Exact) (k k' : Nat) : Prop where
  past : c.Past ∧ c'.Past
  faithful : ∀ a b a' b', r a b → r a' b' → (a = a' ↔ b = b')
  made : ∀ a b, r a b → a.stamp < k ∧ b.stamp < k'
  same : ∀ a b, r a b → c.get? a = c'.get? b
  unmade : ∀ id : ObjectId, (k ≤ id.stamp → c.get? id = none) ∧ (k' ≤ id.stamp → c'.get? id = none)
  spares : ∀ id, spared id → id.stamp < k ∧ c.get? id = none ∧ ∀ b, ¬ r id b

namespace Parallel

variable {r : Renaming} {spared : ObjectId → Prop} {c c' : Cache Exact} {k k' : Nat}

theorem put (parallel : Parallel r spared c c' k k') {a b : ObjectId} (paired : r a b)
    (v : Value Exact) : Parallel r spared (c.put a v) (c'.put b v) k k' where
  past := ⟨parallel.past.1.put _ _, parallel.past.2.put _ _⟩
  faithful := parallel.faithful
  made := parallel.made
  same a' b' paired' := by
    rw [Cache.get?_put, Cache.get?_put, parallel.same a' b' paired']
    exact if_congr (parallel.faithful _ _ _ _ paired paired') rfl rfl
  unmade id := by
    have made := parallel.made a b paired
    constructor
    · intro late
      rw [Cache.get?_put_of_ne fun same => by subst same; omega]
      exact (parallel.unmade id).1 late
    · intro late
      rw [Cache.get?_put_of_ne fun same => by subst same; omega]
      exact (parallel.unmade id).2 late
  spares id aside := by
    obtain ⟨early, unseen, alone⟩ := parallel.spares id aside
    refine ⟨early, ?_, alone⟩
    have differ : a ≠ id := by
      rintro rfl
      exact alone b paired
    rw [Cache.get?_put_of_ne differ]
    exact unseen

theorem advance (parallel : Parallel r spared c c' k k') :
    Parallel r spared c.advance c'.advance k k' where
  past := ⟨parallel.past.1.advance, parallel.past.2.advance⟩
  faithful := parallel.faithful
  made := parallel.made
  same a b _ := by rw [Cache.get?_advance parallel.past.1, Cache.get?_advance parallel.past.2]
  unmade id := by simp [Cache.get?_advance parallel.past.1, Cache.get?_advance parallel.past.2]
  spares id aside := by
    obtain ⟨early, -, alone⟩ := parallel.spares id aside
    exact ⟨early, Cache.get?_advance parallel.past.1 id, alone⟩

theorem extend (parallel : Parallel r spared c c' k k') :
    Parallel (r.extend k k') spared c c' (k + 1) (k' + 1) where
  past := parallel.past
  -- A leaf of the new call is none of those that were paired, which have earlier stamps.
  faithful := by
    rintro a b a' b' (paired | ⟨i, rfl, rfl⟩) (paired' | ⟨j, rfl, rfl⟩)
    · exact parallel.faithful _ _ _ _ paired paired'
    · have made := parallel.made a b paired
      constructor <;> rintro rfl <;> simp at made
    · have made := parallel.made a' b' paired'
      constructor <;> rintro rfl <;> simp at made
    · simp
  made := by
    rintro a b (paired | ⟨i, rfl, rfl⟩)
    · have made := parallel.made a b paired
      omega
    · simp
  same := by
    rintro a b (paired | ⟨i, rfl, rfl⟩)
    · exact parallel.same a b paired
    · rw [(parallel.unmade ⟨k, i⟩).1 le_rfl, (parallel.unmade ⟨k', i⟩).2 le_rfl]
  unmade id := ⟨fun late => (parallel.unmade id).1 (by omega), fun late => (parallel.unmade id).2 (by omega)⟩
  spares id aside := by
    obtain ⟨early, unseen, alone⟩ := parallel.spares id aside
    refine ⟨by omega, unseen, ?_⟩
    rintro b (paired | ⟨i, rfl, rfl⟩)
    · exact alone b paired
    · simp at early

theorem mono {r' : Renaming} (parallel : Parallel r' spared c c' k k') (weaker : ∀ a b, r a b → r' a b) :
    Parallel r spared c c' k k' where
  past := parallel.past
  faithful a b a' b' paired paired' :=
    parallel.faithful a b a' b' (weaker _ _ paired) (weaker _ _ paired')
  made a b paired := parallel.made a b (weaker _ _ paired)
  same a b paired := parallel.same a b (weaker _ _ paired)
  unmade := parallel.unmade
  spares id aside := by
    obtain ⟨early, unseen, alone⟩ := parallel.spares id aside
    exact ⟨early, unseen, fun b paired => alone b (weaker _ _ paired)⟩

theorem restart (parallel : Parallel r spared c c' k k') {now : Nat} (made : ∀ a b, r a b → b.stamp < now) :
    Parallel r spared c.advance {} k now where
  past := ⟨parallel.past.1.advance, Cache.past_new⟩
  faithful := parallel.faithful
  made a b paired := ⟨(parallel.made a b paired).1, made a b paired⟩
  same a b _ := by rw [Cache.get?_advance parallel.past.1, Cache.get?_new]
  unmade id := by simp [Cache.get?_advance parallel.past.1, Cache.get?_new]
  spares id aside := by
    obtain ⟨early, -, alone⟩ := parallel.spares id aside
    exact ⟨early, Cache.get?_advance parallel.past.1 id, alone⟩

end Parallel

variable {parts parts' : Nat} {r : Renaming} {spared : ObjectId → Prop} {c c' : Cache Exact}
  {k k' : Nat} {n n' : Node Exact}

theorem mean_retry_parallel {α : Type} {t t' : Traversal Chance Exact α}
    (each : ∀ c c' k k' g g', Parallel r spared c c' k k' →
      (∀ a c c' k k', Parallel r spared c c' k k' → g a c k = g' a c' k') →
      mean t c k g = mean t' c' k' g')
    (accept : α → Outcome Exact Bool) (patience : Nat) {g g' : α → Cache Exact → Nat → ℝ}
    (parallel : Parallel r spared c c' k k')
    (alike : ∀ a c c' k k', Parallel r spared c c' k k' → g a c k = g' a c' k') :
    mean (retry t accept patience) c k g = mean (retry t' accept patience) c' k' g' := by
  induction patience generalizing c c' k k' with
  | zero => exact (mean_throw c k _ g).trans (mean_throw c' k' _ g').symm
  | succ patience ih =>
    rw [mean_retry_succ, mean_retry_succ]
    refine each _ _ _ _ _ _ parallel fun a c c' k k' parallel => ?_
    rw [alike a c c' k k' parallel, ih parallel.advance]

/-- What forward sampling is worth depends on nothing but what it sees of the leaves of its graph. -/
theorem mean_parallel (renamed : n.Renamed r n') (patience : Nat)
    {g g' : Sample Exact → Cache Exact → Nat → ℝ} (parallel : Parallel r spared c c' k k')
    (alike : ∀ a c c' k k', Parallel r spared c c' k k' → g a c k = g' a c' k') :
    mean (forward (Law.source parts) patience n) c k g =
      mean (forward (Law.source parts') patience n') c' k' g' := by
  induction renamed generalizing c c' k k' g g' with
  | @leaf r l l' ids same =>
    rw [mean_leaf, mean_leaf]
    have seen := parallel.same _ _ ids
    cases held : c'.get? l'.id with
    | some v =>
      rw [mean_sample_held _ _ (seen.trans held), mean_sample_held _ _ held]
      exact alike _ _ _ _ _ parallel
    | none =>
      -- Both draw by one law, and put down the same value for the pair.
      have law : l.law = l'.law := by
        rw [Leaf.law, Leaf.law, same]
      rw [mean_sample _ _ (seen.trans held), mean_sample _ _ held, law]
      congr 2
      funext v
      exact alike _ _ _ _ _ (parallel.put ids v)
  | weightedMap _ ih =>
    rw [mean_weightedMap, mean_weightedMap]
    refine ih parallel fun a c c' k k' parallel => ?_
    congr 1
    funext b
    exact alike _ _ _ _ _ parallel
  | weightedBind _ _ ih ihCalls =>
    rw [mean_weightedBind, mean_weightedBind]
    refine ih parallel fun a c c' k k' parallel => ?_
    refine ihCalls _ _ _ parallel.extend fun b c c' _ _ parallel => ?_
    congr 1
    funext d
    exact alike _ _ _ _ _ (parallel.mono fun _ _ => .inl)
  | filter _ ih =>
    exact mean_retry_parallel (fun _ _ _ _ _ _ => ih) _ patience parallel alike
  | unknown | broken => exact (mean_throw c k _ g).trans (mean_throw c' k' _ g').symm

end Parallel

end ChanceGraph
