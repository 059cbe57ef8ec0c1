import ChanceGraph.Proofs.Walk

/-!
What the traversals of a sampler do to its cache, one rule for each kind of node.  Whatever holds of
every traversal that starts a generation holds of every sample that is ever read.
-/

set_option autoImplicit false

namespace ChanceGraph

section Yields

variable {ε τ σ α β : Type}

theorem run_bind (t : ExceptT ε (StateT τ (StateM σ)) α)
    (f : α → ExceptT ε (StateT τ (StateM σ)) β) (s : τ) (w : σ) :
    (t >>= f).run.run s w = match t.run.run s w with
      | ((.ok a, s₁), w₁) => (f a).run.run s₁ w₁
      | ((.error e, s₁), w₁) => ((.error e, s₁), w₁) := by
  rw [ExceptT.run_bind, StateT.run_bind]
  change (match t.run.run s w with
    | (r, w₁) => StateT.run (match r.1 with
      | .ok a => (f a).run
      | .error e => pure (.error e)) r.2 w₁) = _
  rcases t.run.run s w with ⟨⟨_ | a, s₁⟩, w₁⟩ <;> rfl

/-- The computation takes the first state and world to the second ones and gives `a`. -/
def Runs (t : ExceptT ε (StateT τ (StateM σ)) α) (s : τ) (w : σ) (a : α) (s' : τ) (w' : σ) : Prop :=
  t.run.run s w = ((.ok a, s'), w')

/-- What the computation does in some world. -/
def Yields (t : ExceptT ε (StateT τ (StateM σ)) α) (s : τ) (a : α) (s' : τ) : Prop :=
  ∃ w w', Runs t s w a s' w'

variable {t : ExceptT ε (StateT τ (StateM σ)) α} {s s' : τ}

theorem runs_bind {f : α → ExceptT ε (StateT τ (StateM σ)) β} {b : β} {w w' : σ} :
    Runs (t >>= f) s w b s' w' ↔ ∃ a s₁ w₁, Runs t s w a s₁ w₁ ∧ Runs (f a) s₁ w₁ b s' w' := by
  unfold Runs
  rw [run_bind]
  rcases t.run.run s w with ⟨⟨_ | a, s₁⟩, w₁⟩
  · constructor
    · intro run
      cases run
    · rintro ⟨_, _, _, first, -⟩
      cases first
  · constructor
    · intro run
      exact ⟨a, s₁, w₁, rfl, run⟩
    · rintro ⟨_, _, _, first, rest⟩
      cases first
      exact rest

theorem runs_pure {a b : α} {w w' : σ} :
    Runs (pure a : ExceptT ε (StateT τ (StateM σ)) α) s w b s' w' ↔ b = a ∧ s' = s ∧ w' = w := by
  constructor
  · intro run
    cases run
    exact ⟨rfl, rfl, rfl⟩
  · rintro ⟨rfl, rfl, rfl⟩
    rfl

theorem yields_pure {a b : α} (run : Yields (pure a : ExceptT ε (StateT τ (StateM σ)) α) s b s') :
    b = a ∧ s' = s := by
  obtain ⟨w, w', run⟩ := run
  obtain ⟨result, state, -⟩ := runs_pure.mp run
  exact ⟨result, state⟩

theorem yields_bind {f : α → ExceptT ε (StateT τ (StateM σ)) β} {b : β}
    (run : Yields (t >>= f) s b s') : ∃ a s₁, Yields t s a s₁ ∧ Yields (f a) s₁ b s' := by
  obtain ⟨w, w', run⟩ := run
  obtain ⟨a, s₁, w₁, first, rest⟩ := runs_bind.mp run
  exact ⟨a, s₁, ⟨w, w₁, first⟩, w₁, w', rest⟩

theorem Runs.of_map {f : α → β} {b : β} {w w' : σ} (run : Runs (f <$> t) s w b s' w') :
    ∃ a, Runs t s w a s' w' ∧ b = f a := by
  rw [map_eq_pure_bind] at run
  obtain ⟨a, _, _, first, rest⟩ := runs_bind.mp run
  obtain ⟨rfl, rfl, rfl⟩ := runs_pure.mp rest
  exact ⟨a, first, rfl⟩

theorem yields_map {f : α → β} {b : β} (run : Yields (f <$> t) s b s') :
    ∃ a, Yields t s a s' ∧ b = f a := by
  obtain ⟨w, w', run⟩ := run
  obtain ⟨a, inner, result⟩ := run.of_map
  exact ⟨a, ⟨w, w', inner⟩, result⟩

theorem yields_throw {e : ε} {a : α} :
    ¬ Yields (throw e : ExceptT ε (StateT τ (StateM σ)) α) s a s' := by
  rintro ⟨_, _, run⟩
  cases run

theorem runs_get {a : τ} {w w' : σ} :
    Runs (get : ExceptT ε (StateT τ (StateM σ)) τ) s w a s' w' ↔ a = s ∧ s' = s ∧ w' = w := by
  constructor
  · intro run
    cases run
    exact ⟨rfl, rfl, rfl⟩
  · rintro ⟨rfl, rfl, rfl⟩
    rfl

theorem runs_modify {f : τ → τ} {u : PUnit} {w w' : σ} :
    Runs (modify f : ExceptT ε (StateT τ (StateM σ)) PUnit) s w u s' w' ↔ s' = f s ∧ w' = w := by
  rw [Runs, run_modify]
  constructor
  · intro run
    cases run
    exact ⟨rfl, rfl⟩
  · rintro ⟨rfl, rfl⟩
    rfl

theorem Runs.of_get_bind {k : τ → ExceptT ε (StateT τ (StateM σ)) β} {b : β} {w w' : σ}
    (run : Runs (do k (← get)) s w b s' w') : Runs (k s) s w b s' w' := by
  obtain ⟨_, _, _, read, rest⟩ := runs_bind.mp run
  obtain ⟨rfl, rfl, rfl⟩ := runs_get.mp read
  exact rest

theorem yields_get {k : τ → ExceptT ε (StateT τ (StateM σ)) α} {a : α}
    (run : Yields (do k (← get)) s a s') : Yields (k s) s a s' := by
  obtain ⟨w, w', run⟩ := run
  exact ⟨w, w', run.of_get_bind⟩

theorem yields_modify {f : τ → τ} {u : PUnit}
    (run : Yields (modify f : ExceptT ε (StateT τ (StateM σ)) PUnit) s u s') : s' = f s := by
  obtain ⟨w, w', run⟩ := run
  exact (runs_modify.mp run).1

theorem Runs.bind {f : α → ExceptT ε (StateT τ (StateM σ)) β} {a : α} {b : β} {s₁ : τ} {w w₁ w' : σ}
    (first : Runs t s w a s₁ w₁) (rest : Runs (f a) s₁ w₁ b s' w') : Runs (t >>= f) s w b s' w' :=
  runs_bind.mpr ⟨a, s₁, w₁, first, rest⟩

theorem Runs.get_bind {k : τ → ExceptT ε (StateT τ (StateM σ)) β} {b : β} {w w' : σ}
    (rest : Runs (k s) s w b s' w') : Runs (do k (← get)) s w b s' w' :=
  Runs.bind (runs_get.mpr ⟨rfl, rfl, rfl⟩) rest

theorem Runs.of_pure {a : α} {w : σ} : Runs (pure a : ExceptT ε (StateT τ (StateM σ)) α) s w a s w :=
  rfl

theorem runs_map {f : α → β} {a : α} {w w' : σ} (run : Runs t s w a s' w') :
    Runs (f <$> t) s w (f a) s' w' := by
  rw [map_eq_pure_bind]
  exact runs_bind.mpr ⟨a, s', w', run, runs_pure.mpr ⟨rfl, rfl, rfl⟩⟩

section Part

variable {υ : Type} {part : υ → τ} {put : υ → τ → υ} {v v' : υ}

theorem onPart_run {r : Except ε α} {w w' : σ} (run : t.run.run (part v) w = ((r, s), w')) :
    (onPart part put t).run.run v w = ((r, put v s), w') := by
  change (match t.run.run (part v) w with | (r, w') => ((r.1, put v r.2), w')) = _
  rw [run]

theorem runs_onPart {a : α} {w w' : σ} :
    Runs (onPart part put t) v w a v' w' ↔ ∃ s, Runs t (part v) w a s w' ∧ v' = put v s := by
  constructor
  · intro run
    rcases result : t.run.run (part v) w with ⟨⟨r, s⟩, w₁⟩
    cases (onPart_run result).symm.trans run
    exact ⟨s, result, rfl⟩
  · rintro ⟨s, run, rfl⟩
    exact onPart_run run

theorem yields_onPart {a : α} (run : Yields (onPart part put t) v a v') :
    ∃ s, Yields t (part v) a s ∧ v' = put v s := by
  obtain ⟨w, w', run⟩ := run
  obtain ⟨s, inner, rest⟩ := runs_onPart.mp run
  exact ⟨s, ⟨w, w', inner⟩, rest⟩

end Part

end Yields

variable {S σ α : Type}

def Source.Draws (source : Source (StateM σ) S) (l : Leaf S) (v : Value S) : Prop :=
  ∃ w w', source.draw l w = (.ok v, w')

namespace Traversal

variable {cache cache' : Cache S}

theorem runs_ofOutcome {r : Outcome S α} {a : α} {w w' : σ} :
    Runs (ofOutcome r : Traversal (StateM σ) S α) cache w a cache' w' ↔
      r = .ok a ∧ cache' = cache ∧ w' = w := by
  constructor
  · intro run
    cases run
    exact ⟨rfl, rfl, rfl⟩
  · rintro ⟨rfl, rfl, rfl⟩
    rfl

theorem runs_ofAction {action : StateM σ (Outcome S α)} {a : α} {w w' : σ} :
    Runs (ofAction action) cache w a cache' w' ↔ action w = (.ok a, w') ∧ cache' = cache := by
  change (match action w with | (r, w₁) => ((r, cache), w₁)) = _ ↔ _
  rcases action w with ⟨r, w₁⟩
  constructor
  · intro run
    cases run
    exact ⟨rfl, rfl⟩
  · rintro ⟨result, rfl⟩
    cases result
    rfl

theorem yields_ofOutcome {r : Outcome S α} {a : α}
    (run : Yields (ofOutcome r : Traversal (StateM σ) S α) cache a cache') :
    r = .ok a ∧ cache' = cache := by
  obtain ⟨w, w', run⟩ := run
  obtain ⟨result, state, -⟩ := runs_ofOutcome.mp run
  exact ⟨result, state⟩

theorem yields_ofAction {action : StateM σ (Outcome S α)} {a : α}
    (run : Yields (ofAction action) cache a cache') :
    (∃ w w', action w = (.ok a, w')) ∧ cache' = cache := by
  obtain ⟨w, w', run⟩ := run
  obtain ⟨result, state⟩ := runs_ofAction.mp run
  exact ⟨⟨w, w', result⟩, state⟩

theorem yields_advance (run : Yields (advance : Traversal (StateM σ) S Unit) cache () cache') :
    cache' = cache.advance :=
  yields_modify run

theorem yields_sample {source : Source (StateM σ) S} {l : Leaf S} {v : Value S}
    (run : Yields (sample source l) cache v cache') :
    (cache.get? l.id = some v ∧ cache' = cache) ∨
      (cache.get? l.id = none ∧ source.Draws l v ∧ cache' = cache.put l.id v) := by
  replace run := yields_get run
  cases known : cache.get? l.id with
  | some held =>
    rw [known] at run
    obtain ⟨rfl, rfl⟩ := yields_pure run
    exact .inl ⟨rfl, rfl⟩
  | none =>
    rw [known] at run
    obtain ⟨_, _, action, rest⟩ := yields_bind run
    obtain ⟨drawn, rfl⟩ := yields_ofAction action
    obtain ⟨_, _, put, last⟩ := yields_bind rest
    obtain rfl := yields_modify put
    obtain ⟨rfl, rfl⟩ := yields_pure last
    exact .inr ⟨rfl, drawn, rfl⟩

end Traversal

/-- How a sampler comes by the value of a leaf that it visits: it knows some without looking at the
cache, and may keep old ones instead of drawing. -/
structure LeafRules (S : Type) where
  direct : Leaf S → Option (Value S)
  draws : Leaf S → Value S → Prop
  keeps : Leaf S → Value S → Prop

def Progress.Notes (here : Progress S) (l : Leaf S) (v : Value S) (there : Progress S) : Prop :=
  there = here ∨ ∃ score reused, there = here.record l v score reused

/-- A visit to a leaf, between two states of the cache. -/
inductive Meets (rules : LeafRules S) (l : Leaf S) (here : Progress S) (cache : Cache S) :
    Visit S → Progress S → Cache S → Prop where
  | direct {v : Value S} (known : rules.direct l = some v) :
    Meets rules l here cache ⟨l, v, cache.generation, cache.contains l.id⟩ here cache
  | held {v : Value S} {there : Progress S} (indirect : rules.direct l = none)
    (held : cache.get? l.id = some v) (notes : here.Notes l v there) :
    Meets rules l here cache ⟨l, v, cache.generation, true⟩ there cache
  | obtained {v : Value S} {there : Progress S} (indirect : rules.direct l = none)
    (absent : cache.get? l.id = none) (obtained : rules.draws l v ∨ rules.keeps l v)
    (notes : here.Notes l v there) :
    Meets rules l here cache ⟨l, v, cache.generation, false⟩ there (cache.put l.id v)

variable [Scalar S]

/-- A traversal that succeeds, between two states of the cache.  An attempt that a filter rejects
leaves nothing but the cache, in a new generation. -/
inductive Walks (rules : LeafRules S) :
    Node S → Progress S → Cache S → Walked S → Cache S → Prop where
  | leaf {l : Leaf S} {here there : Progress S} {cache cache' : Cache S} {v : Visit S}
    (meets : Meets rules l here cache v there cache') :
    Walks rules (.leaf l) here cache (.ofVisit v there) cache'
  | weightedMap {n : Node S} {project : Value S → Outcome S (Weighted S)} {here : Progress S}
    {cache cache' : Cache S} {a b : Walked S} {r : Weighted S}
    (inner : Walks rules n (here.advance .map) cache a cache')
    (projects : project a.sample.value = .ok r) (result : a.project r = .ok b) :
    Walks rules (.weightedMap n project) here cache b cache'
  | weightedBind {n : Node S} {dependent : Value S → Nat → Node S}
    {combine : Value S → Value S → Outcome S (Weighted S)} {here : Progress S}
    {cache cache₁ cache' : Cache S} {a b c : Walked S} {r : Weighted S} (stamp : Nat)
    (first : Walks rules n (here.advance .bind) cache a cache₁)
    (second : Walks rules (dependent a.sample.value stamp) (a.here.advance .bind) cache₁ c cache')
    (combines : combine a.sample.value c.sample.value = .ok r) (result : a.combine c r = .ok b) :
    Walks rules (.weightedBind n dependent combine) here cache b cache'
  | accepted {n : Node S} {predicate : Predicate S} {here : Progress S} {cache cache' : Cache S}
    {a : Walked S} (attempt : Walks rules n (here.advance .filter) cache a cache')
    (holds : predicate a.sample.value = .ok true) :
    Walks rules (.filter n predicate) here cache (a.pass predicate) cache'
  | rejected {n : Node S} {predicate : Predicate S} {here : Progress S}
    {cache cache₁ cache' : Cache S} {a b : Walked S}
    (attempt : Walks rules n (here.advance .filter) cache a cache₁)
    (fails : predicate a.sample.value = .ok false)
    (again : Walks rules (.filter n predicate) here cache₁.advance b cache') :
    Walks rules (.filter n predicate) here cache b cache'

def LeafVisitor.Follows (visitor : LeafVisitor (StateM σ) S) (rules : LeafRules S) : Prop :=
  ∀ l fresh here cache v there cache',
    Yields (visitor l fresh here) cache (v, there) cache' → Meets rules l here cache v there cache'

section Walk

variable {visitor : LeafVisitor (StateM σ) S} {rules : LeafRules S} {source : Source (StateM σ) S}
  {patience : Nat}

theorem walks_retry {n : Node S} {predicate : Predicate S} {here : Progress S}
    {attempt : Traversal (StateM σ) S (Walked S)}
    (each : ∀ cache a cache', Yields attempt cache a cache' →
      Walks rules n (here.advance .filter) cache a cache')
    {cache cache' : Cache S} {a : Walked S}
    (run : Yields (Traversal.retry attempt (fun a => predicate a.sample.value) patience)
      cache a cache') :
    Walks rules (.filter n predicate) here cache (a.pass predicate) cache' := by
  -- What was met in a rejected attempt is left behind with its generation.
  induction patience generalizing cache with
  | zero => exact absurd run yields_throw
  | succ patience ih =>
    obtain ⟨b, cache₁, attempted, run⟩ := yields_bind run
    obtain ⟨accepted, _, decision, rest⟩ := yields_bind run
    obtain ⟨judged, rfl⟩ := Traversal.yields_ofOutcome decision
    cases accepted with
    | true =>
      obtain ⟨rfl, rfl⟩ := yields_pure rest
      exact .accepted (each _ _ _ attempted) judged
    | false =>
      obtain ⟨_, _, advanced, again⟩ := yields_bind rest
      obtain rfl := Traversal.yields_advance advanced
      exact .rejected (each _ _ _ attempted) judged (ih again)

theorem walks_of_yields (follows : visitor.Follows rules) {n : Node S} {fresh : Bool}
    {here : Progress S} {cache cache' : Cache S} {a : Walked S}
    (run : Yields (walk visitor source patience n fresh here) cache a cache') :
    Walks rules n here cache a cache' := by
  induction n generalizing fresh here cache a cache' with
  | leaf l =>
    obtain ⟨⟨v, there⟩, _, visited, rest⟩ := yields_bind run
    obtain ⟨rfl, rfl⟩ := yields_pure rest
    exact .leaf (follows _ _ _ _ _ _ _ visited)
  | weightedMap n project ih =>
    obtain ⟨_, _, inner, rest⟩ := yields_bind run
    obtain ⟨result, rfl⟩ := Traversal.yields_ofOutcome rest
    obtain ⟨_, projects, result⟩ := Outcome.bind_ok.mp result
    exact .weightedMap (ih inner) projects result
  | weightedBind n dependent combine ih ihDependent =>
    obtain ⟨_, _, first, after⟩ := yields_bind run
    obtain ⟨stamp, _, stamped, rest⟩ := yields_bind after
    obtain ⟨-, rfl⟩ := Traversal.yields_ofAction stamped
    obtain ⟨_, _, second, last⟩ := yields_bind rest
    obtain ⟨result, rfl⟩ := Traversal.yields_ofOutcome last
    obtain ⟨_, combines, result⟩ := Outcome.bind_ok.mp result
    exact .weightedBind stamp (ih first) (ihDependent _ _ second) combines result
  | filter n predicate ih =>
    obtain ⟨_, tried, rfl⟩ := yields_map run
    exact walks_retry (fun _ _ _ attempted => ih attempted) tried
  | unknown name => exact absurd run yields_throw
  | broken fault => exact absurd run yields_throw

end Walk

section Visitors

variable {source : Source (StateM σ) S} {l : Leaf S} {here : Progress S} {cache cache' : Cache S}

def LeafRules.forward (source : Source (StateM σ) S) : LeafRules S :=
  ⟨fun _ => none, source.Draws, fun _ _ => False⟩

def LeafRules.chain (source : Source (StateM σ) S) (p : Proposal S) : LeafRules S where
  direct l := match l.distribution with
    | .constant v => some v
    | _ => none
  draws := source.Draws
  keeps l v := ∃ address old, p.kept address l = .ok (some old) ∧ old.value = v

omit [Scalar S] in
theorem meets_sample {rules : LeafRules S} (indirect : rules.direct l = none)
    (draws : rules.draws = source.Draws) {v : Value S} {there : Progress S}
    (notes : here.Notes l v there) (run : Yields (Traversal.sample source l) cache v cache') :
    Meets rules l here cache ⟨l, v, cache.generation, cache.contains l.id⟩ there cache' := by
  rcases Traversal.yields_sample run with ⟨held, rfl⟩ | ⟨absent, drawn, rfl⟩
  · rw [Cache.contains, held]
    exact .held indirect held notes
  · rw [Cache.contains, absent]
    exact .obtained indirect absent (.inl (draws ▸ drawn)) notes

omit [Scalar S] in
theorem forwardVisitor_follows (source : Source (StateM σ) S) :
    (forwardVisitor source).Follows (.forward source) := by
  intro l fresh here cache v there cache' run
  obtain ⟨_, _, sampled, rest⟩ := yields_bind (yields_get run)
  obtain ⟨same, rfl⟩ := yields_pure rest
  cases same
  exact meets_sample rfl rfl (.inl rfl) sampled

theorem recordFresh_yields {v : Value S} {a : Sample S} {there : Progress S}
    (run : Yields (recordFresh (m := StateM σ) l v here) cache (a, there) cache') :
    ∃ score, l.distribution.logDensity v = .ok score ∧ a = .ofValue v ∧
      there = here.record l v score false ∧ cache' = cache := by
  obtain ⟨score, _, scored, rest⟩ := yields_bind run
  obtain ⟨density, rfl⟩ := Traversal.yields_ofOutcome scored
  obtain ⟨same, rfl⟩ := yields_pure rest
  cases same
  exact ⟨score, density, rfl, rfl, rfl⟩

variable {p : Proposal S} {fresh : Bool} {a : Sample S} {there : Progress S}

theorem visitFresh_meets (indirect : (LeafRules.chain source p).direct l = none)
    (run : Yields (visitFresh source l here) cache (a, there) cache') :
    Meets (.chain source p) l here cache ⟨l, a.value, cache.generation, cache.contains l.id⟩
      there cache' := by
  obtain ⟨v, _, sampled, recorded⟩ := yields_bind run
  obtain ⟨score, -, rfl, rfl, rfl⟩ := recordFresh_yields recorded
  exact meets_sample indirect rfl (.inr ⟨score, false, rfl⟩) sampled

theorem visitChoice_meets (indirect : (LeafRules.chain source p).direct l = none)
    (run : Yields (visitChoice source p fresh l here) cache (a, there) cache') :
    Meets (.chain source p) l here cache ⟨l, a.value, cache.generation, cache.contains l.id⟩
      there cache' := by
  replace run := yields_get run
  by_cases anew : (fresh || cache.contains l.id) = true
  · rw [if_pos anew] at run
    exact visitFresh_meets indirect run
  · have absent : cache.get? l.id = none := by
      simp_all [Cache.contains]
    rw [if_neg anew] at run
    obtain ⟨kept, _, decision, rest⟩ := yields_bind run
    obtain ⟨stays, rfl⟩ := Traversal.yields_ofOutcome decision
    cases kept with
    | none => exact visitFresh_meets indirect rest
    | some old =>
      obtain ⟨_, _, put, last⟩ := yields_bind rest
      obtain rfl := yields_modify put
      obtain ⟨same, rfl⟩ := yields_pure last
      cases same
      rw [Cache.contains, absent]
      exact .obtained indirect absent (.inr ⟨_, old, stays, rfl⟩) (.inr ⟨_, _, rfl⟩)

theorem chainVisitor_follows (source : Source (StateM σ) S) (p : Proposal S) :
    (chainVisitor source p).Follows (.chain source p) := by
  intro l fresh here cache v there cache' run
  obtain ⟨⟨a, there⟩, _, visited, rest⟩ := yields_bind (yields_get run)
  obtain ⟨same, rfl⟩ := yields_pure rest
  cases same
  rw [visitLeaf] at visited
  split at visited
  · next v constant =>
    obtain ⟨same, rfl⟩ := yields_pure visited
    cases same
    exact .direct (by simp [LeafRules.chain, constant, Sample.ofValue])
  · next indirect =>
    refine visitChoice_meets ?_ visited
    cases form : l.distribution <;> simp_all [LeafRules.chain]

end Visitors

section Chain

omit [Scalar S] in
theorem ChainStep.yields_ofTraversal {t : Traversal (StateM σ) S α} {tally tally' : ChainTally S}
    {a : α} (run : Yields (ofTraversal t) tally a tally') :
    Yields t tally.cache a tally'.cache := by
  rw [ofTraversal_eq] at run
  obtain ⟨cache, inner, rfl⟩ := yields_onPart run
  exact inner

omit [Scalar S] in
theorem WalkedReader.yields_ofChain {step : ChainStep (StateM σ) S α} {r r' : WalkedReading S}
    {a : α} (run : Yields (ofChain step) r a r') :
    Yields step r.tally a r'.tally ∧ r'.current = r.current := by
  rw [ofChain_eq] at run
  obtain ⟨tally, inner, rfl⟩ := yields_onPart run
  exact ⟨inner, rfl⟩

variable {source : Source (StateM σ) S} {patience : Nat} {root : Node S}
  {current : Option (ChainState S)} {cache cache' : Cache S}

/-- The trace that a proposal may keep choices of. -/
def traceOf : Option (ChainState S) → Trace S
  | none => .empty
  | some c => c.trace

omit [Scalar S] in
theorem Proposal.at_site {t : Trace S} {index : Nat} {p : Proposal S}
    (made : Proposal.at t index = .ok p) : ∃ site, p = ⟨t, some site⟩ := by
  unfold Proposal.at at made
  split at made
  · obtain ⟨key, -, made⟩ := Outcome.bind_ok.mp made
    cases made
    exact ⟨_, rfl⟩
  · cases made

theorem pickSite_yields {p : Proposal S} {site : Option Nat}
    (run : Yields (pickSite source current) cache (p, site) cache') :
    p.previous = traceOf current ∧ cache' = cache := by
  -- A site is drawn only where there is a trace that is not empty; the cache is not touched.
  cases current with
  | none =>
    obtain ⟨same, rfl⟩ := yields_pure run
    cases same
    exact ⟨rfl, rfl⟩
  | some c =>
    simp only [pickSite] at run
    by_cases empty : c.trace.isEmpty = true
    · rw [if_pos empty] at run
      obtain ⟨same, rfl⟩ := yields_pure run
      cases same
      exact ⟨rfl, rfl⟩
    · rw [if_neg empty] at run
      obtain ⟨u, _, drawn, rest⟩ := yields_bind run
      obtain ⟨-, rfl⟩ := Traversal.yields_ofAction drawn
      obtain ⟨_, _, built, last⟩ := yields_bind rest
      obtain ⟨made, rfl⟩ := Traversal.yields_ofOutcome built
      obtain ⟨same, rfl⟩ := yields_pure last
      cases same
      obtain ⟨_, rfl⟩ := Proposal.at_site made
      exact ⟨rfl, rfl⟩

theorem walkForward_walks {a : Walked S}
    (run : Yields (walkForward source patience root) cache a cache') :
    Walks (.forward source) root ⟨{}, .empty⟩ cache.advance a cache' := by
  obtain ⟨_, _, advanced, walked⟩ := yields_bind run
  obtain rfl := Traversal.yields_advance advanced
  exact walks_of_yields (forwardVisitor_follows source) walked

/-- A proposal begins a generation and has its site before anything is visited. -/
theorem yields_pickSite {β : Type} {k : Proposal S × Option Nat → Traversal (StateM σ) S β} {b : β}
    (run : Yields (do Traversal.advance; k (← pickSite source current)) cache b cache') :
    ∃ p site, p.previous = traceOf current ∧ Yields (k (p, site)) cache.advance b cache' := by
  obtain ⟨_, _, advanced, proposed⟩ := yields_bind run
  obtain rfl := Traversal.yields_advance advanced
  obtain ⟨⟨p, site⟩, _, picked, rest⟩ := yields_bind proposed
  obtain ⟨previous, rfl⟩ := pickSite_yields picked
  exact ⟨p, site, previous, rest⟩

theorem propose_yields {s : ChainState S}
    (run : Yields (propose source patience root current) cache s cache') :
    ∃ (p : Proposal S) (a : Sample S) (there : Progress S) (site : Option Nat), p.previous = traceOf current ∧
      Yields (visit source patience p root false ⟨{}, .empty⟩) cache.advance (a, there) cache' ∧
      s = ⟨there.trace, a, site⟩ := by
  obtain ⟨p, site, previous, walked⟩ := yields_pickSite run
  obtain ⟨⟨a, there⟩, _, visited, last⟩ := yields_bind walked
  obtain ⟨rfl, rfl⟩ := yields_pure last
  exact ⟨p, a, there, site, previous, visited, rfl⟩

theorem walkProposal_walks {s : WalkedState S}
    (run : Yields (walkProposal source patience root current) cache s cache') :
    ∃ p : Proposal S, p.previous = traceOf current ∧
      Walks (.chain source p) root ⟨{}, .empty⟩ cache.advance s.walked cache' := by
  obtain ⟨p, site, previous, walked⟩ := yields_pickSite run
  obtain ⟨a, _, walked, last⟩ := yields_bind walked
  obtain ⟨rfl, rfl⟩ := yields_pure last
  exact ⟨p, previous, walks_of_yields (chainVisitor_follows source p) walked⟩

theorem decideMove_yields {candidate : ChainState S} {accept : Bool}
    (run : Yields (decideMove source candidate current) cache accept cache') : cache' = cache := by
  cases current with
  | none => exact (yields_pure run).2
  | some c =>
    obtain ⟨_, _, ratio, rest⟩ := yields_bind run
    obtain ⟨-, rfl⟩ := Traversal.yields_ofOutcome ratio
    obtain ⟨_, _, drawn, last⟩ := yields_bind rest
    obtain ⟨-, rfl⟩ := Traversal.yields_ofAction drawn
    exact (yields_pure last).2

theorem WalkedReader.takeSamples_reading {strategy : Strategy} (k : Nat) {r r' : WalkedReading S}
    {w w' : σ} {taken : Outcome S (List (Walked S))}
    (run : (takeSamples (WalkedReader.next source patience strategy root) k).run.run r w =
      ((taken, r'), w')) :
    (takeSamples (Reader.next source patience strategy root) k).run.run r.reading w =
      ((taken.map (List.map Walked.sample), r'.reading), w') := by
  refine (congrFun (mirrors_takeOnto (mirrors_next source patience strategy root) k [] r) w).trans ?_
  change (match (takeSamples (WalkedReader.next source patience strategy root) k).run.run r w with
    | (a, w₁) => ((a.1.map (List.map Walked.sample), a.2.reading), w₁)) = _
  rw [run]

end Chain

/-- What holds of the cache between traversals, and of every traversal that succeeds. -/
structure Upholds (source : Source (StateM σ) S) (root : Node S) (K : Cache S → Prop)
    (Q : Walked S → Prop) : Prop where
  forward : ∀ cache a cache', K cache →
    Walks (.forward source) root ⟨{}, .empty⟩ cache.advance a cache' → K cache' ∧ Q a
  chain : ∀ p : Proposal S, (p.previous = .empty ∨ ∃ b, Q b ∧ p.previous = b.here.trace) →
    ∀ cache a cache', K cache →
      Walks (.chain source p) root ⟨{}, .empty⟩ cache.advance a cache' → K cache' ∧ Q a

namespace Upholds

variable {source : Source (StateM σ) S} {patience : Nat} {root : Node S} {K : Cache S → Prop}
  {Q : Walked S → Prop}

theorem proposal (upholds : Upholds source root K Q) {current : Option (WalkedState S)}
    (known : ∀ s, current = some s → Q s.walked) {cache cache' : Cache S} {s : WalkedState S}
    (start : K cache)
    (run : Yields (walkProposal source patience root (current.map WalkedState.state)) cache s cache') :
    K cache' ∧ Q s.walked := by
  obtain ⟨p, previous, walks⟩ := walkProposal_walks run
  refine upholds.chain p ?_ _ _ _ start walks
  cases current with
  | none => exact .inl previous
  | some old => exact .inr ⟨old.walked, known old rfl, previous⟩

theorem state (upholds : Upholds source root K Q) {current : Option (WalkedState S)}
    (known : ∀ s, current = some s → Q s.walked) {left : Nat} {tally tally' : ChainTally S}
    {s : WalkedState S} (start : K tally.cache)
    (run : Yields (walkState source patience root current left) tally s tally') :
    K tally'.cache ∧ Q s.walked := by
  -- Scoring and deciding leave the cache as it is, and what is not accepted keeps the old state.
  induction left generalizing tally with
  | zero => exact absurd run yields_throw
  | succ left ih =>
    obtain ⟨candidate, _, proposed, rest⟩ := yields_bind run
    obtain ⟨kept, holds⟩ :=
      upholds.proposal known start (ChainStep.yields_ofTraversal proposed)
    obtain ⟨score, scoredTally, scored, rest⟩ := yields_bind rest
    obtain ⟨-, scored⟩ := Traversal.yields_ofOutcome (ChainStep.yields_ofTraversal scored)
    rw [← scored] at kept
    split_ifs at rest
    · exact ih kept rest
    · obtain ⟨accept, decidedTally, decided, rest⟩ := yields_bind rest
      have decided := decideMove_yields (ChainStep.yields_ofTraversal decided)
      rw [← decided] at kept
      obtain ⟨_, _, counted, rest⟩ := yields_bind rest
      obtain rfl := yields_modify counted
      obtain ⟨rfl, rfl⟩ := yields_pure rest
      refine ⟨kept, ?_⟩
      cases accept with
      | true => exact holds
      | false =>
        cases current with
        | none => exact holds
        | some old => exact known old rfl

theorem next (upholds : Upholds source root K Q) {strategy : Strategy} {r r' : WalkedReading S}
    {a : Walked S} (known : ∀ s, r.current = some s → Q s.walked) (start : K r.tally.cache)
    (run : Yields (WalkedReader.next source patience strategy root) r a r') :
    Q a ∧ (∀ s, r'.current = some s → Q s.walked) ∧ K r'.tally.cache := by
  cases strategy with
  | forward =>
    obtain ⟨step, current⟩ := WalkedReader.yields_ofChain run
    obtain ⟨kept, holds⟩ := upholds.forward _ _ _ start
      (walkForward_walks (ChainStep.yields_ofTraversal step))
    exact ⟨holds, current ▸ known, kept⟩
  | markov =>
    obtain ⟨s, _, step, rest⟩ := yields_bind (yields_get run)
    obtain ⟨kept, holds⟩ := upholds.state known start (WalkedReader.yields_ofChain step).1
    obtain ⟨_, _, stored, last⟩ := yields_bind rest
    obtain rfl := yields_modify stored
    obtain ⟨rfl, rfl⟩ := yields_pure last
    refine ⟨holds, ?_, kept⟩
    rintro s ⟨⟩
    exact holds

theorem takeOnto (upholds : Upholds source root K Q) {strategy : Strategy} {k : Nat}
    {r r' : WalkedReading S} {before taken : List (Walked S)}
    (known : ∀ s, r.current = some s → Q s.walked) (start : K r.tally.cache)
    (already : ∀ a ∈ before, Q a)
    (run : Yields (takeOnto (WalkedReader.next source patience strategy root) k before) r taken r') :
    ∀ a ∈ taken, Q a := by
  induction k generalizing r before with
  | zero =>
    obtain ⟨rfl, -⟩ := yields_pure run
    intro a member
    exact already a (List.mem_reverse.mp member)
  | succ k ih =>
    obtain ⟨a, _, step, rest⟩ := yields_bind run
    obtain ⟨holds, known, start⟩ := upholds.next known start step
    exact ih known start (List.forall_mem_cons.mpr ⟨holds, already⟩) rest

/-- Every sample that a new reader of a sampler takes comes from a traversal of which `Q` holds. -/
theorem samples (upholds : Upholds source root K Q) {strategy : Strategy} {k : Nat}
    {tally : ChainTally S} (start : K tally.cache) {w w' : σ} {samples : List (Sample S)}
    {reading : Reading S}
    (run : (takeSamples (Reader.next source patience strategy root) k).run.run ⟨tally, none⟩ w =
      ((.ok samples, reading), w')) :
    ∃ taken reading', (takeSamples (WalkedReader.next source patience strategy root) k).run.run
        ⟨tally, none⟩ w = ((.ok taken, reading'), w') ∧
      taken.map Walked.sample = samples ∧ ∀ a ∈ taken, Q a := by
  rcases result : (takeSamples (WalkedReader.next source patience strategy root) k).run.run
    ⟨tally, none⟩ w with ⟨⟨_ | taken, reading'⟩, w₁⟩
  · have mirrored := run.symm.trans (WalkedReader.takeSamples_reading k result)
    cases mirrored
  · have mirrored := run.symm.trans (WalkedReader.takeSamples_reading k result)
    cases mirrored
    refine ⟨taken, reading', rfl, rfl, upholds.takeOnto ?_ start ?_ ⟨w, _, result⟩⟩
    · intro s current
      cases current
    · intro a member
      cases member

end Upholds

section Runs

variable {source : Source (StateM σ) S} {patience : Nat} {fresh : Bool} {here : Progress S}
  {cache cache₁ cache' : Cache S} {w w₁ w₂ w' : σ}

omit [Scalar S] in
theorem Traversal.runs_sample_held {l : Leaf S} {v : Value S} (held : cache.get? l.id = some v) :
    Runs (sample source l) cache w v cache w := by
  apply Runs.get_bind
  rw [held]
  exact Runs.of_pure

omit [Scalar S] in
theorem Traversal.runs_sample_absent {l : Leaf S} {v : Value S} (absent : cache.get? l.id = none)
    (drawn : source.draw l w = (.ok v, w')) :
    Runs (sample source l) cache w v (cache.put l.id v) w' := by
  apply Runs.get_bind
  rw [absent]
  refine Runs.bind (runs_ofAction.mpr ⟨drawn, rfl⟩) ?_
  exact Runs.bind (a := ⟨⟩) (runs_modify.mpr ⟨rfl, rfl⟩) Runs.of_pure

omit [Scalar S] in
theorem Traversal.runs_fresh {stamp : Nat} (stamped : source.stamp w = (stamp, w')) :
    Runs (Traversal.fresh source) cache w stamp cache w' := by
  refine runs_ofAction.mpr ⟨?_, rfl⟩
  change (match source.stamp w with | (k, w₁) => (Except.ok k, w₁)) = _
  rw [stamped]

theorem runs_leaf {l : Leaf S} {v : Value S}
    (sampled : Runs (Traversal.sample source l) cache w v cache' w') :
    Runs (walk (forwardVisitor source) source patience (.leaf l) fresh here) cache w
      (.ofVisit ⟨l, v, cache.generation, cache.contains l.id⟩ here) cache' w' :=
  Runs.bind (Runs.get_bind (sampled.bind Runs.of_pure)) Runs.of_pure

variable {visitor : LeafVisitor (StateM σ) S} {n : Node S} {a b c : Walked S}

theorem runs_weightedBind {dependent : Value S → Nat → Node S}
    {combine : Value S → Value S → Outcome S (Weighted S)} {stamp : Nat} {r : Weighted S}
    (first : Runs (walk visitor source patience n fresh (here.advance .bind)) cache w a cache₁ w₁)
    (stamped : source.stamp w₁ = (stamp, w₂))
    (second : Runs (walk visitor source patience (dependent a.sample.value stamp) fresh
      (a.here.advance .bind)) cache₁ w₂ c cache' w')
    (combines : combine a.sample.value c.sample.value = .ok r) (result : a.combine c r = .ok b) :
    Runs (walk visitor source patience (.weightedBind n dependent combine) fresh here) cache w
      b cache' w' := by
  refine first.bind ((Traversal.runs_fresh stamped).bind (second.bind ?_))
  exact Traversal.runs_ofOutcome.mpr ⟨Outcome.bind_ok.mpr ⟨r, combines, result⟩, rfl, rfl⟩

theorem runs_visit_weightedBind {p : Proposal S} {dependent : Value S → Nat → Node S}
    {combine : Value S → Value S → Outcome S (Weighted S)} {stamp : Nat} {r : Weighted S}
    {a b c : Sample S} {there there' : Progress S}
    (first : Runs (visit source patience p n fresh (here.advance .bind)) cache w (a, there) cache₁ w₁)
    (stamped : source.stamp w₁ = (stamp, w₂))
    (second : Runs (visit source patience p (dependent a.value stamp) fresh (there.advance .bind))
      cache₁ w₂ (c, there') cache' w')
    (combines : combine a.value c.value = .ok r) (result : a.combine c r = .ok b) :
    Runs (visit source patience p (.weightedBind n dependent combine) fresh here) cache w
      (b, there') cache' w' := by
  refine first.bind ((Traversal.runs_fresh stamped).bind (second.bind ?_))
  refine Runs.bind (Traversal.runs_ofOutcome.mpr ⟨?_, rfl, rfl⟩) Runs.of_pure
  exact Outcome.bind_ok.mpr ⟨r, combines, result⟩

omit [Scalar S] in
theorem runs_retry_accept {attempt : Traversal (StateM σ) S α} {accept : α → Outcome S Bool}
    {a : α} (attempted : Runs attempt cache w a cache' w')
    (holds : accept a = .ok true) :
    Runs (Traversal.retry attempt accept (patience + 1)) cache w a cache' w' :=
  attempted.bind (Runs.bind (Traversal.runs_ofOutcome.mpr ⟨holds, rfl, rfl⟩) Runs.of_pure)

omit [Scalar S] in
theorem runs_retry_reject {attempt : Traversal (StateM σ) S α} {accept : α → Outcome S Bool}
    {a b : α} (attempted : Runs attempt cache w a cache₁ w₁)
    (fails : accept a = .ok false)
    (again : Runs (Traversal.retry attempt accept patience) cache₁.advance w₁ b cache' w') :
    Runs (Traversal.retry attempt accept (patience + 1)) cache w b cache' w' := by
  refine attempted.bind (Runs.bind (Traversal.runs_ofOutcome.mpr ⟨fails, rfl, rfl⟩) ?_)
  exact Runs.bind (a := ⟨⟩) (runs_modify.mpr ⟨rfl, rfl⟩) again

omit [Scalar S] in
theorem ChainStep.runs_ofTraversal {t : Traversal (StateM σ) S α} {tally : ChainTally S} {a : α}
    (run : Runs t tally.cache w a cache' w') :
    Runs (ofTraversal t) tally w a { tally with cache := cache' } w' := by
  rw [ofTraversal_eq]
  exact onPart_run run

omit [Scalar S] in
theorem Reader.runs_ofChain {step : ChainStep (StateM σ) S α} {r : Reading S}
    {tally : ChainTally S} {a : α} (run : Runs step r.tally w a tally w') :
    Runs (ofChain step) r w a { r with tally } w' := by
  rw [ofChain_eq]
  exact onPart_run run

omit [Scalar S] in
theorem WalkedReader.runs_ofChain {step : ChainStep (StateM σ) S α} {r : WalkedReading S}
    {tally : ChainTally S} {a : α} (run : Runs step r.tally w a tally w') :
    Runs (ofChain step) r w a { r with tally } w' := by
  rw [ofChain_eq]
  exact onPart_run run

theorem WalkedReader.runs_forward {root : Node S} {r : WalkedReading S} {a : Walked S}
    (run : Runs (walk (forwardVisitor source) source patience root false ⟨{}, .empty⟩)
      r.tally.cache.advance w a cache' w') :
    Runs (takeSamples (WalkedReader.next source patience .forward root) 1) r w [a]
      { r with tally.cache := cache' } w' := by
  refine Runs.bind (runs_ofChain (ChainStep.runs_ofTraversal ?_)) Runs.of_pure
  exact Runs.bind (a := ⟨⟩) (runs_modify.mpr ⟨rfl, rfl⟩) run

theorem runs_propose_first {root : Node S} {a : Sample S} {there : Progress S}
    (visited : Runs (visit source patience ⟨.empty, none⟩ root false ⟨{}, .empty⟩) cache.advance w
      (a, there) cache' w') :
    Runs (propose source patience root none) cache w ⟨there.trace, a, none⟩ cache' w' :=
  Runs.bind (a := ⟨⟩) (runs_modify.mpr ⟨rfl, rfl⟩) (Runs.bind Runs.of_pure (visited.bind Runs.of_pure))

end Runs

/-- A source of tosses, whichever leaf is drawn from. -/
def tosses : Source (StateM (List Bool)) S where
  draw _ := fun
    | [] => (.error .outOfRandomness, [])
    | toss :: rest => (.ok (.bool toss), rest)
  uniform := fun rest => (.error .outOfRandomness, rest)
  stamp := fun rest => (0, rest)

def fairFlip (index : Nat) : Leaf S :=
  ⟨⟨0, index⟩, .flip (.real (Scalar.ratio 1 2)) (.real (Scalar.ratio 1 2))⟩

end ChanceGraph
