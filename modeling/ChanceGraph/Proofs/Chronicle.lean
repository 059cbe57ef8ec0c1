import ChanceGraph.Proofs.Turns

/-!
A chain that keeps a log of what its counters do not show: proposals that begin, attempts that a filter has
refused, candidates that are dropped and proposals that fail.  It takes the same steps as the chain without a
log, and the log accounts for the generations.
-/

set_option autoImplicit false

namespace ChanceGraph

variable {S σ τ α β : Type}

inductive Event where
  | proposed
  | rejected
  | dropped
  | failed
  deriving DecidableEq, Repr

abbrev Log := List Event

section Programs

/-- A computation that knows nothing of the log beside its world. -/
def unlogged (action : StateM σ α) : StateM (Log × σ) α :=
  fun s => ((action s.2).1, (s.1, (action s.2).2))

def Source.beside (source : Source (StateM σ) S) : Source (StateM (Log × σ)) S where
  draw leaf := unlogged (source.draw leaf)
  uniform := unlogged source.uniform
  stamp := unlogged source.stamp

def note (event : Event) : ExceptT (Fault S) (StateT τ (StateM (Log × σ))) Unit :=
  fun s w => ((.ok (), s), (w.1 ++ [event], w.2))

/-- Notes that a part of a proposal has failed. -/
def noteFailure (t : ExceptT (Fault S) (StateT τ (StateM (Log × σ))) α) :
    ExceptT (Fault S) (StateT τ (StateM (Log × σ))) α := fun s w =>
  let (result, log, w) := t.run.run s w
  (result, if result.1.isOk then log else log ++ [.failed], w)

def retryLogged (attempt : Traversal (StateM (Log × σ)) S α) (accept : α → Outcome S Bool) :
    Nat → Traversal (StateM (Log × σ)) S α
  | 0 => throw .endless
  | patience + 1 => do
    let a ← attempt
    if ← Traversal.ofOutcome (accept a) then return a
    else
      note .rejected
      Traversal.advance
      retryLogged attempt accept patience

variable [Scalar S] (source : Source (StateM σ) S) (patience : Nat) (root : Node S)

def visitLogged (p : Proposal S) :
    Node S → Bool → Progress S → Traversal (StateM (Log × σ)) S (Sample S × Progress S)
  | .leaf l, fresh, here => visitLeaf source.beside p fresh l here
  | .weightedMap n project, fresh, here => do
    let (a, here) ← visitLogged p n fresh (here.advance .map)
    return (← Traversal.ofOutcome do a.project (← project a.value), here)
  | .weightedBind n dependent combine, fresh, here => do
    let (a, here) ← visitLogged p n fresh (here.advance .bind)
    let stamp ← Traversal.fresh source.beside
    let (c, here) ← visitLogged p (dependent a.value stamp) fresh (here.advance .bind)
    return (← Traversal.ofOutcome do a.combine c (← combine a.value c.value), here)
  | .filter n predicate, _, here =>
    retryLogged (visitLogged p n true (here.advance .filter)) (fun (a, _) => predicate a.value) patience
  | .unknown name, _, _ => throw (.unknownNode (Node.label name))
  | .broken fault, _, _ => throw fault

def proposeLogged (current : Option (ChainState S)) : Traversal (StateM (Log × σ)) S (ChainState S) := do
  note .proposed
  Traversal.advance
  let (p, site) ← pickSite source.beside current
  let (sample, progress) ← visitLogged source patience p root false ⟨{}, .empty⟩
  return ⟨progress.trace, sample, site⟩

def nextStateLogged (current : Option (ChainState S)) : Nat → ChainStep (StateM (Log × σ)) S (ChainState S)
  | 0 => throw .endless
  | left + 1 => do
    let candidate ← noteFailure (ChainStep.ofTraversal (proposeLogged source patience root current))
    let score ← noteFailure (ChainStep.ofTraversal (Traversal.ofOutcome candidate.trace.score))
    if score == Scalar.negInfinity then
      note .dropped
      nextStateLogged current left
    else
      let accept ← noteFailure (ChainStep.ofTraversal (decideMove source.beside candidate current))
      modify (ChainTally.count accept)
      return if accept then candidate else current.getD candidate

def Reader.nextLogged : Reader (StateM (Log × σ)) S (Sample S) := do
  let current := (← get).current
  let state ← ofChain (nextStateLogged source patience root current patience)
  modify fun reading => { reading with current := some state }
  return state.sample

end Programs

/-- The first program does what the second one does, and adds to the log what goes with the change of
state. -/
def Logs (Q : τ → Log → Outcome S α → τ → Prop) (t : ExceptT (Fault S) (StateT τ (StateM (Log × σ))) α)
    (t' : ExceptT (Fault S) (StateT τ (StateM σ)) α) : Prop :=
  ∀ s w, ∃ new r s' w', (∀ log, t.run.run s (log, w) = ((r, s'), (log ++ new, w'))) ∧
    t'.run.run s w = ((r, s'), w') ∧ Q s new r s'

namespace Logs

variable {P Q : τ → Log → Outcome S α → τ → Prop} {R : τ → Log → Outcome S β → τ → Prop}
  {t : ExceptT (Fault S) (StateT τ (StateM (Log × σ))) α} {t' : ExceptT (Fault S) (StateT τ (StateM σ)) α}

theorem mono (logs : Logs P t t') (weaker : ∀ s new r s', P s new r s' → Q s new r s') : Logs Q t t' := by
  intro s w
  obtain ⟨new, r, s', w', run, run', holds⟩ := logs s w
  exact ⟨new, r, s', w', run, run', weaker s new r s' holds⟩

theorem silent (each : ∀ s w, ∃ r s' w', (∀ log, t.run.run s (log, w) = ((r, s'), (log, w'))) ∧
    t'.run.run s w = ((r, s'), w') ∧ Q s [] r s') : Logs Q t t' := by
  intro s w
  obtain ⟨r, s', w', run, run', holds⟩ := each s w
  exact ⟨[], r, s', w', fun log => by rw [List.append_nil, run], run', holds⟩

theorem pure {a : α} (holds : ∀ s, Q s [] (.ok a) s) :
    Logs Q (Pure.pure a : ExceptT (Fault S) (StateT τ (StateM (Log × σ))) α) (Pure.pure a) :=
  .silent fun s w => ⟨.ok a, s, w, fun _ => rfl, rfl, holds s⟩

theorem throw {fault : Fault S} (holds : ∀ s, Q s [] (.error fault) s) :
    Logs Q (throwThe (Fault S) fault : ExceptT (Fault S) (StateT τ (StateM (Log × σ))) α)
      (throwThe (Fault S) fault) :=
  .silent fun s w => ⟨.error fault, s, w, fun _ => rfl, rfl, holds s⟩

theorem bind {f : α → ExceptT (Fault S) (StateT τ (StateM (Log × σ))) β}
    {f' : α → ExceptT (Fault S) (StateT τ (StateM σ)) β} {Q : α → τ → Log → Outcome S β → τ → Prop}
    (first : Logs P t t') (rest : ∀ a, Logs (Q a) (f a) (f' a))
    (fails : ∀ s new fault s', P s new (.error fault) s' → R s new (.error fault) s')
    (goes : ∀ s new a s₁ new' r s', P s new (.ok a) s₁ → Q a s₁ new' r s' → R s (new ++ new') r s') :
    Logs R (t >>= f) (t' >>= f') := by
  intro s w
  obtain ⟨new, r, s₁, w₁, run, run', holds⟩ := first s w
  simp only [run_bind, run, run']
  cases r with
  | error fault => exact ⟨new, .error fault, s₁, w₁, fun log => rfl, rfl, fails s new fault s₁ holds⟩
  | ok a =>
    obtain ⟨new', r, s', w', later, later', holds'⟩ := rest a s₁ w₁
    refine ⟨new ++ new', r, s', w', fun log => ?_, later', goes s new a s₁ new' r s' holds holds'⟩
    rw [← List.append_assoc]
    exact later (log ++ new)

theorem note_bind {event : Event} (rest : Logs P t t')
    (goes : ∀ s new r s', P s new r s' → Q s (event :: new) r s') :
    Logs Q (note event >>= fun _ => t) t' := by
  intro s w
  obtain ⟨new, r, s', w', run, run', holds⟩ := rest s w
  refine ⟨event :: new, r, s', w', fun log => ?_, run', goes s new r s' holds⟩
  have noted : (note event : ExceptT (Fault S) _ Unit).run.run s (log, w) =
      ((.ok (), s), (log ++ [event], w)) := rfl
  rw [run_bind, noted]
  simpa using run (log ++ [event])

theorem modify_bind {f : τ → τ} (rest : Logs P t t') (goes : ∀ s new r s', P (f s) new r s' → Q s new r s') :
    Logs Q (modify f >>= fun _ => t) (modify f >>= fun _ => t') := by
  intro s w
  obtain ⟨new, r, s', w', run, run', holds⟩ := rest (f s) w
  exact ⟨new, r, s', w', fun log => (run_bind _ _ _ _).trans (run log), (run_bind _ _ _ _).trans run',
    goes s new r s' holds⟩

theorem get_bind {k : τ → ExceptT (Fault S) (StateT τ (StateM (Log × σ))) α}
    {k' : τ → ExceptT (Fault S) (StateT τ (StateM σ)) α} {Q : τ → τ → Log → Outcome S α → τ → Prop}
    (each : ∀ s, Logs (Q s) (k s) (k' s)) : Logs (fun s => Q s s) (get >>= k) (get >>= k') := by
  intro s w
  obtain ⟨new, r, s', w', run, run', holds⟩ := each s s w
  exact ⟨new, r, s', w', fun log => (congrFun (run_get_bind k s) _).trans (run log),
    (congrFun (run_get_bind k' s) w).trans run', holds⟩

theorem onPart {υ : Type} {part : υ → τ} {put : υ → τ → υ} (logs : Logs P t t') :
    Logs (fun v new r v' => ∃ s, v' = put v s ∧ P (part v) new r s) (onPart part put t) (onPart part put t') := by
  intro v w
  obtain ⟨new, r, s, w', run, run', holds⟩ := logs (part v) w
  exact ⟨new, r, put v s, w', fun log => onPart_run (run log), onPart_run run', s, rfl, holds⟩

theorem noteFailure (logs : Logs P t t')
    (fails : ∀ s new fault s', P s new (.error fault) s' → Q s (new ++ [.failed]) (.error fault) s')
    (goes : ∀ s new a s', P s new (.ok a) s' → Q s new (.ok a) s') :
    Logs Q (ChanceGraph.noteFailure t) t' := by
  intro s w
  obtain ⟨new, r, s', w', run, run', holds⟩ := logs s w
  have noted (log : Log) : (ChanceGraph.noteFailure t).run.run s (log, w) =
      ((r, s'), if r.isOk then log ++ new else log ++ new ++ [.failed], w') := by
    simp only [ChanceGraph.noteFailure, ExceptT.run, StateT.run] at run ⊢
    rw [run]
  cases r with
  | error fault =>
    refine ⟨new ++ [.failed], .error fault, s', w', fun log => ?_, run', fails s new fault s' holds⟩
    rw [noted, ← List.append_assoc]
    rfl
  | ok a => exact ⟨new, .ok a, s', w', noted, run', goes s new a s' holds⟩

end Logs

/-- What a part of a proposal adds to the log: the start of a proposal, if it is the first part, and what
filters refuse, each in a new generation. -/
structure Cache.Spent (started : Nat) (C : Cache S) (new : Log) (C' : Cache S) : Prop where
  proposed : new.count .proposed = started
  dropped : new.count .dropped = 0
  failed : new.count .failed = 0
  generation : C'.generation = C.generation + started + new.count .rejected

theorem Cache.Spent.none {C C' : Cache S} (same : C'.generation = C.generation) : Spent 0 C [] C' :=
  ⟨rfl, rfl, rfl, by simpa using same⟩

theorem Cache.Spent.append {C C₁ C' : Cache S} {new new' : Log} (first : Spent 0 C new C₁)
    (rest : Spent 0 C₁ new' C') : Spent 0 C (new ++ new') C' where
  proposed := by rw [List.count_append, first.proposed, rest.proposed]
  dropped := by rw [List.count_append, first.dropped, rest.dropped]
  failed := by rw [List.count_append, first.failed, rest.failed]
  generation := by
    rw [rest.generation, first.generation, List.count_append]
    push_cast
    ring

theorem Cache.Spent.rejected {C C' : Cache S} {new : Log} (rest : Spent 0 C.advance new C') :
    Spent 0 C (.rejected :: new) C' where
  proposed := by simpa using rest.proposed
  dropped := by simpa using rest.dropped
  failed := by simpa using rest.failed
  generation := by
    rw [rest.generation, List.count_cons_self, Cache.advance]
    push_cast
    ring

theorem Cache.Spent.propose {C C' : Cache S} {new : Log} (rest : Spent 0 C.advance new C') :
    Spent 1 C (.proposed :: new) C' where
  proposed := by simpa using rest.proposed
  dropped := by simpa using rest.dropped
  failed := by simpa using rest.failed
  generation := by
    rw [rest.generation, List.count_cons_of_ne (by decide), Cache.advance]
    push_cast
    ring

/-- The traversals differ in the log only, which accounts for the generations. -/
abbrev Spends (started : Nat) (t : Traversal (StateM (Log × σ)) S α) (t' : Traversal (StateM σ) S α) : Prop :=
  Logs (fun C new _ C' => C.Spent started new C') t t'

namespace Spends

variable {source : Source (StateM σ) S}

theorem pure (a : α) : Spends 0 (Pure.pure a : Traversal (StateM (Log × σ)) S α) (Pure.pure a) :=
  Logs.pure fun _ => .none rfl

theorem throw (fault : Fault S) :
    Spends 0 (throwThe (Fault S) fault : Traversal (StateM (Log × σ)) S α) (throwThe (Fault S) fault) :=
  Logs.throw fun _ => .none rfl

theorem bind {t : Traversal (StateM (Log × σ)) S α} {t' : Traversal (StateM σ) S α}
    {f : α → Traversal (StateM (Log × σ)) S β} {f' : α → Traversal (StateM σ) S β} (first : Spends 0 t t')
    (rest : ∀ a, Spends 0 (f a) (f' a)) : Spends 0 (t >>= f) (t' >>= f') :=
  Logs.bind first rest (fun _ _ _ _ spent => spent) fun _ _ _ _ _ _ _ spent later => spent.append later

theorem ofOutcome (r : Outcome S α) :
    Spends 0 (Traversal.ofOutcome r : Traversal (StateM (Log × σ)) S α) (Traversal.ofOutcome r) :=
  Logs.silent fun C w => ⟨r, C, w, fun _ => rfl, rfl, .none rfl⟩

theorem ofAction (action : StateM σ (Outcome S α)) :
    Spends 0 (Traversal.ofAction (unlogged action)) (Traversal.ofAction action) :=
  Logs.silent fun C w => ⟨(action w).1, C, (action w).2, fun _ => ofAction_run _ C _, ofAction_run action C w,
    .none rfl⟩

theorem put (id : ObjectId) (v : Value S) :
    Spends 0 (modify (·.put id v) : Traversal (StateM (Log × σ)) S PUnit) (modify (·.put id v)) :=
  Logs.silent fun C w => ⟨.ok ⟨⟩, C.put id v, w, fun _ => rfl, rfl, .none rfl⟩

theorem get_bind {k : Cache S → Traversal (StateM (Log × σ)) S α} {k' : Cache S → Traversal (StateM σ) S α}
    (each : ∀ C, Spends 0 (k C) (k' C)) : Spends 0 (get >>= k) (get >>= k') :=
  Logs.get_bind (Q := fun _ (C : Cache S) new _ C' => C.Spent 0 new C') each

theorem advance {t : Traversal (StateM (Log × σ)) S α} {t' : Traversal (StateM σ) S α} (rest : Spends 0 t t') :
    Logs (fun C new _ C' => C.advance.Spent 0 new C') (Traversal.advance >>= fun _ => t)
      (Traversal.advance >>= fun _ => t') :=
  Logs.modify_bind rest fun _ _ _ _ spent => spent

theorem sample (l : Leaf S) : Spends 0 (Traversal.sample source.beside l) (Traversal.sample source l) := by
  refine .get_bind fun C => ?_
  cases C.get? l.id with
  | some v => exact .pure v
  | none => exact (ofAction _).bind fun v => (put l.id v).bind fun _ => .pure v

theorem fresh : Spends 0 (Traversal.fresh source.beside) (Traversal.fresh source) :=
  ofAction (Except.ok <$> source.stamp)

theorem retry {attempt : Traversal (StateM (Log × σ)) S α} {attempt' : Traversal (StateM σ) S α}
    {accept : α → Outcome S Bool} (each : Spends 0 attempt attempt') (patience : Nat) :
    Spends 0 (retryLogged attempt accept patience) (Traversal.retry attempt' accept patience) := by
  induction patience with
  | zero => exact .throw _
  | succ patience ih =>
    refine each.bind fun a => (ofOutcome _).bind fun accepted => ?_
    cases accepted with
    | true => exact .pure a
    | false => exact Logs.note_bind (advance ih) fun _ _ _ _ spent => spent.rejected

variable [Scalar S] {p : Proposal S}

theorem visitFresh (l : Leaf S) (here : Progress S) :
    Spends 0 (ChanceGraph.visitFresh source.beside l here) (ChanceGraph.visitFresh source l here) :=
  (sample l).bind fun _ => (ofOutcome _).bind fun _ => .pure _

theorem visitKept (l : Leaf S) (old : Choice S) (here : Progress S) :
    Spends 0 (ChanceGraph.visitKept l old here : Traversal (StateM (Log × σ)) S _)
      (ChanceGraph.visitKept l old here) :=
  (put l.id old.value).bind fun _ => .pure _

theorem visitChoice (fresh : Bool) (l : Leaf S) (here : Progress S) :
    Spends 0 (ChanceGraph.visitChoice source.beside p fresh l here)
      (ChanceGraph.visitChoice source p fresh l here) := by
  refine .get_bind fun C => ?_
  split
  · exact visitFresh l here
  · refine (ofOutcome _).bind fun kept => ?_
    cases kept with
    | none => exact visitFresh l here
    | some old => exact visitKept l old here

theorem visitLeaf (fresh : Bool) (l : Leaf S) (here : Progress S) :
    Spends 0 (ChanceGraph.visitLeaf source.beside p fresh l here)
      (ChanceGraph.visitLeaf source p fresh l here) := by
  unfold ChanceGraph.visitLeaf
  split
  · exact .pure _
  · exact visitChoice fresh l here

/-- However deep the filters are, what they refuse is all that a visit adds to the log. -/
theorem visit (patience : Nat) (n : Node S) (fresh : Bool) (here : Progress S) :
    Spends 0 (visitLogged source patience p n fresh here)
      (ChanceGraph.visit source patience p n fresh here) := by
  induction n generalizing fresh here with
  | leaf l => exact visitLeaf fresh l here
  | weightedMap n project ih => exact (ih _ _).bind fun _ => (ofOutcome _).bind fun _ => .pure _
  | weightedBind n dependent combine ih ih' =>
    exact (ih _ _).bind fun _ => Spends.fresh.bind fun _ => (ih' _ _ _ _).bind fun _ =>
      (ofOutcome _).bind fun _ => .pure _
  | filter n predicate ih => exact retry (ih _ _) patience
  | unknown name => exact .throw _
  | broken fault => exact .throw fault

theorem pickSite (current : Option (ChainState S)) :
    Spends 0 (ChanceGraph.pickSite source.beside current) (ChanceGraph.pickSite source current) := by
  unfold ChanceGraph.pickSite
  split
  · exact .pure _
  · split
    · exact .pure _
    · exact (ofAction _).bind fun _ => (ofOutcome _).bind fun _ => .pure _

theorem decideMove (candidate : ChainState S) (current : Option (ChainState S)) :
    Spends 0 (ChanceGraph.decideMove source.beside candidate current)
      (ChanceGraph.decideMove source candidate current) := by
  unfold ChanceGraph.decideMove
  split
  · exact .pure _
  · exact (ofOutcome _).bind fun _ => (ofAction _).bind fun _ => .pure _

theorem propose (patience : Nat) (root : Node S) (current : Option (ChainState S)) :
    Spends 1 (proposeLogged source patience root current) (ChanceGraph.propose source patience root current) := by
  refine Logs.note_bind (advance ?_) fun _ _ _ _ spent => spent.propose
  exact (pickSite current).bind fun _ => (visit patience root false _).bind fun _ => .pure _

end Spends

/-- A part of a proposal counts no step, and notes whether it fails. -/
structure ChainTally.Tried (started : Nat) (tally : ChainTally S) (new : Log) (r : Outcome S α)
    (tally' : ChainTally S) : Prop where
  steps : tally'.steps = tally.steps
  accepted : tally'.accepted = tally.accepted
  proposed : new.count .proposed = started
  dropped : new.count .dropped = 0
  failed : new.count .failed = if r.isOk then 0 else 1
  generation : tally'.cache.generation = tally.cache.generation + started + new.count .rejected

theorem Spends.tried {started : Nat} {t : Traversal (StateM (Log × σ)) S α} {t' : Traversal (StateM σ) S α}
    (spends : Spends started t t') :
    Logs (ChainTally.Tried started) (noteFailure (ChainStep.ofTraversal t)) (ChainStep.ofTraversal t') := by
  rw [ChainStep.ofTraversal_eq, ChainStep.ofTraversal_eq]
  refine spends.onPart.noteFailure (fun _ new _ _ holds => ?_) fun _ _ _ _ holds => ?_
  · obtain ⟨cache, rfl, spent⟩ := holds
    refine ⟨rfl, rfl, ?_, ?_, ?_, ?_⟩
    · simpa using spent.proposed
    · simpa using spent.dropped
    · simp [spent.failed, Except.isOk, Except.toBool]
    · simpa using spent.generation
  · obtain ⟨cache, rfl, spent⟩ := holds
    exact ⟨rfl, rfl, spent.proposed, spent.dropped, spent.failed, spent.generation⟩

namespace ChainTally

/-- What a step counts: nothing when it fails, else one sample, which the state before it gives again where
nothing is accepted. -/
def Counts (current : Option (ChainState S)) (tally : ChainTally S) (tally' : ChainTally S) :
    Outcome S (ChainState S) → Prop
  | .error _ => tally'.steps = tally.steps ∧ tally'.accepted = tally.accepted
  | .ok state => tally'.steps = tally.steps + 1 ∧ (tally'.accepted = tally.accepted + 1 ∨
    tally'.accepted = tally.accepted ∧ current = some state)

/-- What a step adds to the log while `waiting` proposals have begun: each ends in a sample, is dropped or
fails. -/
structure Proceeds (current : Option (ChainState S)) (waiting : Nat) (tally : ChainTally S) (new : Log)
    (r : Outcome S (ChainState S)) (tally' : ChainTally S) : Prop where
  counts : Counts current tally tally' r
  proposals : waiting + new.count .proposed =
    (if r.isOk then 1 else 0) + new.count .dropped + new.count .failed
  generation : tally'.cache.generation = tally.cache.generation + new.count .proposed + new.count .rejected

variable {current : Option (ChainState S)} {started waiting : Nat} {tally tally₁ tally' : ChainTally S}
  {new new' : Log} {fault : Fault S} {r : Outcome S (ChainState S)}

theorem Tried.proceeds_fail (tried : Tried started tally new (.error fault : Outcome S α) tally')
    (last : waiting + started = 1) : Proceeds current waiting tally new (.error fault) tally' where
  counts := ⟨tried.steps, tried.accepted⟩
  proposals := by
    have failed : new.count .failed = 1 := tried.failed
    simp [tried.proposed, tried.dropped, failed, last, Except.isOk, Except.toBool]
  generation := by rw [tried.generation, tried.proposed]

theorem Tried.proceeds {a : α} (tried : Tried started tally new (.ok a) tally₁)
    (rest : Proceeds current (waiting + started) tally₁ new' r tally') :
    Proceeds current waiting tally (new ++ new') r tally' where
  counts := by
    have counts := rest.counts
    unfold Counts at counts ⊢
    rwa [tried.steps, tried.accepted] at counts
  proposals := by
    have failed : new.count .failed = 0 := tried.failed
    have proposals := rest.proposals
    simp only [List.count_append, tried.proposed, tried.dropped, failed]
    omega
  generation := by
    rw [rest.generation, tried.generation, List.count_append, List.count_append, tried.proposed]
    push_cast
    ring

/-- A candidate that is dropped changes neither count. -/
theorem Proceeds.drop (rest : Proceeds current 0 tally new r tally') :
    Proceeds current 1 tally (.dropped :: new) r tally' where
  counts := rest.counts
  proposals := by
    have proposals := rest.proposals
    simp only [List.count_cons, beq_iff_eq, reduceCtorEq, if_false, if_true]
    omega
  generation := by simpa using rest.generation

theorem Proceeds.bind {t : ChainStep (StateM (Log × σ)) S α} {t' : ChainStep (StateM σ) S α}
    {f : α → ChainStep (StateM (Log × σ)) S (ChainState S)} {f' : α → ChainStep (StateM σ) S (ChainState S)}
    (first : Logs (Tried started) t t') (rest : ∀ a, Logs (Proceeds current 1) (f a) (f' a))
    (one : waiting + started = 1) : Logs (Proceeds current waiting) (t >>= f) (t' >>= f') :=
  Logs.bind first rest (fun _ _ _ _ tried => tried.proceeds_fail one)
    fun _ _ _ _ _ _ _ tried later => tried.proceeds (by rwa [one])

/-- Where a candidate is not accepted, there is a state to stay in. -/
theorem Proceeds.count (candidate : ChainState S) (accept : Bool) :
    Logs (fun tally new r tally' => (current = none → accept = true) → Proceeds current 1 tally new r tally')
      (do
        modify (ChainTally.count accept)
        return if accept then candidate else current.getD candidate : ChainStep (StateM (Log × σ)) S _)
      (do
        modify (ChainTally.count accept)
        return if accept then candidate else current.getD candidate) := by
  refine .silent fun tally w => ⟨_, _, w, fun _ => rfl, rfl, fun first => ?_⟩
  refine ⟨⟨rfl, ?_⟩, rfl, by simp [ChainTally.count]⟩
  cases accept with
  | true => exact .inl rfl
  | false =>
    cases current with
    | none => exact absurd (first rfl) Bool.false_ne_true
    | some state => exact .inr ⟨rfl, rfl⟩

variable [Scalar S] {source : Source (StateM σ) S}

theorem decideMove_first (candidate : ChainState S) (current : Option (ChainState S)) :
    Logs (fun tally new r tally' => Tried 0 tally new r tally' ∧
        ∀ accept, r = .ok accept → current = none → accept = true)
      (noteFailure (ChainStep.ofTraversal (decideMove source.beside candidate current)))
      (ChainStep.ofTraversal (decideMove source candidate current)) := by
  intro tally w
  obtain ⟨new, r, tally', w', run, run', tried⟩ := (Spends.decideMove candidate current).tried tally w
  refine ⟨new, r, tally', w', run, run', tried, fun accept decided first => ?_⟩
  subst decided first
  cases run'
  rfl

/-- A step drops candidates until one is counted or something fails. -/
theorem nextState_proceeds (patience : Nat) (root : Node S) (current : Option (ChainState S)) (left : Nat) :
    Logs (Proceeds current 0) (nextStateLogged source patience root current left)
      (nextState source patience root current left) := by
  -- No proposal waits at the start, and one from the first bind on, until it is dropped, counted or fails.
  induction left with
  | zero => exact .throw fun _ => ⟨⟨rfl, rfl⟩, rfl, by simp⟩
  | succ left ih =>
    refine Proceeds.bind (Spends.propose patience root current).tried (fun candidate => ?_) rfl
    refine Proceeds.bind (Spends.ofOutcome candidate.trace.score).tried (fun score => ?_) rfl
    split
    · exact ih.note_bind fun _ _ _ _ rest => rest.drop
    · refine Logs.bind (Q := fun accept tally new r tally' => (current = none → accept = true) →
          Proceeds current 1 tally new r tally') (decideMove_first candidate current) (fun accept => ?_)
        (fun _ _ _ _ tried => tried.1.proceeds_fail rfl)
        fun _ _ _ _ _ _ _ tried rest => tried.1.proceeds (rest (tried.2 _ rfl))
      exact Proceeds.count candidate accept

end ChainTally

end ChanceGraph
