import ChanceGraph.Session.Samplers
import ChanceGraph.Proofs.Lockstep

/-!
Readers that take turns at one sampler share its cache, and yet none of them sees what another one has
drawn: a step begins a new generation, and what it does depends on the cache only by what the cache shows.
-/

set_option autoImplicit false

namespace ChanceGraph

variable {S σ : Type}

section Agrees

variable {ε τ α β : Type} {P Q : τ → τ → Prop}

/-- From states that are related, at the same world, two runs have the same result and leave the same world,
in states that are related again. -/
def Agrees (P Q : τ → τ → Prop) (t : ExceptT ε (StateT τ (StateM σ)) α) : Prop :=
  ∀ s s' w, P s s' → ∃ r u u' w', t.run.run s w = ((r, u), w') ∧ t.run.run s' w = ((r, u'), w') ∧ Q u u'

namespace Agrees

theorem pure (a : α) : Agrees P P (Pure.pure a : ExceptT ε (StateT τ (StateM σ)) α) :=
  fun s s' w related => ⟨.ok a, s, s', w, rfl, rfl, related⟩

theorem throw (e : ε) : Agrees P P (throwThe ε e : ExceptT ε (StateT τ (StateM σ)) α) :=
  fun s s' w related => ⟨.error e, s, s', w, rfl, rfl, related⟩

theorem modify {f : τ → τ} (keeps : ∀ s s', P s s' → Q (f s) (f s')) :
    Agrees P Q (modify f : ExceptT ε (StateT τ (StateM σ)) PUnit) :=
  fun s s' w related => ⟨.ok ⟨⟩, f s, f s', w, rfl, rfl, keeps s s' related⟩

theorem bind {t : ExceptT ε (StateT τ (StateM σ)) α} {f : α → ExceptT ε (StateT τ (StateM σ)) β}
    (first : Agrees P Q t) (rest : ∀ a, Agrees Q Q (f a)) : Agrees P Q (t >>= f) := by
  intro s s' w related
  obtain ⟨r, u, u', w', run, run', related'⟩ := first s s' w related
  simp only [run_bind, run, run']
  cases r with
  | error e => exact ⟨.error e, u, u', w', rfl, rfl, related'⟩
  | ok a => exact rest a u u' w' related'

/-- A state that is looked at goes on as one that looks the same. -/
theorem get_bind {k : τ → ExceptT ε (StateT τ (StateM σ)) β} (view : ∀ s s', P s s' → k s = k s')
    (each : ∀ s, Agrees P Q (k s)) : Agrees P Q (get >>= k) := by
  intro s s' w related
  obtain ⟨r, u, u', w', run, run', related'⟩ := each s s s' w related
  rw [view s s' related] at run'
  exact ⟨r, u, u', w', (congrFun (run_get_bind k s) w).trans run,
    (congrFun (run_get_bind k s') w).trans run', related'⟩

theorem onPart {υ : Type} {part : υ → τ} {put : υ → τ → υ} {P' Q' : υ → υ → Prop}
    {t : ExceptT ε (StateT τ (StateM σ)) α} (agrees : Agrees P Q t)
    (parts : ∀ v v', P' v v' → P (part v) (part v'))
    (puts : ∀ v v' s s', P' v v' → Q s s' → Q' (put v s) (put v' s')) : Agrees P' Q' (onPart part put t) := by
  intro v v' w related
  obtain ⟨r, s, s', w', run, run', related'⟩ := agrees (part v) (part v') w (parts v v' related)
  exact ⟨r, put v s, put v' s', w', onPart_run run, onPart_run run', puts v v' s s' related related'⟩

end Agrees

end Agrees

section Alike

def Cache.Both (F C : Cache S) : Prop :=
  F.Past ∧ C.Past

/-- Caches that show the same, and will both show nothing in a generation to come. -/
def Cache.Alike (F C : Cache S) : Prop :=
  F.Both C ∧ ∀ id, F.get? id = C.get? id

namespace Agrees

variable {α : Type} {P : Cache S → Cache S → Prop}

theorem ofOutcome (r : Outcome S α) : Agrees P P (Traversal.ofOutcome r : Traversal (StateM σ) S α) :=
  fun F C w related => ⟨r, F, C, w, rfl, rfl, related⟩

theorem ofAction (action : StateM σ (Outcome S α)) :
    Agrees P P (Traversal.ofAction action : Traversal (StateM σ) S α) :=
  fun F C w related =>
    ⟨(action w).1, F, C, (action w).2, ofAction_run action F w, ofAction_run action C w, related⟩

end Agrees

theorem Cache.Alike.put {F C : Cache S} (alike : F.Alike C) (id : ObjectId) (v : Value S) :
    (F.put id v).Alike (C.put id v) :=
  ⟨⟨alike.1.1.put id v, alike.1.2.put id v⟩, fun id' => by rw [get?_put, get?_put, alike.2]⟩

theorem Cache.Both.advance {F C : Cache S} (past : F.Both C) : F.advance.Alike C.advance :=
  ⟨⟨past.1.advance, past.2.advance⟩, fun id => by rw [get?_advance past.1, get?_advance past.2]⟩

theorem Cache.Alike.contains {F C : Cache S} (alike : F.Alike C) (id : ObjectId) :
    F.contains id = C.contains id := by
  rw [Cache.contains, Cache.contains, alike.2]

end Alike

/-- The traversal sees of the cache only what it shows. -/
abbrev Sees {α : Type} (t : Traversal (StateM σ) S α) : Prop :=
  Agrees Cache.Alike Cache.Alike t

section Free

variable [Scalar S] {source : Source (StateM σ) S} {P : Cache S → Cache S → Prop}

theorem Agrees.pickSite (current : Option (ChainState S)) : Agrees P P (ChanceGraph.pickSite source current) := by
  unfold ChanceGraph.pickSite
  split
  · exact .pure _
  · split
    · exact .pure _
    · exact .bind (.ofAction _) fun _ => .bind (.ofOutcome _) fun _ => .pure _

theorem Agrees.decideMove (candidate : ChainState S) (current : Option (ChainState S)) :
    Agrees P P (ChanceGraph.decideMove source candidate current) := by
  unfold ChanceGraph.decideMove
  split
  · exact .pure _
  · exact .bind (.ofOutcome _) fun _ => .bind (.ofAction _) fun _ => .pure _

end Free

namespace Sees

variable {α β : Type} {source : Source (StateM σ) S}

theorem put (id : ObjectId) (v : Value S) :
    Sees (modify (·.put id v) : Traversal (StateM σ) S PUnit) :=
  .modify fun _ _ alike => alike.put id v

theorem advance : Agrees Cache.Both Cache.Alike (Traversal.advance : Traversal (StateM σ) S Unit) :=
  .modify fun _ _ past => past.advance

theorem sample (l : Leaf S) : Sees (Traversal.sample source l) := by
  refine .get_bind (fun F C alike => by rw [alike.2]) fun F => ?_
  cases F.get? l.id with
  | some v => exact .pure v
  | none => exact Agrees.bind (.ofAction _) fun v => (put l.id v).bind fun _ => .pure v

theorem retry {attempt : Traversal (StateM σ) S α} {accept : α → Outcome S Bool}
    (each : Sees attempt) (patience : Nat) : Sees (Traversal.retry attempt accept patience) := by
  induction patience with
  | zero => exact .throw _
  | succ patience ih =>
    refine each.bind fun a => Agrees.bind (.ofOutcome _) fun accepted => ?_
    cases accepted with
    | true => exact .pure a
    | false => exact Agrees.bind (fun F C w alike => advance F C w alike.1) fun _ => ih

variable [Scalar S]

theorem forward (patience : Nat) (n : Node S) : Sees (ChanceGraph.forward source patience n) := by
  induction n with
  | leaf l => exact (sample l).bind fun v => .pure _
  | weightedMap n project ih => exact ih.bind fun a => .ofOutcome _
  | weightedBind n dependent combine ih ih' =>
    exact ih.bind fun a => Agrees.bind (.ofAction _) fun stamp => (ih' a.value stamp).bind fun c => .ofOutcome _
  | filter n predicate ih => exact retry ih patience
  | unknown name => exact .throw _
  | broken fault => exact .throw fault

variable {p : Proposal S}

theorem visitFresh (l : Leaf S) (here : Progress S) : Sees (ChanceGraph.visitFresh source l here) :=
  (sample l).bind fun _ => Agrees.bind (.ofOutcome _) fun _ => .pure _

theorem visitKept (l : Leaf S) (old : Choice S) (here : Progress S) :
    Sees (ChanceGraph.visitKept l old here : Traversal (StateM σ) S _) :=
  (put l.id old.value).bind fun _ => .pure _

theorem visitChoice (fresh : Bool) (l : Leaf S) (here : Progress S) :
    Sees (ChanceGraph.visitChoice source p fresh l here) := by
  refine .get_bind (fun F C alike => by rw [alike.contains]) fun F => ?_
  split
  · exact visitFresh l here
  · refine Agrees.bind (.ofOutcome _) fun kept => ?_
    cases kept with
    | none => exact visitFresh l here
    | some old => exact visitKept l old here

theorem visitLeaf (fresh : Bool) (l : Leaf S) (here : Progress S) :
    Sees (ChanceGraph.visitLeaf source p fresh l here) := by
  unfold ChanceGraph.visitLeaf
  split
  · exact .pure _
  · exact visitChoice fresh l here

theorem visit (patience : Nat) (n : Node S) (fresh : Bool) (here : Progress S) :
    Sees (ChanceGraph.visit source patience p n fresh here) := by
  induction n generalizing fresh here with
  | leaf l => exact visitLeaf fresh l here
  | weightedMap n project ih => exact (ih _ _).bind fun _ => Agrees.bind (.ofOutcome _) fun _ => .pure _
  | weightedBind n dependent combine ih ih' =>
    exact (ih _ _).bind fun _ => Agrees.bind (.ofAction _) fun _ => (ih' _ _ _ _).bind fun _ =>
      Agrees.bind (.ofOutcome _) fun _ => .pure _
  | filter n predicate ih => exact retry (ih _ _) patience
  | unknown name => exact .throw _
  | broken fault => exact .throw fault

theorem nextForward (patience : Nat) (root : Node S) :
    Agrees Cache.Both Cache.Alike (ChanceGraph.nextForward source patience root) :=
  advance.bind fun _ => forward patience root

theorem propose (patience : Nat) (root : Node S) (current : Option (ChainState S)) :
    Agrees Cache.Both Cache.Alike (ChanceGraph.propose source patience root current) :=
  advance.bind fun _ => (Agrees.pickSite current).bind fun _ =>
    (visit patience root false _).bind fun _ => .pure _

end Sees

section Steps

variable {α : Type} {source : Source (StateM σ) S} {P Q : Cache S → Cache S → Prop}

def ChainTally.On (P : Cache S → Cache S → Prop) (t t' : ChainTally S) : Prop :=
  P t.cache t'.cache

theorem Agrees.ofTraversal {t : Traversal (StateM σ) S α} (agrees : Agrees P Q t) :
    Agrees (ChainTally.On P) (ChainTally.On Q) (ChainStep.ofTraversal t) := by
  rw [ChainStep.ofTraversal_eq]
  exact agrees.onPart (fun _ _ related => related) fun _ _ _ _ _ related => related

/-- The same place in two samplers. -/
def Reading.Beside (P : Cache S → Cache S → Prop) (r r' : Reading S) : Prop :=
  r.current = r'.current ∧ r.tally.On P r'.tally

theorem Agrees.ofChain {step : ChainStep (StateM σ) S α}
    (agrees : Agrees (ChainTally.On P) (ChainTally.On Q) step) :
    Agrees (Reading.Beside P) (Reading.Beside Q) (Reader.ofChain step) := by
  rw [Reader.ofChain_eq]
  exact agrees.onPart (fun _ _ beside => beside.2) fun _ _ _ _ beside related => ⟨beside.1, related⟩

variable [Scalar S]

/-- Where at least one candidate is proposed, a generation has begun that shows nothing older. -/
theorem Agrees.nextState_succ {patience left : Nat} {root : Node S} {current : Option (ChainState S)}
    (rest : Agrees (ChainTally.On Cache.Alike) (ChainTally.On Cache.Alike)
      (ChanceGraph.nextState source patience root current left)) :
    Agrees (ChainTally.On Cache.Both) (ChainTally.On Cache.Alike)
      (ChanceGraph.nextState source patience root current (left + 1)) := by
  refine (Sees.propose patience root current).ofTraversal.bind fun candidate =>
    (Agrees.ofOutcome _).ofTraversal.bind fun score => ?_
  split
  · exact rest
  · refine (Agrees.decideMove candidate current).ofTraversal.bind fun accept => ?_
    exact .bind (.modify fun _ _ related => related) fun _ => .pure _

theorem Agrees.nextState (patience : Nat) (root : Node S) (current : Option (ChainState S)) (left : Nat) :
    Agrees (ChainTally.On Cache.Alike) (ChainTally.On Cache.Alike)
      (ChanceGraph.nextState source patience root current left) := by
  induction left with
  | zero => exact .throw _
  | succ left ih => exact fun t t' w alike => ih.nextState_succ t t' w alike.1

theorem Agrees.nextState_pos {patience left : Nat} (positive : 0 < left) (root : Node S)
    (current : Option (ChainState S)) : Agrees (ChainTally.On Cache.Both) (ChainTally.On Cache.Alike)
      (ChanceGraph.nextState source patience root current left) := by
  cases left with
  | zero => exact absurd positive (lt_irrefl 0)
  | succ left => exact (Agrees.nextState patience root current left).nextState_succ

/-- A step does the same in a sampler that has been read as in one that has not. -/
theorem Agrees.next {patience : Nat} (positive : 0 < patience) (strategy : Strategy) (root : Node S) :
    Agrees (Reading.Beside Cache.Both) (Reading.Beside Cache.Alike)
      (Reader.next source patience strategy root) := by
  cases strategy with
  | forward => exact (Sees.nextForward patience root).ofTraversal.ofChain
  | markov =>
    refine .get_bind (fun r r' beside => by rw [beside.1]) fun r => ?_
    refine (Agrees.nextState_pos positive root r.current).ofChain.bind fun state => ?_
    exact .bind (.modify fun _ _ beside => ⟨rfl, beside.2⟩) fun _ => .pure _

end Steps

namespace Session

variable [Scalar S] {s : Session S} {r : ReaderObject S} {i : Nat}

/-- No sampler has anything stored for a generation to come. -/
def Past (s : Session S) : Prop :=
  ∀ sampler ∈ s.samplers, sampler.tally.cache.Past

/-- The session with a new sampler in the place of one that may have been read. -/
def renew (i : Nat) (s : Session S) : Session S :=
  { s with samplers := s.samplers.modify i ({ · with tally := {} }) }

/-- What is left of a session when a sampler has been read. -/
def after (i : Nat) (s : Session S) (world : World S) (tally : ChainTally S) : Session S :=
  { s with world, samplers := s.samplers.modify i ({ · with tally }) }

/-- What a sampler's cache shows of an object. -/
def shows (s : Session S) (i : Nat) (id : ObjectId) : Option (Value S) :=
  s.samplers[i]?.bind fun sampler => sampler.tally.cache.get? id

def pulled (tally : ChainTally S) (sample : Sample S) : Pulled S :=
  ⟨sample, tally.steps, tally.accepted, tally.cache.generation⟩

theorem pull_finished (finished : r.finished = true) : (pull r).run s = (.ok (.error .finished, r), s) := by
  rw [pull, if_pos finished]
  rfl

omit [Scalar S] in
theorem run_bind {α β : Type} (t : SessionM S α) (f : α → SessionM S β) (s : Session S) :
    (t >>= f).run s = match t.run s with
      | (.ok a, s₁) => (f a).run s₁
      | (.error e, s₁) => (.error e, s₁) := by
  change (match t.run s with | (x, s₁) => ExceptT.bindCont f x s₁) = _
  rcases t.run s with ⟨_ | a, s₁⟩ <;> rfl

omit [Scalar S] in
theorem run_samplerAt {sampler : SamplerObject S} (opened : s.samplers[i]? = some sampler) :
    (samplerAt i).run s = (.ok sampler, s) := by
  have read : (get : SessionM S (Session S)).run s = (.ok s, s) := rfl
  rw [samplerAt, run_bind, read]
  simp only [opened]
  rfl

theorem pull_run {sampler : SamplerObject S} {result : Outcome S (Sample S)} {reading : Reading S}
    {world : World S} (unfinished : r.finished = false) (opened : s.samplers[r.sampler]? = some sampler)
    (ran : (reader sampler).run.run ⟨sampler.tally, r.current⟩ s.world = ((result, reading), world)) :
    (pull r).run s = (.ok (result.map (pulled reading.tally),
      { r with current := reading.current, finished := !result.isOk }),
      s.after r.sampler world reading.tally) := by
  have read : (onWorld do
      return .ok (← (reader sampler).run.run ⟨sampler.tally, r.current⟩) : SessionM S _).run s =
        (.ok (result, reading), { s with world }) := by
    change (match (reader sampler).run.run ⟨sampler.tally, r.current⟩ s.world with
      | (x, world) => (Except.ok x, { s with world })) = _
    rw [ran]
  rw [pull, if_neg (by simp [unfinished]), run_bind, run_samplerAt opened]
  change (onWorld _ >>= _).run s = _
  rw [run_bind, read]
  rfl

omit [Scalar S] in
theorem Past.after (past : s.Past) {world : World S} {tally : ChainTally S} (kept : tally.cache.Past) :
    (s.after i world tally).Past := by
  intro sampler listed
  obtain ⟨j, found⟩ := Array.getElem?_of_mem listed
  simp only [Session.after, Array.getElem?_modify] at found
  split at found
  · obtain ⟨old, -, rfl⟩ := Option.map_eq_some_iff.mp found
    exact kept
  · exact past sampler (Array.mem_of_getElem? found)

/-- What a reader gets is what it would get from a new sampler, and the sampler stays as good as new. -/
theorem pull_undisturbed (past : s.Past) (opened : r.sampler < s.samplers.size) :
    ∃ got fresh next s₁ s₂, (pull r).run s = (.ok (got, next), s₁) ∧
      (pull r).run (s.renew r.sampler) = (.ok (fresh, next), s₂) ∧
      fresh.map (·.sample) = got.map (·.sample) ∧ s₂.world = s₁.world ∧
      (r.finished = false → ∀ id, s₁.shows r.sampler id = s₂.shows r.sampler id) ∧
      next.sampler = r.sampler ∧ s₁.samplers.size = s.samplers.size ∧ s₁.Past := by
  cases finished : r.finished with
  | true =>
    exact ⟨_, _, r, s, s.renew r.sampler, pull_finished finished, pull_finished finished, rfl, rfl, nofun, rfl,
      rfl, past⟩
  | false =>
    obtain ⟨sampler, listed⟩ : ∃ sampler, s.samplers[r.sampler]? = some sampler :=
      ⟨_, Array.getElem?_eq_getElem opened⟩
    have renewed : (s.renew r.sampler).samplers[r.sampler]? = some { sampler with tally := {} } := by
      simp [renew, Array.getElem?_modify, listed]
    -- A new tally has nothing stored; the old one has nothing for a generation to come.
    have beside : Reading.Beside Cache.Both ⟨sampler.tally, r.current⟩ ⟨{}, r.current⟩ :=
      ⟨rfl, past sampler (Array.mem_of_getElem? listed), Cache.past_new⟩
    have agrees : Agrees (Reading.Beside Cache.Both) (Reading.Beside Cache.Alike) (reader sampler) :=
      .next (by decide) _ _
    obtain ⟨result, ⟨tally, current⟩, ⟨tally', current'⟩, world, run, run', same, kept, alike⟩ :=
      agrees _ _ s.world beside
    change current = current' at same
    subst same
    have ran := pull_run finished listed run
    have ran' := pull_run finished renewed run'
    refine ⟨_, _, _, _, _, ran, ran', ?_, rfl, fun _ id => ?_, rfl, by simp [after], past.after kept.1⟩
    · cases result <;> rfl
    · simpa [shows, after, Array.getElem?_modify, listed, renewed] using alike id

/-- Readers that are numbered take turns, each with one sample. -/
def turns (readers : Nat → ReaderObject S) : List Nat → SessionM S (Nat → ReaderObject S)
  | [] => return readers
  | i :: rest => do
    let (_, next) ← pull (readers i)
    turns (Function.update readers i next) rest

theorem turns_past (readers : Nat → ReaderObject S) (past : s.Past)
    (opened : ∀ i, (readers i).sampler < s.samplers.size) (schedule : List Nat) :
    ∃ readers' s', (turns readers schedule).run s = (.ok readers', s') ∧ s'.Past ∧
      ∀ i, (readers' i).sampler < s'.samplers.size := by
  induction schedule generalizing readers s with
  | nil => exact ⟨readers, s, rfl, past, opened⟩
  | cons i rest ih =>
    obtain ⟨got, -, next, s₁, -, ran, -, -, -, -, same, size, past'⟩ := pull_undisturbed past (opened i)
    have opened' (j : Nat) : (Function.update readers i next j).sampler < s₁.samplers.size := by
      rw [size]
      by_cases here : j = i
      · subst here
        simpa [same] using opened j
      · simpa [here] using opened j
    obtain ⟨readers', s', later, past', opened'⟩ := ih _ past' opened'
    refine ⟨readers', s', ?_, past', opened'⟩
    rw [turns, run_bind, ran]
    exact later

/-- Whatever turns were taken before, and however they ended, the next reader gets what it would get if its
sampler were new, from the state that it is in and from the same draws, and goes on to the same state.  In the
generation that its step begins the cache shows nothing of what was drawn before, and when the step has ended
it shows what this step has stored, as the cache of the new sampler does. -/
theorem turns_undisturbed (readers : Nat → ReaderObject S) (past : s.Past)
    (opened : ∀ i, (readers i).sampler < s.samplers.size) (before : List Nat) (i : Nat) :
    ∃ readers' s', (turns readers before).run s = (.ok readers', s') ∧
      (∀ sampler ∈ s'.samplers, ∀ id, sampler.tally.cache.advance.get? id = none) ∧
      ∃ got fresh next s₁ s₂, (pull (readers' i)).run s' = (.ok (got, next), s₁) ∧
        (pull (readers' i)).run (s'.renew (readers' i).sampler) = (.ok (fresh, next), s₂) ∧
        fresh.map (·.sample) = got.map (·.sample) ∧ s₂.world = s₁.world ∧
        ((readers' i).finished = false →
          ∀ id, s₁.shows (readers' i).sampler id = s₂.shows (readers' i).sampler id) := by
  obtain ⟨readers', s', ran, past', opened'⟩ := turns_past readers past opened before
  obtain ⟨got, fresh, next, s₁, s₂, run, run', same, world, shows, -⟩ := pull_undisturbed past' (opened' i)
  exact ⟨readers', s', ran, fun sampler listed => Cache.get?_advance (past' sampler listed),
    got, fresh, next, s₁, s₂, run, run', same, world, shows⟩

/-- Lets heads through and fails at tails. -/
def headsOnly : Value Exact → Outcome Exact (Value Exact)
  | .bool true => .ok (.bool true)
  | _ => .error .wrongType

/-- A session that tosses with the two numbers. -/
noncomputable def tossing (u v : ℝ) : Session Exact :=
  { Session.start { given := [.finite u, .finite v] } with
    samplers := #[{ strategy := .forward, root := Node.map (.leaf (fairFlip 0)) headsOnly }] }

section Tails

variable {u v : ℝ} (high : 1 / 2 ≤ u)

include high

theorem draw_tossing :
    ∃ world, World.source.draw (fairFlip 0) (tossing u v).world = (.ok (.bool false), world) := by
  have value : (World.source.draw (fairFlip 0) (tossing u v).world).1 =
      .ok (.bool ((Number.real (Exact.finite u)).lt (.real (Scalar.ratio 1 2)))) := rfl
  have tails : (Number.real (Exact.finite u)).lt (.real (Scalar.ratio 1 2)) = false := by
    simpa [Number.lt] using high
  rw [tails] at value
  exact ⟨_, Prod.ext value rfl⟩

theorem nextForward_tossing : ∃ world,
    (nextForward World.source patience (.map (.leaf (fairFlip 0)) headsOnly)).run.run {} (tossing u v).world =
      ((.error .wrongType, (Cache.advance {}).put ⟨0, 0⟩ (.bool false)), world) := by
  obtain ⟨world, drawn⟩ := draw_tossing high
  have tails : (forward World.source patience (.leaf (fairFlip 0))).run.run (Cache.advance {})
      (tossing u v).world =
        ((.ok (.ofValue (.bool false)), (Cache.advance {}).put ⟨0, 0⟩ (.bool false)), world) := by
    rw [forward, ChanceGraph.run_bind, sample_run, Cache.get?_advance Cache.past_new, drawn]
    rfl
  refine ⟨world, (ChanceGraph.run_bind _ _ _ _).trans ?_⟩
  change (forward World.source patience _).run.run (Cache.advance {}) (tossing u v).world = _
  rw [Node.map, forward, ChanceGraph.run_bind, tails]
  rfl

theorem pull_tossing : ∃ s', (pull { sampler := 0 }).run (tossing u v) =
    (.ok (.error .wrongType, { sampler := 0, finished := true }), s') ∧
      s'.shows 0 ⟨0, 0⟩ = some (.bool false) := by
  obtain ⟨world, stopped⟩ := nextForward_tossing high
  have ran : (reader ⟨.forward, .map (.leaf (fairFlip 0)) headsOnly, {}⟩).run.run {} (tossing u v).world =
      ((.error .wrongType, ⟨⟨(Cache.advance {}).put ⟨0, 0⟩ (.bool false), 0, 0⟩, none⟩), world) := by
    rw [reader, Reader.next_forward]
    exact onPart_run (onPart_run stopped)
  refine ⟨_, pull_run (r := { sampler := 0 }) rfl rfl ran, ?_⟩
  simp [shows, after, tossing, Cache.get?_put_self]

end Tails

/-- The first reader fails at tails, and the value that it has drawn stays behind. -/
theorem turns_undisturbed_tossing : ∃ readers' s',
    (turns (fun _ => { sampler := 0 }) [0]).run (tossing (3 / 4) (1 / 4)) = (.ok readers', s') ∧
      (readers' 0).finished = true ∧ s'.shows 0 ⟨0, 0⟩ = some (.bool false) ∧
      ∃ got fresh next s₁ s₂, (pull (readers' 1)).run s' = (.ok (got, next), s₁) ∧
        (pull (readers' 1)).run (s'.renew 0) = (.ok (fresh, next), s₂) ∧
        fresh.map (·.sample) = got.map (·.sample) ∧ s₂.world = s₁.world := by
  have past : (tossing (3 / 4) (1 / 4)).Past := by
    simp [Past, tossing, Cache.past_new]
  obtain ⟨readers', s', ran, -, got, fresh, next, s₁, s₂, run, run', same, world, -⟩ :=
    turns_undisturbed (fun _ => { sampler := 0 }) past (fun _ => by simp [tossing]) [0] 1
  obtain ⟨s'', failed, left⟩ := pull_tossing (u := 3 / 4) (v := 1 / 4) (by norm_num)
  have first := ran
  rw [turns, run_bind, failed] at first
  cases first
  exact ⟨_, _, ran, by simp, left, got, fresh, next, s₁, s₂, run, by simpa using run', same, world⟩

end Session

end ChanceGraph
