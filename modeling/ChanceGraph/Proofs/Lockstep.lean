import ChanceGraph.Forward
import ChanceGraph.Random
import ChanceGraph.Proofs.Exact
import ChanceGraph.Proofs.Generations
import ChanceGraph.Proofs.Runs

/-!
A traversal of a chain that keeps nothing of an older trace goes along with the forward traversal: the
same draws in the same order, the same outcome, and caches that differ in point masses only.  It may
stop early, where a leaf has no key or does not score a value.
-/

set_option autoImplicit false

namespace ChanceGraph

variable {S σ : Type}

section Preserves

variable {ε τ α β : Type} {P : σ → Prop}

def Preserves (P : σ → Prop) (t : ExceptT ε (StateT τ (StateM σ)) α) : Prop :=
  ∀ s w, P w → P (t.run.run s w).2

theorem preserves_pure (a : α) : Preserves P (pure a : ExceptT ε (StateT τ (StateM σ)) α) :=
  fun _ _ holds => holds

theorem preserves_throw (e : ε) : Preserves P (throw e : ExceptT ε (StateT τ (StateM σ)) α) :=
  fun _ _ holds => holds

theorem preserves_modify (f : τ → τ) : Preserves P (modify f : ExceptT ε (StateT τ (StateM σ)) PUnit) :=
  fun _ _ holds => holds

theorem Preserves.bind {t : ExceptT ε (StateT τ (StateM σ)) α}
    {f : α → ExceptT ε (StateT τ (StateM σ)) β} (first : Preserves P t) (rest : ∀ a, Preserves P (f a)) :
    Preserves P (t >>= f) := by
  intro s w holds
  have after := first s w holds
  rw [run_bind]
  rcases result : t.run.run s w with ⟨⟨_ | a, s₁⟩, w₁⟩
  · rw [result] at after
    exact after
  · rw [result] at after
    exact rest a s₁ w₁ after

theorem preserves_ofOutcome (r : Outcome S α) :
    Preserves P (Traversal.ofOutcome r : Traversal (StateM σ) S α) :=
  fun _ _ holds => holds

theorem preserves_ofAction {action : StateM σ (Outcome S α)} (keeps : ∀ w, P w → P (action w).2) :
    Preserves P (Traversal.ofAction action : Traversal (StateM σ) S α) :=
  fun _ w holds => keeps w holds

theorem preserves_verdict {again : Traversal (StateM σ) S α} (keeps : Preserves P again) (a : α)
    (accepted : Bool) :
    Preserves P (if accepted then pure a else do
      Traversal.advance
      again) := by
  cases accepted with
  | true => exact preserves_pure a
  | false => exact (preserves_modify _).bind fun _ => keeps

theorem preserves_retry {attempt : Traversal (StateM σ) S α} {accept : α → Outcome S Bool}
    (each : Preserves P attempt) (patience : Nat) :
    Preserves P (Traversal.retry attempt accept patience) := by
  induction patience with
  | zero => exact preserves_throw _
  | succ patience ih => exact each.bind fun a => (preserves_ofOutcome _).bind (preserves_verdict ih a)

end Preserves

section Together

variable {α β α' β' : Type} {bad : σ → Prop}

abbrev Result (S σ α : Type) := (Outcome S α × Cache S) × σ

/-- How two traversals end: both with related results, both with a fault, or the second one alone with a
fault, for a reason that the first one's world shows. -/
inductive Together (bad : σ → Prop) (post : α → β → σ → Cache S → Cache S → Prop) :
    Result S σ α → Result S σ β → Prop where
  | finish {a : α} {b : β} {F C : Cache S} {w : σ} (related : post a b w F C) :
    Together bad post ((.ok a, F), w) ((.ok b, C), w)
  | fail {e e' : Fault S} {F C : Cache S} {w w' : σ} :
    Together bad post ((.error e, F), w) ((.error e', C), w')
  | refuse {r : Result S σ α} {e : Fault S} {C : Cache S} {w : σ} (refused : bad r.2) :
    Together bad post r ((.error e, C), w)

/-- Two traversals that start alike end together. -/
def Lockstep (pre : σ → Cache S → Cache S → Prop) (bad : σ → Prop)
    (post : α → β → σ → Cache S → Cache S → Prop) (t : Traversal (StateM σ) S α)
    (u : Traversal (StateM σ) S β) : Prop :=
  ∀ w F C, pre w F C → Together bad post (t.run.run F w) (u.run.run C w)

namespace Lockstep

variable {pre : σ → Cache S → Cache S → Prop} {post : α → β → σ → Cache S → Cache S → Prop}
  {t : Traversal (StateM σ) S α} {u : Traversal (StateM σ) S β}

theorem bind {mid : α → β → σ → Cache S → Cache S → Prop}
    {post : α' → β' → σ → Cache S → Cache S → Prop} {f : α → Traversal (StateM σ) S α'}
    {g : β → Traversal (StateM σ) S β'} (first : Lockstep pre bad mid t u)
    (rest : ∀ a b, Lockstep (mid a b) bad post (f a) (g b)) (keeps : ∀ a, Preserves bad (f a)) :
    Lockstep pre bad post (t >>= f) (u >>= g) := by
  intro w F C start
  have together := first w F C start
  rw [run_bind, run_bind]
  generalize t.run.run F w = r at together ⊢
  generalize u.run.run C w = r' at together ⊢
  cases together with
  | finish related => exact rest _ _ _ _ _ related
  | fail => exact .fail
  | refuse refused =>
    refine .refuse ?_
    rcases r with ⟨⟨_ | a, F'⟩, w'⟩
    · exact refused
    · exact keeps a F' w' refused

theorem throw (e e' : Fault S) :
    Lockstep pre bad post (throwThe (Fault S) e : Traversal (StateM σ) S α)
      (throwThe (Fault S) e' : Traversal (StateM σ) S β) :=
  fun _ _ _ _ => .fail

theorem ofOutcome {r : Outcome S α} :
    Lockstep pre bad (fun a b w F C => a = b ∧ pre w F C) (Traversal.ofOutcome r)
      (Traversal.ofOutcome r) := by
  intro w F C start
  cases r with
  | error e => exact .fail
  | ok a => exact .finish ⟨rfl, start⟩

theorem ofOutcome_map {r : Outcome S α} {f : α → β}
    (related : ∀ a w F C, pre w F C → post a (f a) w F C) :
    Lockstep pre bad post (Traversal.ofOutcome r) (do return f (← Traversal.ofOutcome r)) := by
  intro w F C start
  cases r with
  | error e => exact .fail
  | ok a => exact .finish (related a w F C start)

end Lockstep

end Together

section Objects

def Leaf.point? (l : Leaf S) : Option (Value S) :=
  match l.distribution with
  | .constant v => some v
  | _ => none

/-- The leaves of a program are objects that there are before it runs, or made by its calls: what a call
makes has the stamp of that call. -/
inductive Node.Over : (Leaf S → Prop) → Node S → Prop where
  | leaf {known : Leaf S → Prop} {l : Leaf S} (object : known l) : Over known (.leaf l)
  | weightedMap {known : Leaf S → Prop} {n : Node S} {project : Value S → Outcome S (Weighted S)}
    (source : Over known n) : Over known (.weightedMap n project)
  | weightedBind {known : Leaf S → Prop} {n : Node S} {dependent : Value S → Nat → Node S}
    {combine : Value S → Value S → Outcome S (Weighted S)} (source : Over known n)
    (made : Value S → Nat → Leaf S → Prop) (own : ∀ v k l, made v k l → l.id.stamp = k)
    (apart : ∀ v k l l', made v k l → made v k l' → l.id = l'.id → l = l')
    (calls : ∀ v k, Over (fun l => known l ∨ made v k l) (dependent v k)) :
    Over known (.weightedBind n dependent combine)
  | filter {known : Leaf S → Prop} {n : Node S} {predicate : Predicate S} (source : Over known n) :
    Over known (.filter n predicate)
  | unknown {known : Leaf S → Prop} {name : String} : Over known (.unknown name)
  | broken {known : Leaf S → Prop} {fault : Fault S} : Over known (.broken fault)

/-- Two caches of which the first may hold point masses, and is otherwise like the second.  Neither
has anything of objects that are still to be made. -/
structure Beside (objects : Leaf S → Prop) (now : Nat) (drift : Int) (F C : Cache S) : Prop where
  apart : ∀ l l', objects l → objects l' → l.id = l'.id → l = l'
  made : ∀ l, objects l → l.id.stamp < now
  unmade : ∀ id : ObjectId, now ≤ id.stamp → F.get? id = none ∧ C.get? id = none
  past : F.Past ∧ C.Past
  generation : F.generation = C.generation + drift
  same : ∀ id, (∀ l, objects l → l.id = id → l.point? = none) → F.get? id = C.get? id
  points : ∀ l v u, objects l → l.point? = some v → F.get? l.id = some u → u = v

namespace Beside

variable {objects : Leaf S → Prop} {now now' : Nat} {drift : Int} {F C : Cache S}

theorem new (apart : ∀ l l', objects l → objects l' → l.id = l'.id → l = l')
    (made : ∀ l, objects l → l.id.stamp < now) : Beside objects now 0 {} {} where
  apart := apart
  made := made
  unmade id _ := ⟨Cache.get?_new id, Cache.get?_new id⟩
  past := ⟨Cache.past_new, Cache.past_new⟩
  generation := rfl
  same _ _ := rfl
  points l v u _ _ held := by simp [Cache.get?_new] at held

theorem same_of_object (beside : Beside objects now drift F C) {l : Leaf S} (object : objects l)
    (indirect : l.point? = none) : F.get? l.id = C.get? l.id := by
  refine beside.same l.id fun l' object' ids => ?_
  rw [beside.apart l' l object' object ids]
  exact indirect

theorem later (beside : Beside objects now drift F C) (later : now ≤ now') :
    Beside objects now' drift F C where
  apart := beside.apart
  made l object := (beside.made l object).trans_le later
  unmade id early := beside.unmade id (later.trans early)
  past := beside.past
  generation := beside.generation
  same := beside.same
  points := beside.points

theorem put (beside : Beside objects now drift F C) {l : Leaf S} (object : objects l)
    (indirect : l.point? = none) (v : Value S) :
    Beside objects now drift (F.put l.id v) (C.put l.id v) where
  apart := beside.apart
  made := beside.made
  unmade id early := by
    have differ : l.id ≠ id := by
      rintro rfl
      exact absurd (beside.made l object) (by omega)
    rw [Cache.get?_put_of_ne differ, Cache.get?_put_of_ne differ]
    exact beside.unmade id early
  past := ⟨beside.past.1.put _ _, beside.past.2.put _ _⟩
  generation := beside.generation
  same id plain := by rw [Cache.get?_put, Cache.get?_put, beside.same id plain]
  points l' u u' object' point held := by
    have differ : l.id ≠ l'.id := by
      intro ids
      rw [← beside.apart l l' object object' ids, indirect] at point
      cases point
    rw [Cache.get?_put_of_ne differ] at held
    exact beside.points l' u u' object' point held

theorem putPoint (beside : Beside objects now drift F C) {l : Leaf S} {v : Value S}
    (object : objects l) (point : l.point? = some v) :
    Beside objects now drift (F.put l.id v) C where
  apart := beside.apart
  made := beside.made
  unmade id early := by
    have differ : l.id ≠ id := by
      rintro rfl
      exact absurd (beside.made l object) (by omega)
    rw [Cache.get?_put_of_ne differ]
    exact beside.unmade id early
  past := ⟨beside.past.1.put _ _, beside.past.2⟩
  generation := beside.generation
  same id plain := by
    have differ : l.id ≠ id := by
      intro ids
      rw [plain l object ids] at point
      cases point
    rw [Cache.get?_put_of_ne differ]
    exact beside.same id plain
  -- Two leaves with one identity are point masses at one value.
  points l' u u' object' point' held := by
    by_cases ids : l.id = l'.id
    · rw [← ids, Cache.get?_put_self] at held
      rw [← beside.apart l l' object object' ids, point] at point'
      cases held
      cases point'
      rfl
    · rw [Cache.get?_put_of_ne ids] at held
      exact beside.points l' u u' object' point' held

theorem advance (beside : Beside objects now drift F C) :
    Beside objects now drift F.advance C.advance where
  apart := beside.apart
  made := beside.made
  unmade id _ := ⟨Cache.get?_advance beside.past.1 id, Cache.get?_advance beside.past.2 id⟩
  past := ⟨beside.past.1.advance, beside.past.2.advance⟩
  generation := by
    have drifted := beside.generation
    simp only [Cache.advance]
    omega
  same id _ := by rw [Cache.get?_advance beside.past.1, Cache.get?_advance beside.past.2]
  points l v u _ _ held := by simp [Cache.get?_advance beside.past.1] at held

theorem stamp (beside : Beside objects now drift F C) {made : Leaf S → Prop} {k : Nat}
    (own : ∀ l, made l → l.id.stamp = k) (apart : ∀ l l', made l → made l' → l.id = l'.id → l = l')
    (new : now ≤ k) (old : k < now') : Beside (fun l => objects l ∨ made l) now' drift F C where
  apart := by
    -- What a call makes is younger than all that there was, so it is nothing that there was.
    have differ {l l' : Leaf S} (object : objects l) (making : made l') : l.id ≠ l'.id := by
      intro ids
      have early := beside.made l object
      rw [ids, own l' making] at early
      omega
    rintro l l' (object | making) (object' | making') ids
    · exact beside.apart l l' object object' ids
    · exact absurd ids (differ object making')
    · exact absurd ids.symm (differ object' making)
    · exact apart l l' making making' ids
  made := by
    rintro l (object | making)
    · have early := beside.made l object
      omega
    · rw [own l making]
      exact old
  unmade id early := beside.unmade id (by omega)
  past := beside.past
  generation := beside.generation
  same id plain := beside.same id fun l object => plain l (.inl object)
  points := by
    rintro l v u (object | making) point held
    · exact beside.points l v u object point held
    · rw [(beside.unmade l.id (by rw [own l making]; exact new)).1] at held
      cases held

end Beside

end Objects

section Account

structure Draw (S : Type) where
  leaf : Leaf S
  value : Value S

/-- The same source, which also writes down what it draws.  A point mass is no draw. -/
def Source.logged (source : Source (StateM σ) S) : Source (StateM (σ × List (Draw S))) S where
  draw l := fun (w, log) =>
    let (r, w) := source.draw l w
    match l.point?, r with
    | none, .ok v => (.ok v, w, log ++ [⟨l, v⟩])
    | _, r => (r, w, log)
  uniform := fun (w, log) =>
    let (r, w) := source.uniform w
    (r, w, log)
  stamp := fun (w, log) =>
    let (k, w) := source.stamp w
    (k, w, log)

/-- What is asked of a source: point masses take nothing from it, and every stamp that it gives is
later than those before. -/
structure Source.Orderly (source : Source (StateM σ) S) (now : σ → Nat) : Prop where
  point : ∀ l v w, l.point? = some v → source.draw l w = (.ok v, w)
  drawn : ∀ l w, now w ≤ now (source.draw l w).2
  stamped : ∀ w, now w ≤ (source.stamp w).1 ∧ (source.stamp w).1 < now (source.stamp w).2

variable {source : Source (StateM σ) S} {now : σ → Nat} {l : Leaf S} {w : σ} {log : List (Draw S)}

theorem Source.Orderly.logged_point (orderly : source.Orderly now) {v : Value S}
    (point : l.point? = some v) : source.logged.draw l (w, log) = (.ok v, w, log) := by
  simp only [logged, orderly.point l v w point]
  rw [point]

theorem Source.logged_draw (indirect : l.point? = none) :
    source.logged.draw l (w, log) = ((source.draw l w).1, (source.draw l w).2,
      match (source.draw l w).1 with
      | .ok v => log ++ [⟨l, v⟩]
      | .error _ => log) := by
  simp only [logged]
  rw [indirect]
  rcases source.draw l w with ⟨_ | v, w'⟩ <;> rfl

theorem Source.logged_extends (source : Source (StateM σ) S) (l : Leaf S) (w : σ) {d : Draw S}
    (member : d ∈ log) : d ∈ (source.logged.draw l (w, log)).2.2 := by
  simp only [logged]
  rcases l.point? with _ | _
  · rcases source.draw l w with ⟨_ | v, w'⟩
    · exact member
    · exact List.mem_append_left _ member
  · exact member

end Account

section Visits

variable [Scalar S] {source : Source (StateM σ) S} {now : σ → Nat} {known : Leaf S → Prop}
  {start : Leaf S → Value S → Prop} {drift : Int} {l : Leaf S} {patience : Nat}

def Leaf.Scores (l : Leaf S) (v : Value S) : Prop :=
  (∃ k, checkedLeafKey l = .ok k) ∧ ∃ score, l.distribution.logDensity v = .ok score

/-- Some value that was held at the start, or drawn since, is one that its leaf does not score. -/
def Unscored (start : Leaf S → Value S → Prop) (w : σ × List (Draw S)) : Prop :=
  ∃ l v, (start l v ∨ ⟨l, v⟩ ∈ w.2) ∧ ¬ l.Scores v

omit [Scalar S] in
theorem ofAction_run {α : Type} (action : StateM σ (Outcome S α)) (cache : Cache S) (w : σ) :
    (Traversal.ofAction action).run.run cache w = (((action w).1, cache), (action w).2) := rfl

omit [Scalar S] in
theorem sample_run (source : Source (StateM σ) S) (l : Leaf S) (cache : Cache S) (w : σ) :
    (Traversal.sample source l).run.run cache w = match cache.get? l.id with
      | some v => ((.ok v, cache), w)
      | none => match source.draw l w with
        | (.ok v, w') => ((.ok v, cache.put l.id v), w')
        | (.error e, w') => ((.error e, cache), w') := by
  refine (congrFun (run_get_bind _ cache) w).trans ?_
  cases cache.get? l.id with
  | some v => rfl
  | none =>
    dsimp only
    rw [run_bind, ofAction_run]
    rcases source.draw l w with ⟨_ | v, w'⟩ <;> rfl

/-- What two traversals that go together have in common between their steps: the objects that there
are by now, among them those that either has drawn. -/
structure Aligned (objects known : Leaf S → Prop) (start : Leaf S → Value S → Prop) (now : σ → Nat)
    (drift : Int) (w : σ × List (Draw S)) (F C : Cache S) : Prop
    extends Beside objects (now w.1) drift F C where
  known : ∀ l, known l → objects l
  drawn : ∀ d ∈ w.2, objects d.leaf
  held : ∀ l v, objects l → l.point? = none → C.get? l.id = some v → start l v ∨ ⟨l, v⟩ ∈ w.2

def Along (known : Leaf S → Prop) (start : Leaf S → Value S → Prop) (now : σ → Nat) (drift : Int)
    (w : σ × List (Draw S)) (F C : Cache S) : Prop :=
  ∃ objects, Aligned objects known start now drift w F C

omit [Scalar S] in
theorem Aligned.put {objects : Leaf S → Prop} {w : σ} {w' : σ} {log : List (Draw S)} {F C : Cache S}
    (aligned : Aligned objects known start now drift (w, log) F C) (object : objects l)
    (indirect : l.point? = none) (v : Value S) (later : now w ≤ now w') :
    Aligned objects known start now drift (w', log ++ [⟨l, v⟩]) (F.put l.id v) (C.put l.id v) where
  toBeside := (aligned.toBeside.later later).put object indirect v
  known := aligned.known
  drawn := List.forall_mem_append.mpr ⟨aligned.drawn, by simpa using object⟩
  held l' u object' indirect' held := by
    by_cases ids : l.id = l'.id
    · obtain rfl := aligned.apart l l' object object' ids
      rw [Cache.get?_put_self] at held
      cases held
      exact .inr (List.mem_append_right _ (List.mem_singleton_self _))
    · rw [Cache.get?_put_of_ne ids] at held
      exact (aligned.held l' u object' indirect' held).imp_right (List.mem_append_left _)

omit [Scalar S] in
theorem Aligned.putPoint {objects : Leaf S → Prop} {w : σ × List (Draw S)} {F C : Cache S} {v : Value S}
    (aligned : Aligned objects known start now drift w F C) (object : objects l)
    (point : l.point? = some v) :
    Aligned objects known start now drift w (F.put l.id v) C where
  toBeside := aligned.toBeside.putPoint object point
  known := aligned.known
  drawn := aligned.drawn
  held := aligned.held

omit [Scalar S] in
theorem Along.advance {w : σ × List (Draw S)} {F C : Cache S}
    (along : Along known start now drift w F C) :
    Along known start now drift w F.advance C.advance := by
  obtain ⟨objects, aligned⟩ := along
  refine ⟨objects, ⟨aligned.toBeside.advance, aligned.known, aligned.drawn, ?_⟩⟩
  intro l v _ _ held
  simp [Cache.get?_advance aligned.past.2] at held

omit [Scalar S] in
theorem sample_lockstep (orderly : source.Orderly now) (object : known l)
    (indirect : l.point? = none) {bad : σ × List (Draw S) → Prop} :
    Lockstep (Along known start now drift) bad
      (fun u v w F C => u = v ∧ (start l v ∨ ⟨l, v⟩ ∈ w.2) ∧ Along known start now drift w F C)
      (Traversal.sample source.logged l) (Traversal.sample source.logged l) := by
  rintro ⟨w, log⟩ F C ⟨objects, aligned⟩
  have object := aligned.known l object
  rw [sample_run, sample_run, aligned.same_of_object object indirect]
  cases held : C.get? l.id with
  | some v => exact .finish ⟨rfl, aligned.held l v object indirect held, objects, aligned⟩
  | none =>
    dsimp only
    rw [Source.logged_draw indirect]
    have later := orderly.drawn l w
    generalize source.draw l w = result at later ⊢
    rcases result with ⟨_ | v, w'⟩
    · exact .fail
    · refine .finish ⟨rfl, ?_, objects, aligned.put object indirect v later⟩
      exact .inr (List.mem_append_right _ (List.mem_singleton_self _))

/-- The chain gives the sample of the forward traversal, unless a leaf does not score what it shows. -/
abbrev Accompanies (known : Leaf S → Prop) (start : Leaf S → Value S → Prop) (now : σ → Nat) (drift : Int)
    (t : Traversal (StateM (σ × List (Draw S))) S (Sample S))
    (u : Traversal (StateM (σ × List (Draw S))) S (Sample S × Progress S)) : Prop :=
  Lockstep (Along known start now drift) (Unscored start)
    (fun a b w F C => a = b.1 ∧ Along known start now drift w F C) t u

theorem recordFresh_lockstep {v : Value S} {here : Progress S} :
    Lockstep (fun w F C => (start l v ∨ ⟨l, v⟩ ∈ w.2) ∧ Along known start now drift w F C)
      (Unscored start) (fun a b w F C => a = b.1 ∧ Along known start now drift w F C)
      (pure (.ofValue v)) (recordFresh l v here) := by
  rintro w F C ⟨seen, along⟩
  unfold recordFresh
  cases scored : l.distribution.logDensity v with
  | ok score => exact .finish ⟨rfl, along⟩
  | error e =>
    -- The forward traversal does not notice; the chain stops here.
    refine .refuse ⟨l, v, seen, ?_⟩
    rintro ⟨-, score, scores⟩
    rw [scored] at scores
    cases scores

theorem visitFresh_lockstep (orderly : source.Orderly now) (object : known l)
    (indirect : l.point? = none) {here : Progress S} :
    Accompanies known start now drift (forward source.logged patience (.leaf l))
      (visitFresh source.logged l here) := by
  refine (sample_lockstep orderly object indirect).bind ?_ fun _ => preserves_pure _
  rintro u v w F C ⟨rfl, rest⟩
  exact recordFresh_lockstep w F C rest

theorem keyless_lockstep (orderly : source.Orderly now) (object : known l)
    (indirect : l.point? = none) {e : Fault S} (keyless : checkedLeafKey l = .error e)
    {post : Sample S → Sample S × Progress S → σ × List (Draw S) → Cache S → Cache S → Prop} :
    Lockstep (Along known start now drift) (Unscored start) post
      (forward source.logged patience (.leaf l)) (throwThe (Fault S) e) := by
  intro w F C along
  have together : Together (fun _ => False) _ ((Traversal.sample source.logged l).run.run F w)
      ((Traversal.sample source.logged l).run.run C w) :=
    sample_lockstep orderly object indirect w F C along
  rw [forward, run_bind]
  generalize (Traversal.sample source.logged l).run.run F w = r at together ⊢
  generalize (Traversal.sample source.logged l).run.run C w = r' at together
  cases together with
  | finish related =>
    -- The forward traversal shows a value here, of a leaf that has no key.
    refine .refuse ⟨l, _, related.1 ▸ related.2.1, ?_⟩
    rintro ⟨⟨k, key⟩, -⟩
    rw [keyless] at key
    cases key
  | fail => exact .fail
  | refuse refused => exact refused.elim

theorem Proposal.kept_of_empty {p : Proposal S} (empty : p.previous = .empty) (address : Address)
    (l : Leaf S) : p.kept address l = (do let _ ← checkedLeafKey l; return none) := by
  unfold Proposal.kept Trace.find?
  rw [empty]
  cases checkedLeafKey l <;> rfl

variable {p : Proposal S} {fresh : Bool} {here : Progress S}

theorem visitChoice_lockstep (orderly : source.Orderly now) (object : known l)
    (indirect : l.point? = none) (anew : fresh = true ∨ p.previous = .empty) :
    Accompanies known start now drift (forward source.logged patience (.leaf l))
      (visitChoice source.logged p fresh l here) := by
  intro w F C along
  rw [visitChoice, run_get_bind]
  split_ifs with again
  · exact visitFresh_lockstep orderly object indirect w F C along
  · have empty := anew.resolve_left fun isFresh => again (by simp [isFresh])
    rw [Proposal.kept_of_empty empty]
    cases keyed : checkedLeafKey l with
    | ok k => exact visitFresh_lockstep orderly object indirect w F C along
    | error e => exact keyless_lockstep orderly object indirect keyed w F C along

theorem visitLeaf_lockstep (orderly : source.Orderly now) (object : known l)
    (anew : fresh = true ∨ p.previous = .empty) :
    Accompanies known start now drift (forward source.logged patience (.leaf l))
      (visitLeaf source.logged p fresh l here) := by
  unfold visitLeaf
  split
  · next v constant =>
    have point : l.point? = some v := by rw [Leaf.point?, constant]
    rintro ⟨w, log⟩ F C ⟨objects, aligned⟩
    have object := aligned.known l object
    rw [forward, run_bind, sample_run]
    cases held : F.get? l.id with
    | some u =>
      obtain rfl := aligned.points l v u object point held
      exact .finish ⟨rfl, objects, aligned⟩
    | none =>
      -- Only the forward traversal puts a point mass into its cache.
      dsimp only
      rw [orderly.logged_point point]
      exact .finish ⟨rfl, objects, aligned.putPoint object point⟩
  · next indirect =>
    refine visitChoice_lockstep orderly object ?_ anew
    cases form : l.distribution <;> simp_all [Leaf.point?]

theorem filter_lockstep {predicate : Predicate S}
    {attempt : Traversal (StateM (σ × List (Draw S))) S (Sample S)}
    {attempt' : Traversal (StateM (σ × List (Draw S))) S (Sample S × Progress S)}
    (each : Accompanies known start now drift attempt attempt')
    (keeps : Preserves (Unscored start) attempt) (patience : Nat) :
    Accompanies known start now drift (Traversal.retry attempt (fun a => predicate a.value) patience)
      (Traversal.retry attempt' (fun a => predicate a.1.value) patience) := by
  induction patience with
  | zero => exact .throw _ _
  | succ patience ih =>
    have again : Preserves (Unscored start)
        (Traversal.retry attempt (fun a => predicate a.value) patience) := preserves_retry keeps patience
    refine each.bind ?_ fun a => (preserves_ofOutcome _).bind (preserves_verdict again a)
    rintro a b w F C ⟨rfl, along⟩
    refine Lockstep.ofOutcome.bind ?_ (preserves_verdict again _) w F C along
    rintro accepted _ w F C ⟨rfl, along⟩
    cases accepted with
    | true => exact .finish ⟨rfl, along⟩
    | false => exact ih w F.advance C.advance along.advance

omit [Scalar S] in
theorem preserves_sample {bad : σ × List (Draw S) → Prop}
    (draw : ∀ l w, bad w → bad (source.logged.draw l w).2) (l : Leaf S) :
    Preserves bad (Traversal.sample source.logged l) := by
  intro cache w holds
  have drawn := draw l w holds
  rw [sample_run]
  cases cache.get? l.id with
  | some v => exact holds
  | none =>
    generalize source.logged.draw l w = result at drawn ⊢
    rcases result with ⟨_ | v, w'⟩ <;> exact drawn

theorem forward_preserves {bad : σ × List (Draw S) → Prop}
    (draw : ∀ l w, bad w → bad (source.logged.draw l w).2)
    (stamp : ∀ w, bad w → bad (source.logged.stamp w).2) (n : Node S) :
    Preserves bad (forward source.logged patience n) := by
  induction n with
  | leaf l => exact (preserves_sample draw l).bind fun _ => preserves_pure _
  | weightedMap n project ih => exact ih.bind fun _ => preserves_ofOutcome _
  | weightedBind n dependent combine ih ihDependent =>
    refine ih.bind fun a => (preserves_ofAction stamp).bind fun k => ?_
    exact (ihDependent a.value k).bind fun _ => preserves_ofOutcome _
  | filter n predicate ih => exact preserves_retry ih patience
  | unknown name => exact preserves_throw _
  | broken fault => exact preserves_throw _

theorem forward_preserves_unscored (source : Source (StateM σ) S) (n : Node S) :
    Preserves (Unscored start) (forward source.logged patience n) := by
  refine forward_preserves (fun l w unscored => ?_) (fun w unscored => unscored) n
  obtain ⟨l', v, seen, unscored⟩ := unscored
  exact ⟨l', v, seen.imp_right (Source.logged_extends source l w.1), unscored⟩

omit [Scalar S] in
theorem fresh_lockstep (orderly : source.Orderly now) {made : Nat → Leaf S → Prop}
    (own : ∀ k l, made k l → l.id.stamp = k)
    (apart : ∀ k l l', made k l → made k l' → l.id = l'.id → l = l')
    {bad : σ × List (Draw S) → Prop} :
    Lockstep (Along known start now drift) bad
      (fun k k' w F C => k = k' ∧ Along (fun l => known l ∨ made k l) start now drift w F C)
      (Traversal.fresh source.logged) (Traversal.fresh source.logged) := by
  rintro ⟨w, log⟩ F C ⟨objects, aligned⟩
  obtain ⟨new, old⟩ := orderly.stamped w
  refine .finish ⟨rfl, fun l => objects l ∨ made (source.stamp w).1 l, ?_⟩
  refine ⟨aligned.toBeside.stamp (own _) (apart _) new old, ?_, ?_, ?_⟩
  · exact fun l object => object.imp_left (aligned.known l)
  · exact fun d member => .inl (aligned.drawn d member)
  · rintro l v (object | making) indirect held
    · exact aligned.held l v object indirect held
    · have absent := (aligned.unmade l.id (by rw [own _ l making]; exact new)).2
      rw [absent] at held
      cases held

theorem visit_lockstep (orderly : source.Orderly now) {n : Node S} (built : n.Over known)
    (anew : fresh = true ∨ p.previous = .empty) :
    Accompanies known start now drift (forward source.logged patience n)
      (visit source.logged patience p n fresh here) := by
  -- What is known grows with every call, so the induction is over what the node is built over.
  induction built generalizing fresh here with
  | leaf object => exact visitLeaf_lockstep orderly object anew
  | weightedMap _ ih =>
    refine (ih anew).bind ?_ fun a => preserves_ofOutcome _
    rintro a ⟨_, there⟩ w F C ⟨rfl, along⟩
    exact Lockstep.ofOutcome_map (fun _ _ _ _ along => ⟨rfl, along⟩) w F C along
  | @weightedBind known n dependent combine _ made own apart _ ih ihCalls =>
    have finishes (a : Sample S) (k : Nat) : Preserves (Unscored start) (do
        let c ← forward source.logged patience (dependent a.value k)
        Traversal.ofOutcome do a.combine c (← combine a.value c.value)) :=
      (forward_preserves_unscored source _).bind fun _ => preserves_ofOutcome _
    have stamped : ∀ w, Unscored start w → Unscored start (source.logged.stamp w).2 :=
      fun _ unscored => unscored
    refine (ih anew).bind ?_ fun a => (preserves_ofAction stamped).bind (finishes a)
    rintro a ⟨_, there⟩ w F C ⟨rfl, along⟩
    refine (fresh_lockstep orderly (own a.value) (apart a.value)).bind ?_ (finishes a) w F C along
    rintro k _ w F C ⟨rfl, along⟩
    refine (ihCalls a.value k anew).bind ?_ (fun _ => preserves_ofOutcome _) w F C along
    rintro c ⟨_, there⟩ w F C ⟨rfl, along⟩
    refine Lockstep.ofOutcome_map (fun _ _ _ _ along => ⟨rfl, ?_⟩) w F C along
    obtain ⟨objects, aligned⟩ := along
    exact ⟨objects, aligned.toBeside, fun l object => aligned.known l (.inl object), aligned.drawn,
      aligned.held⟩
  | filter _ ih => exact filter_lockstep (ih (.inl rfl)) (forward_preserves_unscored source _) patience
  | unknown => exact .throw _ _
  | broken => exact .throw _ _

/-- A traversal that keeps nothing is the forward traversal with a trace: when it completes, the forward
traversal completes after the same draws with the same sample, and the caches agree on all but point
masses; and it completes when the forward traversal does, unless a leaf does not score what it shows. -/
theorem visit_is_forward (orderly : source.Orderly now) {n : Node S} (built : n.Over known)
    (anew : fresh = true ∨ p.previous = .empty) {w : σ} {F C : Cache S}
    (beside : Beside known (now w) drift F C) :
    (∀ a there C' w' log, (visit source.logged patience p n fresh here).run.run C (w, []) =
        ((.ok (a, there), C'), (w', log)) →
      ∃ F', (forward source.logged patience n).run.run F (w, []) = ((.ok a, F'), (w', log)) ∧
        ∃ objects, (∀ l, known l → objects l) ∧ (∀ d ∈ log, objects d.leaf) ∧
          Beside objects (now w') drift F' C') ∧
    ∀ a F' w' log, (forward source.logged patience n).run.run F (w, []) = ((.ok a, F'), (w', log)) →
      (∀ d ∈ log, d.leaf.Scores d.value) →
      (∀ l v, known l → l.point? = none → C.get? l.id = some v → l.Scores v) →
      ∃ there C', (visit source.logged patience p n fresh here).run.run C (w, []) =
          ((.ok (a, there), C'), (w', log)) ∧
        ∃ objects, (∀ l, known l → objects l) ∧ (∀ d ∈ log, objects d.leaf) ∧
          Beside objects (now w') drift F' C' := by
  -- The values that the cache of the chain holds are shown without being drawn.
  let start (l : Leaf S) (v : Value S) : Prop := known l ∧ l.point? = none ∧ C.get? l.id = some v
  have along : Along known start now drift (w, []) F C := by
    refine ⟨known, beside, fun _ object => object, by simp, fun l v object indirect held => ?_⟩
    exact .inl ⟨object, indirect, held⟩
  have together : Together _ _ ((forward source.logged patience n).run.run F (w, []))
      ((visit source.logged patience p n fresh here).run.run C (w, [])) :=
    visit_lockstep orderly built anew _ F C along
  constructor
  · intro a there C' w' log run
    rw [run] at together
    generalize (forward source.logged patience n).run.run F (w, []) = r at together ⊢
    cases together with
    | finish related =>
      obtain ⟨rfl, objects, aligned⟩ := related
      exact ⟨_, rfl, objects, aligned.known, aligned.drawn, aligned.toBeside⟩
  · intro a F' w' log run drawn held
    rw [run] at together
    generalize (visit source.logged patience p n fresh here).run.run C (w, []) = r at together ⊢
    cases together with
    | finish related =>
      obtain ⟨rfl, objects, aligned⟩ := related
      exact ⟨_, _, rfl, objects, aligned.known, aligned.drawn, aligned.toBeside⟩
    | refuse refused =>
      obtain ⟨l, v, ⟨object, indirect, shown⟩ | member, unscored⟩ := refused
      · exact absurd (held l v object indirect shown) unscored
      · exact absurd (drawn _ member) unscored

/-- The first step of a chain is a forward sample. -/
theorem propose_lockstep (orderly : source.Orderly now) {root : Node S} (built : root.Over known) :
    Lockstep (Along known start now drift) (Unscored start)
      (fun a s w F C => a = s.sample ∧ Along known start now drift w F C)
      (nextForward source.logged patience root) (propose source.logged patience root none) := by
  intro w F C along
  have visited : Accompanies known start now drift (forward source.logged patience root)
      (visit source.logged patience ⟨.empty, none⟩ root false ⟨{}, .empty⟩) :=
    visit_lockstep orderly built (.inr rfl)
  have together := visited w F.advance C.advance along.advance
  change Together _ _ ((forward source.logged patience root).run.run F.advance w)
    ((visit source.logged patience ⟨.empty, none⟩ root false ⟨{}, .empty⟩ >>= fun a =>
      pure (ChainState.mk a.2.trace a.1 none)).run.run C.advance w)
  rw [run_bind]
  generalize (forward source.logged patience root).run.run F.advance w = r at together ⊢
  generalize (visit source.logged patience ⟨.empty, none⟩ root false ⟨{}, .empty⟩).run.run
    C.advance w = r' at together ⊢
  cases together with
  | finish related => exact .finish related
  | fail => exact .fail
  | refuse refused => exact .refuse refused

theorem World.source_orderly : (World.source : Source (StateM (World S)) S).Orderly World.stamps where
  point l v w point := by
    cases form : l.distribution with
    | constant u =>
      rw [Leaf.point?, form] at point
      cases point
      change w.draw l = _
      rw [World.draw, form]
    | _ => simp [Leaf.point?, form] at point
  drawn l w := by
    change w.stamps ≤ (w.draw l).2.stamps
    unfold World.draw
    split
    · exact le_rfl
    · have kept : (w.uniforms l.distribution.arity).2.stamps = w.stamps := rfl
      generalize w.uniforms l.distribution.arity = result at kept ⊢
      rcases result with ⟨_ | us, w'⟩ <;> exact kept.ge
  stamped w := ⟨le_rfl, Nat.lt_succ_self _⟩

end Visits

section Example

variable [Scalar S]

def calledFlip : Node S :=
  .filter ((Node.constant ⟨0, 0⟩ (.bool true)).bind
    (fun _ k => .leaf ⟨⟨k, 0⟩, (fairFlip 0).distribution⟩) Node.second) Value.truth

theorem calledFlip_over :
    (calledFlip (S := S)).Over (fun l => l = ⟨⟨0, 0⟩, .constant (.bool true)⟩) := by
  refine .filter (.weightedBind (.leaf rfl) (fun _ k l => l = ⟨⟨k, 0⟩, (fairFlip 0).distribution⟩)
    ?_ ?_ fun v k => .leaf (.inr rfl))
  · rintro v k l rfl
    rfl
  · rintro v k l l' rfl rfl -
    rfl

theorem flip_scores (id : ObjectId) (b : Bool) :
    (⟨id, (fairFlip 0).distribution⟩ : Leaf S).Scores (.bool b) := by
  refine ⟨⟨_, rfl⟩, ?_⟩
  cases b <;> exact ⟨_, rfl⟩

/-- Tosses for all leaves but point masses, and stamps that are counted. -/
def coins : Source (StateM (List Bool × Nat)) S where
  draw l := fun (tosses, stamps) =>
    match l.point?, tosses with
    | some v, _ => (.ok v, tosses, stamps)
    | none, [] => (.error .outOfRandomness, [], stamps)
    | none, toss :: rest => (.ok (.bool toss), rest, stamps)
  uniform := fun world => (.error .outOfRandomness, world)
  stamp := fun (tosses, stamps) => (stamps, tosses, stamps + 1)

omit [Scalar S] in
theorem coins_orderly : (coins (S := S)).Orderly Prod.snd where
  point l v w point := by
    change (match l.point?, w.1 with
      | some v, _ => _
      | none, [] => _
      | none, toss :: rest => _) = _
    rw [point]
  drawn l w := by
    rcases w with ⟨_ | ⟨toss, rest⟩, stamps⟩ <;> cases point : l.point? <;> simp [coins, point]
  stamped w := ⟨le_rfl, Nat.lt_succ_self _⟩

theorem calledFlip_runs : ∃ a F',
    Runs (walk (forwardVisitor coins.logged) coins.logged 2 calledFlip false ⟨{}, .empty⟩) {}
      (([false, true], 1), []) a F' (([], 3),
        [⟨⟨⟨1, 0⟩, (fairFlip 0 : Leaf S).distribution⟩, .bool false⟩,
          ⟨⟨⟨2, 0⟩, (fairFlip 0).distribution⟩, .bool true⟩]) := by
  have past := Cache.past_new (S := S)
  refine ⟨_, _, runs_map (runs_retry_reject
    (runs_weightedBind (runs_leaf (Traversal.runs_sample_absent (Cache.get?_new _) rfl)) rfl
      (runs_leaf (Traversal.runs_sample_absent ?_ rfl)) rfl rfl) rfl
    (runs_retry_accept (runs_weightedBind (runs_leaf (Traversal.runs_sample_absent
      (Cache.get?_advance ((past.put _ _).put _ _) _) rfl)) rfl
      (runs_leaf (Traversal.runs_sample_absent ?_ rfl)) rfl rfl) rfl))⟩
  · rw [Cache.get?_put_of_ne (by simp)]
    exact Cache.get?_new _
  · rw [Cache.get?_put_of_ne (by simp)]
    exact Cache.get?_advance ((past.put _ _).put _ _) _

theorem visit_is_forward_calledFlip : ∃ (log : List (Draw Exact)) (a : Sample Exact) (F' : Cache Exact),
    (forward coins.logged 2 calledFlip).run.run {} (([false, true], 1), []) =
      ((.ok a, F'), (([], 3), log)) ∧ log.length = 2 ∧
    ∃ there C', (visit coins.logged 2 ⟨.empty, none⟩ calledFlip false ⟨{}, .empty⟩).run.run {}
        (([false, true], 1), []) = ((.ok (a, there), C'), (([], 3), log)) ∧
      ∃ objects, (∀ l, l = ⟨⟨0, 0⟩, .constant (.bool true)⟩ → objects l) ∧
        (∀ d ∈ log, objects d.leaf) ∧ Beside objects 3 0 F' C' := by
  obtain ⟨a, F', walked⟩ := calledFlip_runs (S := Exact)
  have run := runs_map (f := Walked.sample) walked
  rw [walk_forward] at run
  refine ⟨_, a.sample, F', run, rfl, ?_⟩
  have beside : Beside (fun l : Leaf Exact => l = ⟨⟨0, 0⟩, .constant (.bool true)⟩) 1 0 {} {} := by
    refine .new ?_ ?_
    · rintro l l' rfl rfl -
      rfl
    · rintro l rfl
      exact Nat.one_pos
  refine (visit_is_forward coins_orderly calledFlip_over (.inr rfl) beside).2 _ _ _ _ run ?_ ?_
  · simp [flip_scores]
  · rintro l v rfl indirect
    cases indirect

end Example

end ChanceGraph
