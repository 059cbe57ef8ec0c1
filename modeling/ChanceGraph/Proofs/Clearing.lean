import ChanceGraph.Session.Caches
import ChanceGraph.Proofs.Lockstep

/-!
A cache is a map that every advance empties.  Its entries are never taken away, but those of past
generations are not seen: whatever is done with it, and whatever was stored before, the results are those of
the map.
-/

set_option autoImplicit false

namespace ChanceGraph

open Session (CacheAction)

variable {S σ τ : Type}

/-- Values of objects, all taken away at once; how often that was done is counted. -/
structure Slate (S : Type) where
  advances : Int
  values : ObjectId → Option (Value S)

namespace Slate

def blank (advances : Int) : Slate S :=
  ⟨advances, fun _ => none⟩

def clear (s : Slate S) : Slate S :=
  blank (s.advances + 1)

def write (s : Slate S) (id : ObjectId) (v : Value S) : Slate S :=
  { s with values := Function.update s.values id (some v) }

/-- What is written for a leaf; else it is drawn from, and what is drawn is written. -/
def sample (source : Source (StateM σ) S) (l : Leaf S) (s : Slate S) : StateM σ (Outcome S (Value S) × Slate S) :=
  match s.values l.id with
  | some v => return (.ok v, s)
  | none => do
    match ← source.draw l with
    | .ok v => return (.ok v, s.write l.id v)
    | .error fault => return (.error fault, s)

def act (source : Source (StateM σ) S) (action : CacheAction S) (s : Slate S) :
    StateM σ (Outcome S (Value S) × Slate S) :=
  match action with
  | .advance => return (.ok (.int s.clear.advances), s.clear)
  | .get id default => return (.ok ((s.values id).getD default), s)
  | .put id v => return (.ok .nothing, s.write id v)
  | .has id => return (.ok (.bool (s.values id).isSome), s)
  | .sample id node => match s.values id, node with
    | some v, _ => return (.ok v, s)
    | none, .leaf l => s.sample source l
    | none, _ => return (.error .noSuchOperation, s)

theorem sample_run (source : Source (StateM σ) S) (l : Leaf S) (s : Slate S) (w : σ) :
    s.sample source l w = match s.values l.id with
      | some v => ((.ok v, s), w)
      | none => match source.draw l w with
        | (.ok v, w') => ((.ok v, s.write l.id v), w')
        | (.error fault, w') => ((.error fault, s), w') := by
  rw [sample]
  cases s.values l.id with
  | some v => rfl
  | none =>
    change (match (source.draw l w).1 with | .ok v => _ | .error fault => _ : StateM σ _) (source.draw l w).2 = _
    rcases source.draw l w with ⟨_ | _, w'⟩ <;> rfl

end Slate

/-- Actions in turn.  A fault of one of them does not keep those after it from being taken. -/
def takeActions (act : CacheAction S → τ → StateM σ (Outcome S (Value S) × τ)) :
    List (CacheAction S) → τ → StateM σ (List (Outcome S (Value S)) × τ)
  | [], s => return ([], s)
  | action :: rest, s => do
    let (result, s) ← act action s
    let (results, s) ← takeActions act rest s
    return (result :: results, s)

theorem takeActions_cons (act : CacheAction S → τ → StateM σ (Outcome S (Value S) × τ)) (action : CacheAction S)
    (rest : List (CacheAction S)) (s : τ) (w : σ) :
    takeActions act (action :: rest) s w =
      let ((result, s), w) := act action s w
      let ((results, s), w) := takeActions act rest s w
      ((result :: results, s), w) := rfl

namespace Cache

variable (source : Source (StateM σ) S) {c : Cache S}

/-- What a cache shows. -/
def slate (c : Cache S) : Slate S :=
  ⟨c.generation, c.get?⟩

theorem slate_empty (generation : Int) : ({ generation } : Cache S).slate = .blank generation :=
  congrArg (Slate.mk generation) (funext (get?_empty generation))

theorem slate_advance (past : c.Past) : c.advance.slate = c.slate.clear :=
  congrArg (Slate.mk (c.generation + 1)) (funext fun id => get?_advance past id)

theorem slate_put (c : Cache S) (id : ObjectId) (v : Value S) : (c.put id v).slate = c.slate.write id v := by
  refine congrArg (Slate.mk c.generation) (funext fun id' => ?_)
  rw [get?_put, Function.update_apply]
  exact if_congr eq_comm rfl rfl

theorem sample_slate (past : c.Past) (l : Leaf S) (w : σ) :
    ∃ r c' w', (Traversal.sample source l).run.run c w = ((r, c'), w') ∧
      c.slate.sample source l w = ((r, c'.slate), w') ∧ c'.Past := by
  have shown : c.slate.values l.id = c.get? l.id := rfl
  rw [ChanceGraph.sample_run, Slate.sample_run, shown]
  cases c.get? l.id with
  | some v => exact ⟨.ok v, c, w, rfl, rfl, past⟩
  | none =>
    rcases source.draw l w with ⟨fault | v, w'⟩
    · exact ⟨.error fault, c, w', rfl, rfl, past⟩
    · exact ⟨.ok v, c.put l.id v, w', rfl, by rw [slate_put], past.put l.id v⟩

/-- Each action has the result that it has on what the cache shows. -/
theorem act_slate (past : c.Past) (action : CacheAction S) (w : σ) :
    ∃ r c' w', action.run source c w = ((r, c'), w') ∧ c.slate.act source action w = ((r, c'.slate), w') ∧
      c'.Past := by
  cases action with
  | advance => exact ⟨_, c.advance, w, rfl, by rw [slate_advance past]; rfl, past.advance⟩
  | get id default => exact ⟨_, c, w, rfl, rfl, past⟩
  | put id v => exact ⟨_, c.put id v, w, rfl, by rw [slate_put]; rfl, past.put id v⟩
  | has id => exact ⟨_, c, w, rfl, rfl, past⟩
  | sample id node =>
    have shown : c.slate.values id = c.get? id := rfl
    simp only [CacheAction.run, Session.sampleNode, Slate.act, shown]
    cases c.get? id with
    | some v => exact ⟨.ok v, c, w, rfl, rfl, past⟩
    | none =>
      cases node with
      | leaf l => exact sample_slate source past l w
      | _ => exact ⟨.error .noSuchOperation, c, w, rfl, rfl, past⟩

theorem takeActions_slate (past : c.Past) (actions : List (CacheAction S)) (w : σ) :
    ∃ results c' w', takeActions (·.run source) actions c w = ((results, c'), w') ∧
      takeActions (fun action s => s.act source action) actions c.slate w = ((results, c'.slate), w') ∧
      c'.Past := by
  induction actions generalizing c w with
  | nil => exact ⟨[], c, w, rfl, rfl, past⟩
  | cons action rest ih =>
    obtain ⟨r, c₁, w₁, run, run', past₁⟩ := act_slate source past action w
    obtain ⟨results, c₂, w₂, runs, runs', past₂⟩ := ih past₁ w₁
    refine ⟨r :: results, c₂, w₂, ?_, ?_, past₂⟩
    · rw [takeActions_cons, run]
      simp only [runs]
    · rw [takeActions_cons, run']
      simp only [runs']

end Cache

section Draws

/-- The same source, which also writes down whose draws deliver a value. -/
def Source.noting (source : Source (StateM σ) S) : Source (StateM (σ × List ObjectId)) S where
  draw l := fun (w, drawn) =>
    let (r, w) := source.draw l w
    (r, w, if r.isOk then drawn ++ [l.id] else drawn)
  uniform := fun (w, drawn) =>
    let (r, w) := source.uniform w
    (r, w, drawn)
  stamp := fun (w, drawn) =>
    let (k, w) := source.stamp w
    (k, w, drawn)

namespace Cache

variable (source : Source (StateM σ) S) {c : Cache S} {drawn : List ObjectId}

/-- No object was drawn from twice, and what was drawn is still shown. -/
structure Holds (c : Cache S) (drawn : List ObjectId) : Prop where
  once : drawn.Nodup
  shown : ∀ id ∈ drawn, c.get? id ≠ none

theorem Holds.put (holds : c.Holds drawn) (id : ObjectId) (v : Value S) : (c.put id v).Holds drawn where
  once := holds.once
  shown id' member := by
    rw [get?_put]
    split_ifs
    · exact Option.some_ne_none v
    · exact holds.shown id' member

theorem Holds.draw (holds : c.Holds drawn) {id : ObjectId} (absent : c.get? id = none) (v : Value S) :
    (c.put id v).Holds (drawn ++ [id]) where
  once := List.nodup_append.mpr ⟨holds.once, List.nodup_singleton id, fun id' member _ single same => by
    rw [same, List.mem_singleton.mp single] at member
    exact holds.shown id member absent⟩
  shown id' member := by
    rcases List.mem_append.mp member with before | new
    · exact (holds.put id v).shown id' before
    · rw [List.mem_singleton.mp new, get?_put_self]
      exact Option.some_ne_none v

/-- Within a generation an object is drawn from only while nothing is shown for it. -/
theorem Holds.act (holds : c.Holds drawn) {action : CacheAction S} (calm : action ≠ .advance) (w : σ) :
    ∃ r c' w' drawn', action.run source.noting c (w, drawn) = ((r, c'), w', drawn') ∧ c'.Holds drawn' := by
  -- Only a draw that succeeds is put down, for a leaf that has no value yet.
  cases action with
  | advance => exact absurd rfl calm
  | get id default => exact ⟨_, c, w, drawn, rfl, holds⟩
  | put id v => exact ⟨_, c.put id v, w, drawn, rfl, holds.put id v⟩
  | has id => exact ⟨_, c, w, drawn, rfl, holds⟩
  | sample id node =>
    simp only [CacheAction.run, Session.sampleNode]
    cases c.get? id with
    | some v => exact ⟨.ok v, c, w, drawn, rfl, holds⟩
    | none =>
      cases node with
      | leaf l =>
        simp only [sample_run, Source.noting]
        cases absent : c.get? l.id with
        | some v => exact ⟨.ok v, c, w, drawn, rfl, holds⟩
        | none =>
          rcases source.draw l w with ⟨fault | v, w'⟩
          · exact ⟨.error fault, c, w', drawn, rfl, holds⟩
          · exact ⟨.ok v, c.put l.id v, w', drawn ++ [l.id], rfl, holds.draw absent v⟩
      | _ => exact ⟨.error .noSuchOperation, c, w, drawn, rfl, holds⟩

theorem Holds.takeActions (holds : c.Holds drawn) {actions : List (CacheAction S)}
    (calm : ∀ action ∈ actions, action ≠ .advance) (w : σ) :
    ∃ results c' w' drawn', ChanceGraph.takeActions (·.run source.noting) actions c (w, drawn) =
      ((results, c'), w', drawn') ∧ c'.Holds drawn' := by
  induction actions generalizing c w drawn with
  | nil => exact ⟨[], c, w, drawn, rfl, holds⟩
  | cons action rest ih =>
    have ⟨first, others⟩ := List.forall_mem_cons.mp calm
    obtain ⟨r, c₁, w₁, drawn₁, run, holds₁⟩ := holds.act source first w
    obtain ⟨results, c₂, w₂, drawn₂, runs, holds₂⟩ := ih holds₁ others w₁
    refine ⟨r :: results, c₂, w₂, drawn₂, ?_, holds₂⟩
    rw [takeActions_cons, run]
    simp only [runs]

end Cache

end Draws

/-- Whatever is done with a cache has the results, and asks for the draws, that it has and asks for on a map
that every advance empties.  Nothing is stored for a generation to come; after an advance all goes on as
with a new cache; and until the next one no object has two draws that deliver a value. -/
theorem cache_clears (source : Source (StateM σ) S) (generation : Int) (actions : List (CacheAction S)) (w : σ) :
    ∃ results c w', takeActions (·.run source) actions { generation } w = ((results, c), w') ∧
      takeActions (fun action s => s.act source action) actions (.blank generation) w = ((results, c.slate), w') ∧
      c.Past ∧
      (∀ later w, ∃ results c₁ c₂ w',
        takeActions (·.run source) later c.advance w = ((results, c₁), w') ∧
        takeActions (·.run source) later { generation := c.generation + 1 } w = ((results, c₂), w')) ∧
      ∀ calm : List (CacheAction S), (∀ action ∈ calm, action ≠ .advance) → ∀ w,
        (takeActions (·.run source.noting) calm c (w, [])).2.2.Nodup := by
  obtain ⟨results, c, w', run, run', past⟩ :=
    Cache.takeActions_slate source (Cache.past_empty generation) actions w
  rw [Cache.slate_empty] at run'
  refine ⟨results, c, w', run, run', past, fun later w => ?_, fun calm still w => ?_⟩
  · -- Both caches show the same: nothing.
    obtain ⟨results₁, c₁, w₁, after, after', -⟩ := Cache.takeActions_slate source past.advance later w
    obtain ⟨results₂, c₂, w₂, anew, anew', -⟩ :=
      Cache.takeActions_slate source (Cache.past_empty (c.generation + 1)) later w
    rw [Cache.slate_advance past] at after'
    rw [Cache.slate_empty] at anew'
    have same : ((results₁, c₁.slate), w₁) = ((results₂, c₂.slate), w₂) := after'.symm.trans anew'
    simp only [Prod.mk.injEq] at same
    obtain ⟨⟨rfl, -⟩, rfl⟩ := same
    exact ⟨results₁, c₁, c₂, w₁, after, anew⟩
  · have start : c.Holds [] := ⟨List.nodup_nil, by simp⟩
    obtain ⟨_, _, _, drawn, calmRun, holds⟩ := start.takeActions source still w
    rw [calmRun]
    exact holds.once

end ChanceGraph
