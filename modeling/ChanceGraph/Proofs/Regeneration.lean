import ChanceGraph.Proofs.Candidates
import ChanceGraph.Proofs.Lockstep

/-!
Where the values of a candidate come from: drawn for it, or carried over from the trace before it.  The visits
to one object in one generation have one origin, that of the first of them.  The very object that was picked
is never kept; an object made in its place may have been kept at an earlier visit, and then the site shows a
value that nobody has drawn.
-/

set_option autoImplicit false

namespace ChanceGraph

variable {S σ : Type}

/-- A visit to a leaf that is no point mass, and the record that it leaves. -/
structure Entry (S : Type) where
  visit : Visit S
  choice : Choice S

namespace Entry

/-- The cache takes the leaves of the two visits for one. -/
def SameObject (d e : Entry S) : Prop :=
  d.choice.leaf.id = e.choice.leaf.id ∧ d.visit.generation = e.visit.generation

/-- The value is that of a visit to the same object which drew it. -/
def Drawn (entries : List (Entry S)) (drawn : List (Draw S)) (e : Entry S) : Prop :=
  ∃ d ∈ entries, d.SameObject e ∧ d.visit.held = false ∧ d.choice.reused = false ∧
    d.choice.value = e.choice.value ∧ ⟨d.choice.leaf, d.choice.value⟩ ∈ drawn

/-- The value is that of a visit to the same object which kept it from the old trace. -/
def Carried (entries : List (Entry S)) (old : Trace S) (e : Entry S) : Prop :=
  ∃ d ∈ entries, d.SameObject e ∧ d.choice.reused = true ∧ d.choice.value = e.choice.value ∧
    ∃ c ∈ old.choices, c.address = d.choice.address ∧ c.value = d.choice.value

end Entry

section Logged

variable {source : Source (StateM σ) S} {cache cache' : Cache S} {w w' : σ} {log log' : List (Draw S)}

theorem runs_fresh_logged {stamp : Nat}
    (run : Runs (Traversal.fresh source.logged) cache (w, log) stamp cache' (w', log')) :
    cache' = cache ∧ log' = log := by
  obtain ⟨stamped, rfl⟩ := Traversal.runs_ofAction.mp run
  cases stamped
  exact ⟨rfl, rfl⟩

theorem runs_sample_logged {l : Leaf S} {v : Value S} (indirect : l.point? = none)
    (run : Runs (Traversal.sample source.logged l) cache (w, log) v cache' (w', log')) :
    (cache.get? l.id = some v ∧ cache' = cache ∧ log' = log) ∨
      (cache.get? l.id = none ∧ cache' = cache.put l.id v ∧ log' = log ++ [⟨l, v⟩]) := by
  replace run := run.of_get_bind
  cases known : cache.get? l.id with
  | some u =>
    rw [known] at run
    obtain ⟨rfl, rfl, same⟩ := runs_pure.mp run
    cases same
    exact .inl ⟨rfl, rfl, rfl⟩
  | none =>
    rw [known] at run
    obtain ⟨u, _, _, action, rest⟩ := runs_bind.mp run
    obtain ⟨drawn, rfl⟩ := Traversal.runs_ofAction.mp action
    obtain ⟨_, _, _, put, last⟩ := runs_bind.mp rest
    obtain ⟨rfl, rfl⟩ := runs_modify.mp put
    obtain ⟨rfl, rfl, same⟩ := runs_pure.mp last
    cases same
    rw [Source.logged_draw indirect] at drawn
    obtain ⟨value, worlds⟩ := Prod.mk.inj drawn
    rw [value] at worlds
    exact .inr ⟨rfl, rfl, (Prod.mk.inj worlds).2.symm⟩

end Logged

section Generations

variable {entries attempt : List (Entry S)} {e : Entry S} {cache cache' : Cache S}

/-- The cache shows what the visits of this generation have obtained. -/
structure Current (cache : Cache S) (entries : List (Entry S)) : Prop where
  past : cache.Past
  bounded : ∀ e ∈ entries, e.visit.generation ≤ cache.generation
  shown : ∀ id v, cache.get? id = some v → ∃ d ∈ entries, d.choice.leaf.id = id ∧
    d.visit.generation = cache.generation ∧ d.visit.held = false ∧ d.choice.value = v
  seen : ∀ e ∈ entries, e.visit.generation = cache.generation → cache.get? e.choice.leaf.id ≠ none

theorem Current.start (past : cache.Past) : Current cache.advance ([] : List (Entry S)) :=
  { past := past.advance
    bounded := by simp
    shown := fun id v shows => by simp [Cache.get?_advance past] at shows
    seen := by simp }

theorem Current.hold (current : Current cache entries) (now : e.visit.generation = cache.generation)
    (held : cache.get? e.choice.leaf.id = some e.choice.value) : Current cache (entries ++ [e]) where
  past := current.past
  bounded := List.forall_mem_append.mpr ⟨current.bounded, by simp [now]⟩
  shown id v shows := by
    obtain ⟨d, listed, first⟩ := current.shown id v shows
    exact ⟨d, List.mem_append_left _ listed, first⟩
  seen := List.forall_mem_append.mpr ⟨current.seen, by simp [held]⟩

theorem Current.obtain (current : Current cache entries) (now : e.visit.generation = cache.generation)
    (first : e.visit.held = false) (puts : cache' = cache.put e.choice.leaf.id e.choice.value) :
    Current cache' (entries ++ [e]) where
  past := puts ▸ current.past.put _ _
  bounded := List.forall_mem_append.mpr ⟨puts ▸ current.bounded, by simp [puts, now, Cache.put]⟩
  shown id v shows := by
    subst puts
    by_cases same : e.choice.leaf.id = id
    · rw [← same, Cache.get?_put_self] at shows
      exact ⟨e, by simp, same, now, first, Option.some.inj shows⟩
    · rw [Cache.get?_put_of_ne same] at shows
      obtain ⟨d, listed, earlier⟩ := current.shown id v shows
      exact ⟨d, List.mem_append_left _ listed, earlier⟩
  seen := by
    subst puts
    refine List.forall_mem_append.mpr ⟨fun d member generation => ?_, by simp [Cache.get?_put_self]⟩
    rw [Cache.get?_put]
    split_ifs
    · exact Option.some_ne_none _
    · exact current.seen d member generation

theorem Current.discard (current : Current cache (entries ++ attempt)) : Current cache.advance entries where
  past := current.past.advance
  bounded e member := by
    have early := current.bounded e (List.mem_append_left _ member)
    simp only [Cache.advance]
    omega
  shown id v shows := by
    rw [Cache.get?_advance current.past] at shows
    cases shows
  seen e member now := by
    have early := current.bounded e (List.mem_append_left _ member)
    simp only [Cache.advance] at now
    omega

end Generations

variable [Scalar S]

def Site.Names (site : Site S) (c : Choice S) : Prop :=
  site.address = c.address ∧ ∃ k, c.leaf.key = .ok k ∧ site.key.same k = true

section Sites

variable {p : Proposal S} {site : Site S} {address : Address} {l : Leaf S} {c : Choice S}

theorem Proposal.redraws_object (picked : p.site = some site) (same : site.id = l.id) :
    p.redraws address l = .ok true := by
  simp only [redraws, picked, if_pos same]
  rfl

theorem Proposal.redraws_named (picked : p.site = some site) (named : site.Names c) :
    p.redraws c.address c.leaf = .ok true := by
  obtain ⟨address, k, key, same⟩ := named
  by_cases object : site.id = c.leaf.id
  · exact redraws_object picked object
  · simp only [redraws, picked, if_neg object, key, Outcome.ok_bind, address, same, decide_true,
      Bool.and_self]
    rfl

theorem Choice.Kept.not_reused (kept : c.Kept p) (redraws : p.redraws c.address c.leaf = .ok true) :
    c.reused = false := by
  rw [← Bool.not_eq_true]
  intro reused
  obtain ⟨_, stays, -⟩ := kept reused
  rw [(Proposal.kept_iff.mp stays).2] at redraws
  cases redraws

end Sites

/-- Every entry so far goes back to the visit that obtained the value for its object. -/
structure Ledger (p : Proposal S) (entries : List (Entry S)) (drawn : List (Draw S)) : Prop where
  agree : ∀ e ∈ entries, e.choice.leaf = e.visit.leaf ∧ e.choice.value = e.visit.value
  kept : ∀ e ∈ entries, e.choice.Kept p ∧ (e.choice.reused = true → e.visit.held = false)
  drawn : ∀ e ∈ entries, e.visit.held = false → e.choice.reused = false →
    ⟨e.choice.leaf, e.choice.value⟩ ∈ drawn
  obtained : ∀ e ∈ entries, ∃ d ∈ entries, d.SameObject e ∧ d.visit.held = false ∧
    d.choice.value = e.choice.value
  -- A second visit in the generation finds the value in the cache, so only one obtains it.
  once : ∀ d ∈ entries, ∀ e ∈ entries, d.visit.held = false → e.visit.held = false → d.SameObject e → d = e

/-- A visit to a leaf that is no point mass: the entry that it makes, and what it draws. -/
inductive Enters (p : Proposal S) (l : Leaf S) (here : Progress S) (cache : Cache S) :
    Entry S → Progress S → List (Draw S) → Cache S → Prop where
  | held {v : Value S} {score : Number S} (held : cache.get? l.id = some v) :
    Enters p l here cache ⟨⟨l, v, cache.generation, true⟩, ⟨here.address, l, v, score, false⟩⟩
      (here.record l v score false) [] cache
  | kept {old : Choice S} (absent : cache.get? l.id = none) (kept : p.kept here.address l = .ok (some old)) :
    Enters p l here cache
      ⟨⟨l, old.value, cache.generation, false⟩, ⟨here.address, l, old.value, old.logScore, true⟩⟩
      (here.record l old.value old.logScore true) [] (cache.put l.id old.value)
  | drawn {v : Value S} {score : Number S} (absent : cache.get? l.id = none) :
    Enters p l here cache ⟨⟨l, v, cache.generation, false⟩, ⟨here.address, l, v, score, false⟩⟩
      (here.record l v score false) [⟨l, v⟩] (cache.put l.id v)

section Visits

variable {source : Source (StateM σ) S} {p : Proposal S} {l : Leaf S} {fresh : Bool} {here there : Progress S}
  {cache cache' : Cache S} {w w' : σ} {log log' : List (Draw S)} {a : Sample S}

theorem visitFresh_enters (indirect : l.point? = none)
    (run : Runs (visitFresh source.logged l here) cache (w, log) (a, there) cache' (w', log')) :
    ∃ c new, log' = log ++ new ∧
      Enters p l here cache ⟨⟨l, a.value, cache.generation, cache.contains l.id⟩, c⟩ there new cache' := by
  obtain ⟨v, _, ⟨_, _⟩, sampled, recorded⟩ := runs_bind.mp run
  obtain ⟨score, _, _, scored, last⟩ := runs_bind.mp recorded
  obtain ⟨-, rfl, rfl⟩ := Traversal.runs_ofOutcome.mp scored
  obtain ⟨same, rfl, worlds⟩ := runs_pure.mp last
  cases same
  cases worlds
  rcases runs_sample_logged indirect sampled with ⟨held, rfl, rfl⟩ | ⟨absent, rfl, rfl⟩
  · rw [Cache.contains, held]
    exact ⟨_, [], (List.append_nil _).symm, .held held⟩
  · rw [Cache.contains, absent]
    exact ⟨_, _, rfl, .drawn absent⟩

theorem visitChoice_enters (indirect : l.point? = none)
    (run : Runs (visitChoice source.logged p fresh l here) cache (w, log) (a, there) cache' (w', log')) :
    ∃ c new, log' = log ++ new ∧
      Enters p l here cache ⟨⟨l, a.value, cache.generation, cache.contains l.id⟩, c⟩ there new cache' := by
  replace run := run.of_get_bind
  -- What the generation has seen already is read off the cache, and what is kept is put there.
  by_cases anew : (fresh || cache.contains l.id) = true
  · rw [if_pos anew] at run
    exact visitFresh_enters indirect run
  · have absent : cache.get? l.id = none := by
      simp_all [Cache.contains]
    rw [if_neg anew] at run
    obtain ⟨kept, _, _, decision, rest⟩ := runs_bind.mp run
    obtain ⟨stays, rfl, rfl⟩ := Traversal.runs_ofOutcome.mp decision
    cases kept with
    | none => exact visitFresh_enters indirect rest
    | some old =>
      obtain ⟨_, _, _, put, last⟩ := runs_bind.mp rest
      obtain ⟨rfl, rfl⟩ := runs_modify.mp put
      obtain ⟨same, rfl, worlds⟩ := runs_pure.mp last
      cases same
      cases worlds
      rw [Cache.contains, absent]
      exact ⟨_, [], (List.append_nil _).symm, .kept absent stays⟩

theorem chainVisitor_enters {v : Visit S}
    (run : Runs (chainVisitor source.logged p l fresh here) cache (w, log) (v, there) cache' (w', log')) :
    v.leaf = l ∧ (l.point?.isSome = true ∧ there = here ∧ cache' = cache ∧ log' = log ∨
      l.point?.isNone = true ∧ ∃ c new, log' = log ++ new ∧
        Enters p l here cache ⟨v, c⟩ there new cache') := by
  replace run := run.of_get_bind
  obtain ⟨⟨a, there⟩, _, ⟨_, _⟩, visited, last⟩ := runs_bind.mp run
  obtain ⟨same, rfl, worlds⟩ := runs_pure.mp last
  cases same
  cases worlds
  refine ⟨rfl, ?_⟩
  rw [visitLeaf] at visited
  split at visited
  · next u constant =>
    obtain ⟨same, rfl, worlds⟩ := runs_pure.mp visited
    cases same
    cases worlds
    exact .inl ⟨by simp [Leaf.point?, constant], rfl, rfl, rfl⟩
  · next indirect =>
    have point : l.point? = none := by
      cases form : l.distribution <;> simp_all [Leaf.point?]
    exact .inr ⟨by rw [point, Option.isNone_none], visitChoice_enters point visited⟩

end Visits

section Accounts

variable {p : Proposal S} {entries attempt : List (Entry S)} {drawn : List (Draw S)} {e : Entry S}
  {cache cache' : Cache S}

theorem Ledger.empty : Ledger p [] [] where
  agree := by simp
  kept := by simp
  drawn := by simp
  obtained := by simp
  once := by simp

theorem Ledger.more (ledger : Ledger p entries drawn) (new : List (Draw S)) :
    Ledger p entries (drawn ++ new) :=
  { ledger with
    drawn := fun e member held anew => List.mem_append_left _ (ledger.drawn e member held anew) }

theorem Ledger.snoc (ledger : Ledger p entries drawn)
    (agree : e.choice.leaf = e.visit.leaf ∧ e.choice.value = e.visit.value)
    (kept : e.choice.Kept p ∧ (e.choice.reused = true → e.visit.held = false))
    (draws : e.visit.held = false → e.choice.reused = false → ⟨e.choice.leaf, e.choice.value⟩ ∈ drawn)
    (origin : ∃ d ∈ entries ++ [e], d.SameObject e ∧ d.visit.held = false ∧ d.choice.value = e.choice.value)
    (alone : e.visit.held = false → ∀ d ∈ entries, ¬ d.SameObject e) : Ledger p (entries ++ [e]) drawn where
  agree := List.forall_mem_append.mpr ⟨ledger.agree, List.forall_mem_singleton.mpr agree⟩
  kept := List.forall_mem_append.mpr ⟨ledger.kept, List.forall_mem_singleton.mpr kept⟩
  drawn := List.forall_mem_append.mpr ⟨ledger.drawn, List.forall_mem_singleton.mpr draws⟩
  obtained := by
    refine List.forall_mem_append.mpr ⟨fun b member => ?_, List.forall_mem_singleton.mpr origin⟩
    obtain ⟨d, listed, first⟩ := ledger.obtained b member
    exact ⟨d, List.mem_append_left _ listed, first⟩
  once := by
    -- Two first visits to an object are the same: the new one has no earlier one beside it.
    intro b member d member' first first' same
    rcases List.mem_append.mp member with earlier | last
    · rcases List.mem_append.mp member' with earlier' | last'
      · exact ledger.once b earlier d earlier' first first' same
      · cases List.mem_singleton.mp last'
        exact absurd same (alone first' b earlier)
    · cases List.mem_singleton.mp last
      rcases List.mem_append.mp member' with earlier' | last'
      · exact absurd ⟨same.1.symm, same.2.symm⟩ (alone first d earlier')
      · exact (List.mem_singleton.mp last').symm

theorem Ledger.hold (ledger : Ledger p entries drawn) (current : Current cache entries)
    (agree : e.choice.leaf = e.visit.leaf ∧ e.choice.value = e.visit.value)
    (now : e.visit.generation = cache.generation) (anew : e.choice.reused = false)
    (stays : e.visit.held = true) (held : cache.get? e.choice.leaf.id = some e.choice.value) :
    Ledger p (entries ++ [e]) drawn := by
  obtain ⟨d, listed, object, generation, first, value⟩ := current.shown _ _ held
  refine ledger.snoc agree (by simp [Choice.Kept, anew]) (by simp [stays]) ?_ (by simp [stays])
  exact ⟨d, List.mem_append_left _ listed, ⟨object, generation.trans now.symm⟩, first, value⟩

theorem Ledger.obtain (ledger : Ledger p entries drawn) (current : Current cache entries)
    (agree : e.choice.leaf = e.visit.leaf ∧ e.choice.value = e.visit.value)
    (now : e.visit.generation = cache.generation) (first : e.visit.held = false) (kept : e.choice.Kept p)
    (draws : e.choice.reused = false → ⟨e.choice.leaf, e.choice.value⟩ ∈ drawn)
    (absent : cache.get? e.choice.leaf.id = none) : Ledger p (entries ++ [e]) drawn := by
  refine ledger.snoc agree ⟨kept, fun _ => first⟩ (fun _ => draws) ?_ fun _ d member same => ?_
  · exact ⟨e, List.mem_append_right _ (List.mem_singleton_self e), ⟨rfl, rfl⟩, first, rfl⟩
  · -- An earlier visit to the object in this generation would have left it in the cache.
    have seen := current.seen d member (same.2.trans now)
    rw [same.1] at seen
    exact seen absent

variable {l : Leaf S} {here there : Progress S} {new : List (Draw S)}

theorem Enters.records (enters : Enters p l here cache e there new cache') :
    there.trace.choices = here.trace.choices ++ [e.choice] := by
  cases enters <;> rfl

theorem Enters.accounts (enters : Enters p l here cache e there new cache') (ledger : Ledger p entries drawn)
    (current : Current cache entries) :
    Ledger p (entries ++ [e]) (drawn ++ new) ∧ Current cache' (entries ++ [e]) := by
  cases enters with
  | held held =>
    exact ⟨(ledger.more _).hold current ⟨rfl, rfl⟩ rfl rfl rfl held, current.hold rfl held⟩
  | @kept old absent kept =>
    exact ⟨(ledger.more _).obtain current ⟨rfl, rfl⟩ rfl rfl (fun _ => ⟨old, kept, rfl, rfl⟩) nofun absent,
      current.obtain rfl rfl rfl⟩
  | drawn absent =>
    refine ⟨(ledger.more _).obtain current ⟨rfl, rfl⟩ rfl rfl nofun (fun _ => ?_) absent,
      current.obtain rfl rfl rfl⟩
    exact List.mem_append_right _ (List.mem_singleton_self _)

end Accounts

/-- A traversal goes on with an account: its random visits and its records are entries of the account, and
what it draws is booked there. -/
def Continues (p : Proposal S) (entries : List (Entry S)) (drawn : List (Draw S)) (here : Progress S)
    (log : List (Draw S)) (a : Walked S) (cache' : Cache S) (log' : List (Draw S)) : Prop :=
  ∃ added new, log' = log ++ new ∧ a.here.trace.choices = here.trace.choices ++ added.map Entry.choice ∧
    a.visits.filter (·.leaf.point?.isNone) = added.map Entry.visit ∧
    Ledger p (entries ++ added) (drawn ++ new) ∧ Current cache' (entries ++ added)

section Walk

variable {source : Source (StateM σ) S} {patience : Nat} {p : Proposal S} {l : Leaf S} {fresh : Bool}
  {here : Progress S} {cache cache' : Cache S} {w w' : σ} {log log' : List (Draw S)}
  {entries : List (Entry S)} {drawn : List (Draw S)} {a : Walked S}

theorem leaf_continues (ledger : Ledger p entries drawn) (current : Current cache entries)
    (run : Runs (walk (chainVisitor source.logged p) source.logged patience (.leaf l) fresh here) cache
      (w, log) a cache' (w', log')) : Continues p entries drawn here log a cache' log' := by
  obtain ⟨⟨v, there⟩, _, ⟨_, _⟩, visited, last⟩ := runs_bind.mp run
  obtain ⟨rfl, rfl, worlds⟩ := runs_pure.mp last
  cases worlds
  obtain ⟨leaf, ⟨point, rfl, rfl, rfl⟩ | ⟨indirect, c, new, grows, enters⟩⟩ := chainVisitor_enters visited
  · -- A point mass leaves no record, and its visit is not a random one.
    have none : (Walked.ofVisit v there).visits.filter (·.leaf.point?.isNone) = [] := by
      simp [Walked.ofVisit, leaf, Option.isSome_iff_ne_none.mp point]
    exact ⟨[], [], by simp, by simp [Walked.ofVisit], none, by simpa using ledger, by simpa using current⟩
  · have one : (Walked.ofVisit v there).visits.filter (·.leaf.point?.isNone) = [v] := by
      simp [Walked.ofVisit, leaf, Option.isNone_iff_eq_none.mp indirect]
    obtain ⟨ledger, current⟩ := enters.accounts ledger current
    exact ⟨[⟨v, c⟩], new, grows, enters.records, one, ledger, current⟩

theorem retry_continues {attempt : Traversal (StateM (σ × List (Draw S))) S (Walked S)}
    {accept : Walked S → Outcome S Bool}
    (each : ∀ {drawn cache cache' w w' log log' a}, Ledger p entries drawn → Current cache entries →
      Runs attempt cache (w, log) a cache' (w', log') → Continues p entries drawn here log a cache' log')
    (ledger : Ledger p entries drawn) (current : Current cache entries)
    (run : Runs (Traversal.retry attempt accept patience) cache (w, log) a cache' (w', log')) :
    Continues p entries drawn here log a cache' log' := by
  induction patience generalizing cache w log drawn with
  | zero => exact absurd ⟨_, _, run⟩ yields_throw
  | succ patience ih =>
    obtain ⟨b, cache₁, ⟨w₁, log₁⟩, attempted, run⟩ := runs_bind.mp run
    obtain ⟨accepted, _, _, decision, rest⟩ := runs_bind.mp run
    obtain ⟨-, rfl, rfl⟩ := Traversal.runs_ofOutcome.mp decision
    have continues := each ledger current attempted
    cases accepted with
    | true =>
      obtain ⟨rfl, rfl, worlds⟩ := runs_pure.mp rest
      cases worlds
      exact continues
    | false =>
      -- The draws of a rejected attempt stay, but its entries are gone, and the new generation knows none.
      obtain ⟨_, new, rfl, -, -, -, attempt⟩ := continues
      obtain ⟨_, _, _, advanced, again⟩ := runs_bind.mp rest
      obtain ⟨rfl, rfl⟩ := runs_modify.mp advanced
      obtain ⟨added, more, rfl, records, visits, ledger, current⟩ :=
        ih (ledger.more new) attempt.discard again
      exact ⟨added, new ++ more, by rw [List.append_assoc], records, visits,
        by rw [← List.append_assoc]; exact ledger, current⟩

theorem walk_continues {n : Node S} (ledger : Ledger p entries drawn) (current : Current cache entries)
    (run : Runs (walk (chainVisitor source.logged p) source.logged patience n fresh here) cache
      (w, log) a cache' (w', log')) : Continues p entries drawn here log a cache' log' := by
  induction n generalizing fresh here cache w log a cache' w' log' entries drawn with
  | leaf l => exact leaf_continues ledger current run
  | weightedMap n project ih =>
    obtain ⟨b, _, ⟨_, _⟩, inner, rest⟩ := runs_bind.mp run
    obtain ⟨result, rfl, worlds⟩ := Traversal.runs_ofOutcome.mp rest
    cases worlds
    obtain ⟨_, -, result⟩ := Outcome.bind_ok.mp result
    obtain ⟨_, -, rfl⟩ := Walked.project_ok result
    have continues := ih ledger current inner
    exact continues
  | weightedBind n dependent combine ih ihDependent =>
    obtain ⟨b, _, ⟨_, _⟩, first, after⟩ := runs_bind.mp run
    obtain ⟨stamp, _, ⟨_, _⟩, stamped, rest⟩ := runs_bind.mp after
    obtain ⟨rfl, rfl⟩ := runs_fresh_logged stamped
    obtain ⟨c, _, ⟨_, _⟩, second, last⟩ := runs_bind.mp rest
    obtain ⟨result, rfl, worlds⟩ := Traversal.runs_ofOutcome.mp last
    cases worlds
    obtain ⟨_, -, result⟩ := Outcome.bind_ok.mp result
    obtain ⟨_, -, rfl⟩ := Walked.combine_ok result
    -- The dependent node goes on with the account that its source has left.
    obtain ⟨added, new, rfl, records, visits, ledger, current⟩ := ih ledger current first
    obtain ⟨added', new', rfl, records', visits', ledger, current⟩ := ihDependent _ _ ledger current second
    refine ⟨added ++ added', new ++ new', by rw [List.append_assoc], ?_, ?_, ?_, ?_⟩
    · rw [records', Progress.advance, records, List.map_append, List.append_assoc]
      rfl
    · rw [List.filter_append, visits, visits', List.map_append]
    · rw [← List.append_assoc, ← List.append_assoc]
      exact ledger
    · rw [← List.append_assoc]
      exact current
  | filter n predicate ih =>
    obtain ⟨_, tried, rfl⟩ := run.of_map
    have continues := retry_continues (fun ledger current attempted => ih ledger current attempted)
      ledger current tried
    exact continues
  | unknown name => exact absurd ⟨_, _, run⟩ yields_throw
  | broken fault => exact absurd ⟨_, _, run⟩ yields_throw

end Walk

section Picked

variable {source : Source (StateM σ) S} {patience : Nat} {root : Node S} {p : Proposal S} {site : Site S}
  {cache cache' : Cache S} {w w' : σ} {log log' drawn : List (Draw S)} {entries : List (Entry S)}
  {e : Entry S} {s t : ChainState S}

theorem Ledger.drawn_iff (ledger : Ledger p entries drawn) (member : e ∈ entries) :
    e.Drawn entries drawn ↔ ∀ d ∈ entries, d.SameObject e → d.choice.reused = false := by
  constructor
  · rintro ⟨b, listed, object, first, anew, -⟩ d member' same
    rw [← Bool.not_eq_true]
    intro reused
    -- What is kept and what is drawn are both first visits, so here they would be one.
    have first' := (ledger.kept d member').2 reused
    have one := ledger.once b listed d member' first first'
      ⟨object.1.trans same.1.symm, object.2.trans same.2.symm⟩
    rw [one, reused] at anew
    cases anew
  · intro never
    obtain ⟨d, listed, object, first, value⟩ := ledger.obtained e member
    have anew := never d listed object
    exact ⟨d, listed, object, first, anew, value, ledger.drawn d listed first anew⟩

theorem Ledger.drawn_or_carried (ledger : Ledger p entries drawn) (member : e ∈ entries) :
    e.Drawn entries drawn ∨ e.Carried entries p.previous := by
  obtain ⟨d, listed, object, first, value⟩ := ledger.obtained e member
  cases origin : d.choice.reused with
  | false => exact .inl ⟨d, listed, object, first, origin, value, ledger.drawn d listed first origin⟩
  | true =>
    obtain ⟨old, stays, same, -⟩ := (ledger.kept d listed).1 origin
    obtain ⟨known, address, -⟩ := Trace.find?_ok (Proposal.kept_ok stays)
    exact .inr ⟨d, listed, object, origin, value, old, known, address, same⟩

theorem Ledger.drawn_of_object (ledger : Ledger p entries drawn) (picked : p.site = some site)
    (member : e ∈ entries) (same : e.choice.leaf.id = site.id) : e.Drawn entries drawn := by
  -- Wherever the very object that was picked is visited, nothing of it is kept.
  refine (ledger.drawn_iff member).mpr fun d listed object => ?_
  have picks : p.redraws d.choice.address d.choice.leaf = .ok true :=
    Proposal.redraws_object picked (object.1.trans same).symm
  exact (ledger.kept d listed).1.not_reused picks

theorem pickSite_runs {site : Option Nat} (nonempty : s.trace.choices ≠ [])
    (run : Runs (pickSite source.logged (some s)) cache (w, log) (p, site) cache' (w', log')) :
    ∃ i, site = some i ∧ Proposal.at s.trace i = .ok p ∧ cache' = cache ∧ log' = log := by
  have some : s.trace.isEmpty = false := by simpa [Trace.isEmpty] using nonempty
  simp only [pickSite, some] at run
  obtain ⟨u, _, ⟨_, _⟩, uniform, rest⟩ := runs_bind.mp run
  obtain ⟨given, rfl⟩ := Traversal.runs_ofAction.mp uniform
  have unread : (source.logged.uniform (w, log)).2.2 = log := rfl
  rw [given] at unread
  subst unread
  obtain ⟨_, _, ⟨_, _⟩, built, last⟩ := runs_bind.mp rest
  obtain ⟨made, rfl, worlds⟩ := Traversal.runs_ofOutcome.mp built
  cases worlds
  obtain ⟨same, rfl, worlds⟩ := runs_pure.mp last
  cases same
  cases worlds
  exact ⟨_, rfl, made, rfl, rfl⟩

theorem walkProposal_accounts (past : cache.Past) (nonempty : s.trace.choices ≠ []) {a : WalkedState S}
    (run : Runs (walkProposal source.logged patience root (some s)) cache (w, log) a cache' (w', log')) :
    ∃ (i : Nat) (site : Site S) (entries : List (Entry S)) (drawn : List (Draw S)), a.site = some i ∧
      Proposal.at s.trace i = .ok ⟨s.trace, some site⟩ ∧ log' = log ++ drawn ∧
      entries.map Entry.choice = a.state.trace.choices ∧
      entries.map Entry.visit = a.walked.visits.filter (·.leaf.point?.isNone) ∧
      Ledger ⟨s.trace, some site⟩ entries drawn ∧ cache'.Past := by
  obtain ⟨_, _, _, advanced, run⟩ := runs_bind.mp run
  obtain ⟨rfl, rfl⟩ := runs_modify.mp advanced
  obtain ⟨⟨p, index⟩, _, ⟨_, _⟩, picked, run⟩ := runs_bind.mp run
  obtain ⟨i, rfl, made, rfl, rfl⟩ := pickSite_runs nonempty picked
  obtain ⟨site, rfl⟩ := Proposal.at_site made
  obtain ⟨b, _, ⟨_, _⟩, walked, last⟩ := runs_bind.mp run
  obtain ⟨rfl, rfl, worlds⟩ := runs_pure.mp last
  cases worlds
  obtain ⟨entries, drawn, rfl, records, visits, ledger, current⟩ :=
    walk_continues Ledger.empty (Current.start past) walked
  exact ⟨i, site, entries, drawn, rfl, made, rfl, records.symm, visits.symm, ledger, current.past⟩

/-- A candidate draws what it has at the site unless it has kept the object that stands there at another visit
of the same generation.  It never keeps the object that was picked. -/
theorem site_redrawn_iff (past : cache.Past) (nonempty : s.trace.choices ≠ [])
    (run : Runs (propose source.logged patience root (some s)) cache (w, log) t cache' (w', log')) :
    ∃ (i : Nat) (site : Site S) (a : WalkedState S) (entries : List (Entry S)) (drawn : List (Draw S)),
      t.site = some i ∧ Proposal.at s.trace i = .ok ⟨s.trace, some site⟩ ∧
      log' = log ++ drawn ∧ cache'.Past ∧
      Runs (walkProposal source.logged patience root (some s)) cache (w, log) a cache' (w', log') ∧
      a.state = t ∧ entries.map Entry.choice = t.trace.choices ∧
      entries.map Entry.visit = a.walked.visits.filter (·.leaf.point?.isNone) ∧
      (∀ e ∈ entries, e.choice.leaf = e.visit.leaf ∧ e.choice.value = e.visit.value) ∧
      ∀ e ∈ entries, site.Names e.choice → e.choice.reused = false ∧
        (e.Drawn entries drawn ∨ e.Carried entries s.trace) ∧
        (e.Drawn entries drawn ↔ ∀ d ∈ entries, d.SameObject e → d.choice.reused = false) ∧
        (e.choice.leaf.id = site.id → e.Drawn entries drawn) := by
  rw [← walkProposal_state] at run
  obtain ⟨a, walked, rfl⟩ := run.of_map
  obtain ⟨i, site, entries, drawn, index, made, grows, records, visits, ledger, past'⟩ :=
    walkProposal_accounts past nonempty walked
  refine ⟨i, site, a, entries, drawn, index, made, grows, past', walked, rfl, records, visits, ledger.agree, ?_⟩
  intro e member named
  have anew : e.choice.reused = false :=
    (ledger.kept e member).1.not_reused (Proposal.redraws_named rfl named)
  exact ⟨anew, ledger.drawn_or_carried member, ledger.drawn_iff member, ledger.drawn_of_object rfl member⟩

end Picked

section Example

/-- Coins for the leaves, and sites picked in the middle. -/
noncomputable def midway : Source (StateM (List Bool × Nat)) Exact :=
  { coins with uniform := fun world => (.ok (Scalar.ratio 1 2), world) }

noncomputable def flipAt (id : ObjectId) : Leaf Exact :=
  ⟨id, (fairFlip 0).distribution⟩

/-- A call that visits one flip twice.  Its stamp may tell it which object to visit. -/
noncomputable def visitedTwice (id : Nat → ObjectId) : Node Exact :=
  (Node.constant ⟨0, 1⟩ (.bool true)).bind
    (fun _ k => (Node.leaf (flipAt (id k))).bind (fun _ _ => .leaf (flipAt (id k))) pair) Node.second

noncomputable def bothAre (b : Bool) (id : ObjectId) (kept : Bool) : Trace Exact :=
  ⟨[⟨{ binds := 3 }, flipAt id, .bool b, fairScore, kept⟩,
    ⟨{ binds := 4 }, flipAt id, .bool b, fairScore, false⟩]⟩

variable {id : Nat → ObjectId} {p : Proposal Exact} {cache : Cache Exact} {k : Nat}
  {log log' : List (Draw Exact)}

theorem visit_visitedTwice {tosses rest : List Bool} {b kept : Bool}
    (first : Runs (visit midway.logged 1 p (.leaf (flipAt (id k))) false ⟨{ binds := 3 }, .empty⟩) cache
      ((tosses, k + 1), log)
      (.ofValue (.bool b), Progress.record ⟨{ binds := 3 }, .empty⟩ (flipAt (id k)) (.bool b) fairScore kept)
      (cache.put (id k) (.bool b)) ((rest, k + 1), log')) :
    ∃ a there, there.trace = bothAre b (id k) kept ∧
      Runs (visit midway.logged 1 p (visitedTwice id) false ⟨{}, .empty⟩) cache ((tosses, k), log) (a, there)
        (cache.put (id k) (.bool b)) ((rest, k + 2), log') := by
  refine ⟨_, _, ?_, runs_visit_weightedBind Runs.of_pure rfl (runs_visit_weightedBind first rfl
    (runs_visit_flip_anew (b := b) (.inl ?_) (Traversal.runs_sample_held ?_)) rfl rfl) rfl rfl⟩
  · rfl
  · rw [Cache.contains, Cache.get?_put_self]
    rfl
  · exact Cache.get?_put_self _ _

theorem visitedTwice_first (id : Nat → ObjectId) : ∃ a,
    Runs (propose midway.logged 1 (visitedTwice id) none) {} (([true], 1), [])
      ⟨bothAre true (id 1) false, a, none⟩ ((Cache.advance {}).put (id 1) (.bool true))
      (([], 3), [⟨flipAt (id 1), .bool true⟩]) := by
  have absent := Cache.get?_advance (S := Exact) Cache.past_new (id 1)
  obtain ⟨a, there, trace, visited⟩ := visit_visitedTwice (p := ⟨.empty, none⟩)
    (runs_visit_flip_anew (w := (([true], 2), [])) (.inr rfl) (Traversal.runs_sample_absent absent rfl))
  exact ⟨a, trace ▸ runs_propose_first visited⟩

theorem flipAt_key : ∃ key, (∀ id, (flipAt id).key = .ok key) ∧ key.same key = true := by
  obtain ⟨key, keyed⟩ : ∃ key, (flipAt ⟨0, 0⟩).key = .ok key := ⟨_, rfl⟩
  exact ⟨key, fun id => keyed, by simp [LeafKey.same, Value.alike_refl]⟩

theorem bothAre_looked (i j : ObjectId) :
    (bothAre true i false).find? { binds := 3 } (flipAt j) =
      .ok (some ⟨{ binds := 3 }, flipAt i, .bool true, fairScore, false⟩) := by
  have known : ∀ c ∈ (bothAre true i false).choices, ∃ k, checkedLeafKey c.leaf = .ok k := by
    simp only [bothAre, List.forall_mem_cons, List.not_mem_nil, false_imp_iff, implies_true, and_true]
    exact ⟨⟨_, rfl⟩, ⟨_, rfl⟩⟩
  obtain ⟨key, keys, same⟩ := flipAt_key
  let looked : Choice Exact := ⟨{ binds := 3 }, flipAt j, .bool true, fairScore, false⟩
  obtain ⟨_, checked⟩ : ∃ k, checkedLeafKey looked.leaf = .ok k := ⟨_, rfl⟩
  rcases Trace.find?_known known checked with ⟨c, member, shares, found⟩ | ⟨nothing, -⟩
  · simp only [bothAre, List.mem_cons, List.not_mem_nil, or_false] at member
    rcases member with rfl | rfl
    · exact found
    · cases shares.1
  · exact absurd ⟨rfl, key, key, keys i, keys j, same⟩ (nothing _ List.mem_cons_self)

/-- The site in the middle is the second visit. -/
noncomputable def atSecond (key : LeafKey Exact) (id : ObjectId) : Proposal Exact :=
  ⟨bothAre true id false, some ⟨{ binds := 4 }, key, id⟩⟩

theorem atSecond_made {key : LeafKey Exact} (keys : ∀ id, (flipAt id).key = .ok key) (i : ObjectId) :
    Proposal.at (bothAre true i false) 1 = .ok (atSecond key i) := by
  change (do return Proposal.mk _ (some ⟨_, ← (flipAt i).key, _⟩)) = _
  rw [keys]
  rfl

theorem visitedTwice_next (id : Nat → ObjectId) {key : LeafKey Exact}
    (keys : ∀ id, (flipAt id).key = .ok key) (a : Sample Exact) {tosses rest : List Bool} {b kept : Bool}
    (first : Runs (visit midway.logged 1 (atSecond key (id 1)) (.leaf (flipAt (id 3))) false
      ⟨{ binds := 3 }, .empty⟩) cache.advance ((tosses, 4), log)
      (.ofValue (.bool b), Progress.record ⟨{ binds := 3 }, .empty⟩ (flipAt (id 3)) (.bool b) fairScore kept)
      (cache.advance.put (id 3) (.bool b)) ((rest, 4), log')) :
    ∃ c, Runs (propose midway.logged 1 (visitedTwice id) (some ⟨bothAre true (id 1) false, a, none⟩)) cache
      ((tosses, 3), log) ⟨bothAre b (id 3) kept, c, some 1⟩ (cache.advance.put (id 3) (.bool b))
      ((rest, 5), log') := by
  have index : Scalar.index (Scalar.ratio 1 2 : Exact) (bothAre true (id 1) false).size = 1 := by
    have floor : ⌊((1 : Int) / (2 : Nat) : ℝ) * (2 : Nat)⌋ = 1 := by norm_num
    have size : (bothAre true (id 1) false).size = 2 := rfl
    rw [size, Scalar.index, Exact.ratio_eq, Exact.ofNat_eq, Exact.finite_mul, Exact.finite_floor, floor]
    rfl
  obtain ⟨c, there, trace, visited⟩ := visit_visitedTwice first
  have proposed := runs_propose_next (s := ⟨bothAre true (id 1) false, a, none⟩) (w := ((tosses, 3), log))
    rfl rfl (by rw [index, atSecond_made keys]) visited
  rw [index, trace] at proposed
  exact ⟨c, proposed⟩

theorem atSecond_kept {key : LeafKey Exact} (keys : ∀ id, (flipAt id).key = .ok key) {i j : ObjectId}
    (apart : i ≠ j) : (atSecond key i).kept { binds := 3 } (flipAt j) =
      .ok (some ⟨{ binds := 3 }, flipAt i, .bool true, fairScore, false⟩) := by
  have other : (atSecond key i).redraws { binds := 3 } (flipAt j) = .ok false := by
    have differ : i ≠ (flipAt j).id := apart
    simp only [Proposal.redraws, atSecond, if_neg differ, keys]
    rfl
  exact Proposal.kept_of_found (bothAre_looked i j) other

theorem atSecond_redraws (key : LeafKey Exact) (i : ObjectId) :
    (atSecond key i).kept { binds := 3 } (flipAt i) = .ok none := by
  have object : (atSecond key i).redraws { binds := 3 } (flipAt i) = .ok true :=
    Proposal.redraws_object rfl rfl
  exact Proposal.kept_of_found (bothAre_looked i i) object

/-- The call makes a new flip each time.  Its first visit keeps the old value, its second one is the site, and
there is nothing to draw. -/
theorem remade_not_redrawn : ∃ (s t : ChainState Exact) (cache cache' : Cache Exact) (log : List (Draw Exact))
    (site : Site Exact) (e : Choice Exact),
    Runs (propose midway.logged 1 (visitedTwice fun k => ⟨k, 0⟩) none) {} (([true], 1), []) s cache
      (([], 3), log) ∧
    Runs (propose midway.logged 1 (visitedTwice fun k => ⟨k, 0⟩) (some s)) cache (([], 3), log) t cache'
      (([], 5), log) ∧
    t.site = some 1 ∧ Proposal.at s.trace 1 = .ok ⟨s.trace, some site⟩ ∧ e ∈ t.trace.choices ∧
    site.Names e := by
  obtain ⟨key, keys, same⟩ := flipAt_key
  obtain ⟨a, run⟩ := visitedTwice_first fun k => ⟨k, 0⟩
  have past := (Cache.past_new (S := Exact)).advance.put ⟨1, 0⟩ (.bool true)
  have first : Runs (visitChoice midway.logged (atSecond key ⟨1, 0⟩) false (flipAt ⟨3, 0⟩)
      ⟨{ binds := 3 }, .empty⟩) _ (([], 4), [⟨flipAt ⟨1, 0⟩, .bool true⟩]) _ _ _ :=
    runs_visitChoice_kept (Cache.get?_advance past _) (atSecond_kept keys (by simp))
  obtain ⟨b, run'⟩ := visitedTwice_next (fun k => ⟨k, 0⟩) keys a first
  exact ⟨_, _, _, _, _, _, _, run, run', rfl, atSecond_made keys _, .tail _ (.head _), rfl, key, keys _, same⟩

/-- The call visits a flip made before it, the object that is picked: the first visit draws, and the second
one shows what it drew. -/
theorem site_redrawn_iff_visitedTwice : ∃ (s t : ChainState Exact) (cache cache' : Cache Exact)
    (log : List (Draw Exact)) (site : Site Exact) (entries : List (Entry Exact)) (drawn : List (Draw Exact)),
    Runs (propose midway.logged 1 (visitedTwice fun _ => ⟨0, 0⟩) none) {} (([true], 1), []) s cache
      (([], 3), log) ∧
    Runs (propose midway.logged 1 (visitedTwice fun _ => ⟨0, 0⟩) (some s)) cache (([false], 3), log) t cache'
      (([], 5), log ++ drawn) ∧
    Proposal.at s.trace 1 = .ok ⟨s.trace, some site⟩ ∧ entries.map Entry.choice = t.trace.choices ∧
    ∃ e ∈ entries, site.Names e.choice ∧ e.choice.value = .bool false ∧ e.Drawn entries drawn := by
  obtain ⟨key, keys, same⟩ := flipAt_key
  obtain ⟨a, run⟩ := visitedTwice_first fun _ => ⟨0, 0⟩
  have past := (Cache.past_new (S := Exact)).advance.put ⟨0, 0⟩ (.bool true)
  have first : Runs (visit midway.logged 1 (atSecond key ⟨0, 0⟩) (.leaf (flipAt ⟨0, 0⟩)) false
      ⟨{ binds := 3 }, .empty⟩) _ (([false], 4), [⟨flipAt ⟨0, 0⟩, .bool true⟩]) _ _ _ :=
    runs_visit_flip_anew (.inr (atSecond_redraws key ⟨0, 0⟩))
      (Traversal.runs_sample_absent (Cache.get?_advance past _) rfl)
  obtain ⟨b, run'⟩ := visitedTwice_next (fun _ => ⟨0, 0⟩) keys a first
  obtain ⟨_, site, _, entries, drawn, picked, made, grows, -, -, -, records, -, -, origins⟩ :=
    site_redrawn_iff past (List.cons_ne_nil _ _) run'
  cases picked
  obtain ⟨e, member, second⟩ : ∃ e ∈ entries, e.choice =
      ⟨{ binds := 4 }, flipAt ⟨0, 0⟩, .bool false, fairScore, false⟩ := by
    rw [← List.mem_map, records]
    exact .tail _ (.head _)
  cases (atSecond_made keys ⟨0, 0⟩).symm.trans made
  have named : Site.Names ⟨{ binds := 4 }, key, ⟨0, 0⟩⟩ e.choice := by
    rw [second]
    exact ⟨rfl, key, keys _, same⟩
  obtain ⟨-, -, -, drawn⟩ := origins e member named
  rw [grows] at run'
  exact ⟨_, _, _, _, _, _, entries, _, run, run', made, records, e, member, named, by rw [second],
    drawn (by rw [second]; rfl)⟩

end Example

end ChanceGraph
