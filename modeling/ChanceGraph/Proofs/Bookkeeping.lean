import ChanceGraph.Proofs.Chronicle
import ChanceGraph.Proofs.Replay

/-!
Iterators over one sampler share its counts, and each has a chain of its own.  However they take turns, the
counts say what was yielded, what was accepted and what was proposed.
-/

set_option autoImplicit false

namespace ChanceGraph

variable {S σ α : Type}

theorem action_bind {α β : Type} (action : StateM σ α) (next : α → StateM σ β) (w : σ) :
    (action >>= next) w = next (action w).1 (action w).2 := rfl

section Turns

/-- An iterator: the state of its chain, and whether a failure has ended it. -/
structure Lane (S : Type) where
  current : Option (ChainState S) := none
  finished : Bool := false

/-- A sampler and the iterators over it. -/
structure Chains (S : Type) where
  tally : ChainTally S := {}
  lanes : Nat → Lane S := fun _ => {}

def Chains.reading (chains : Chains S) (i : Nat) : Reading S :=
  ⟨chains.tally, (chains.lanes i).current⟩

/-- One iterator has gone on. -/
def Chains.store (chains : Chains S) (i : Nat) (reading : Reading S) (finished : Bool) : Chains S :=
  ⟨reading.tally, Function.update chains.lanes i ⟨reading.current, finished⟩⟩

/-- Asks an iterator for its next sample, as `Session.pull` does with a reader. -/
def takeTurn (read : Reader (StateM σ) S (Sample S)) (i : Nat) (chains : Chains S) :
    StateM σ (Outcome S (Sample S) × Chains S) := do
  if (chains.lanes i).finished then return (.error .finished, chains)
  let (result, reading) ← read.run.run (chains.reading i)
  return (result, chains.store i reading !result.isOk)

/-- Who was asked, and what came of it. -/
abbrev History (S : Type) := List (Nat × Outcome S (Sample S))

def takeTurns (read : Reader (StateM σ) S (Sample S)) : List Nat → Chains S → StateM σ (History S × Chains S)
  | [], chains => return ([], chains)
  | i :: rest, chains => do
    let (result, chains) ← takeTurn read i chains
    let (later, chains) ← takeTurns read rest chains
    return ((i, result) :: later, chains)

theorem Chains.store_reading {chains : Chains S} {i : Nat} {finished : Bool}
    (same : (chains.lanes i).finished = finished) : chains.store i (chains.reading i) finished = chains := by
  subst same
  exact congrArg (Chains.mk chains.tally) (Function.update_eq_self i chains.lanes)

theorem takeTurn_finished {read : Reader (StateM σ) S (Sample S)} {i : Nat} {chains : Chains S}
    (finished : (chains.lanes i).finished = true) (w : σ) :
    takeTurn read i chains w = ((.error .finished, chains.store i (chains.reading i) true), w) := by
  rw [takeTurn, if_pos finished, Chains.store_reading finished]
  rfl

theorem takeTurn_run {read : Reader (StateM σ) S (Sample S)} {i : Nat} {chains : Chains S} {w w' : σ}
    {result : Outcome S (Sample S)} {reading : Reading S} (unfinished : (chains.lanes i).finished = false)
    (run : read.run.run (chains.reading i) w = ((result, reading), w')) :
    takeTurn read i chains w = ((result, chains.store i reading !result.isOk), w') := by
  have action : StateT.run (ExceptT.run read) (chains.reading i) w = ((result, reading), w') := run
  rw [takeTurn, if_neg (by simp [unfinished]), action_bind, action]
  rfl

theorem takeTurns_cons {read : Reader (StateM σ) S (Sample S)} {i : Nat} {rest : List Nat}
    {chains chains₁ chains' : Chains S} {w w₁ w' : σ} {result : Outcome S (Sample S)} {later : History S}
    (turn : takeTurn read i chains w = ((result, chains₁), w₁))
    (turns : takeTurns read rest chains₁ w₁ = ((later, chains'), w')) :
    takeTurns read (i :: rest) chains w = (((i, result) :: later, chains'), w') := by
  simp only [takeTurns, action_bind, turn, turns]
  rfl

end Turns

section Samples

/-- The samples that were yielded, each with its iterator. -/
def yields (history : History S) : List (Nat × Sample S) :=
  history.filterMap fun turn => turn.2.toOption.map (turn.1, ·)

def iterators (history : History S) : Finset Nat :=
  ((yields history).map (·.1)).toFinset

/-- The sample that an iterator has yielded last. -/
def lastYield (i : Nat) (history : History S) : Option (Sample S) :=
  ((yields history).filter (·.1 = i)).getLast?.map (·.2)

variable {history : History S} {i j : Nat} {sample : Sample S} {fault : Fault S}

theorem yields_ok : yields (history ++ [(i, .ok sample)]) = yields history ++ [(i, sample)] := by
  simp [yields, Except.toOption]

theorem yields_error : yields (history ++ [(i, .error fault)]) = yields history := by
  simp [yields, Except.toOption]

theorem length_yields {result : Outcome S (Sample S)} : (yields (history ++ [(i, result)])).length =
    (yields history).length + if result.isOk then 1 else 0 := by
  cases result with
  | error fault => rw [yields_error]; rfl
  | ok sample => rw [yields_ok, List.length_append]; rfl

theorem lastYield_ok : lastYield i (history ++ [(i, .ok sample)]) = some sample := by
  simp [lastYield, yields_ok]

theorem lastYield_other (other : j ≠ i) : lastYield j (history ++ [(i, .ok sample)]) = lastYield j history := by
  simp [lastYield, yields_ok, other.symm]

theorem lastYield_error : lastYield j (history ++ [(i, .error fault)]) = lastYield j history := by
  rw [lastYield, yields_error, lastYield]

theorem iterators_error : iterators (history ++ [(i, .error fault)]) = iterators history := by
  rw [iterators, yields_error, iterators]

theorem iterators_ok : iterators (history ++ [(i, .ok sample)]) = insert i (iterators history) := by
  rw [iterators, yields_ok, List.map_append, List.toFinset_append, Finset.union_comm]
  rfl

theorem mem_iterators : i ∈ iterators history ↔ lastYield i history ≠ none := by
  simp [iterators, lastYield]

end Samples

section Steps

/-- What is read in one turn: the sample of the state that the chain is then in, which is the state before
it wherever nothing is accepted.  Proposals have all ended: in the sample, dropped, or failed. -/
structure Reading.Advances (reading : Reading S) (new : Log) (result : Outcome S (Sample S))
    (reading' : Reading S) : Prop where
  yielded : ∀ sample, result = .ok sample → reading'.tally.steps = reading.tally.steps + 1 ∧
    ∃ state, reading'.current = some state ∧ state.sample = sample ∧
      (reading'.tally.accepted = reading.tally.accepted + 1 ∨
        reading'.tally.accepted = reading.tally.accepted ∧ reading.current = some state)
  failed : ∀ fault, result = .error fault → reading'.tally.steps = reading.tally.steps ∧
    reading'.tally.accepted = reading.tally.accepted ∧ reading'.current = reading.current
  proposals : new.count .proposed =
    (if result.isOk then 1 else 0) + new.count .dropped + new.count .failed
  generation : reading'.tally.cache.generation =
    reading.tally.cache.generation + new.count .proposed + new.count .rejected

theorem Logs.ofChain {P : ChainTally S → Log → Outcome S α → ChainTally S → Prop}
    {step : ChainStep (StateM (Log × σ)) S α} {step' : ChainStep (StateM σ) S α} (logs : Logs P step step') :
    Logs (fun reading new r reading' => ∃ tally, reading' = { reading with tally } ∧ P reading.tally new r tally)
      (Reader.ofChain step) (Reader.ofChain step') := by
  rw [Reader.ofChain_eq, Reader.ofChain_eq]
  exact logs.onPart

variable {reading : Reading S} {tally : ChainTally S} {new : Log}

theorem ChainTally.Proceeds.advances_fail {fault : Fault S}
    (proceeds : Proceeds reading.current 0 reading.tally new (.error fault) tally) :
    reading.Advances new (.error fault) { reading with tally } where
  yielded := nofun
  failed _ _ := ⟨proceeds.counts.1, proceeds.counts.2, rfl⟩
  proposals := by
    rw [← Nat.zero_add (new.count .proposed)]
    exact proceeds.proposals
  generation := proceeds.generation

theorem ChainTally.Proceeds.advances {state : ChainState S}
    (proceeds : Proceeds reading.current 0 reading.tally new (.ok state) tally) :
    reading.Advances new (.ok state.sample) ⟨tally, some state⟩ where
  yielded := by
    rintro _ ⟨⟩
    exact ⟨proceeds.counts.1, state, rfl, rfl, proceeds.counts.2⟩
  failed := nofun
  proposals := by
    rw [← Nat.zero_add (new.count .proposed)]
    exact proceeds.proposals
  generation := proceeds.generation

variable [Scalar S]

theorem Reading.nextMarkov_advances (source : Source (StateM σ) S) (patience : Nat) (root : Node S) :
    Logs Reading.Advances (Reader.nextLogged source patience root) (Reader.nextMarkov source patience root) := by
  have step (current : Option (ChainState S)) :
      Logs (fun reading new r reading' => current = reading.current → Reading.Advances reading new r reading')
        (do
          let state ← Reader.ofChain (nextStateLogged source patience root current patience)
          modify fun reading => { reading with current := some state }
          return state.sample)
        (do
          let state ← Reader.ofChain (nextState source patience root current patience)
          modify fun reading => { reading with current := some state }
          return state.sample) := by
    -- The chain is in a new state only if its step has come to an end.
    refine Logs.bind (ChainTally.nextState_proceeds patience root current patience).ofChain
      (Q := fun state reading new r reading' => new = [] ∧ r = .ok state.sample ∧
        reading' = { reading with current := some state })
      (fun state => .silent fun reading w => ⟨_, _, w, fun _ => rfl, rfl, rfl, rfl, rfl⟩) ?_ ?_
    · rintro reading new fault _ ⟨tally, rfl, proceeds⟩ rfl
      exact proceeds.advances_fail
    · rintro reading new state _ _ _ _ ⟨tally, rfl, proceeds⟩ ⟨rfl, rfl, rfl⟩ rfl
      rw [List.append_nil]
      exact proceeds.advances
  exact Logs.mono (Logs.get_bind fun reading => step reading.current) fun _ _ _ _ advances => advances rfl

end Steps

section Account

namespace Chains

/-- One turn: the other iterators are as they were, and the counters tell what the turn has given. -/
structure Turn (chains : Chains S) (history : History S) (i : Nat) (result : Outcome S (Sample S))
    (chains' : Chains S) : Prop where
  others : ∀ j, j ≠ i → chains'.lanes j = chains.lanes j
  failed : ∀ fault, result = .error fault → chains'.tally.steps = chains.tally.steps ∧
    chains'.tally.accepted = chains.tally.accepted ∧ (chains'.lanes i).current = (chains.lanes i).current
  yielded : ∀ sample, result = .ok sample → chains'.tally.steps = chains.tally.steps + 1 ∧
    (chains'.tally.accepted = chains.tally.accepted ∨ chains'.tally.accepted = chains.tally.accepted + 1)
  first : ∀ sample, result = .ok sample → lastYield i history = none →
    chains'.tally.accepted = chains.tally.accepted + 1
  repeated : ∀ sample, result = .ok sample → chains'.tally.accepted = chains.tally.accepted →
    lastYield i history = some sample ∧ (chains'.lanes i).current = (chains.lanes i).current

/-- What the counters of a sampler say of all that its iterators have done. -/
structure Accounts (chains : Chains S) (history : History S) (log : Log) : Prop where
  steps : chains.tally.steps = (yields history).length
  accepted_le : chains.tally.accepted ≤ chains.tally.steps
  iterators_le : (iterators history).card ≤ chains.tally.accepted
  proposals : log.count .proposed = (yields history).length + log.count .dropped + log.count .failed
  generation : chains.tally.cache.generation = log.count .proposed + log.count .rejected
  current : ∀ i, ((chains.lanes i).current).map (·.sample) = lastYield i history

theorem accounts_start : Accounts ({} : Chains S) [] [] :=
  ⟨rfl, le_rfl, le_rfl, rfl, rfl, fun _ => rfl⟩

variable {chains : Chains S} {history : History S} {log new : Log} {i : Nat} {result : Outcome S (Sample S)}
  {reading : Reading S} {finished : Bool}

theorem store_current (j : Nat) : ((chains.store i reading finished).lanes j).current =
    if j = i then reading.current else (chains.lanes j).current := by
  by_cases same : j = i
  · subst same
    simp [store]
  · simp [store, same]

theorem Accounts.turn (accounts : chains.Accounts history log)
    (advances : (chains.reading i).Advances new result reading) :
    chains.Turn history i result (chains.store i reading finished) where
  others j other := Function.update_of_ne other _ _
  failed fault failed := by
    obtain ⟨steps, accepted, current⟩ := advances.failed fault failed
    exact ⟨steps, accepted, by rw [store_current, if_pos rfl, current, Chains.reading]⟩
  yielded sample yielded := by
    obtain ⟨steps, state, -, -, accepted⟩ := advances.yielded sample yielded
    exact ⟨steps, accepted.symm.imp_left And.left⟩
  first sample yielded first := by
    obtain ⟨-, state, -, -, accepted | ⟨-, current⟩⟩ := advances.yielded sample yielded
    · exact accepted
    · rw [← accounts.current i, Option.map_eq_none_iff] at first
      exact absurd (first.symm.trans current) nofun
  repeated sample yielded same := by
    obtain ⟨-, state, current, sampled, accepted | ⟨-, before⟩⟩ := advances.yielded sample yielded
    · exact absurd (same.symm.trans accepted) (by simp [Chains.reading])
    · change (chains.lanes i).current = some state at before
      rw [← accounts.current i, store_current, if_pos rfl, current, before]
      exact ⟨congrArg some sampled, rfl⟩

theorem Accounts.store (accounts : chains.Accounts history log)
    (advances : (chains.reading i).Advances new result reading) :
    (chains.store i reading finished).Accounts (history ++ [(i, result)]) (log ++ new) := by
  have turn : chains.Turn history i result (chains.store i reading finished) := accounts.turn advances
  have le := accounts.accepted_le
  constructor
  case steps =>
    rw [length_yields, ← accounts.steps]
    cases result with
    | error fault => exact (turn.failed fault rfl).1
    | ok sample => exact (turn.yielded sample rfl).1
  case accepted_le =>
    cases result with
    | error fault =>
      have failed := turn.failed fault rfl
      omega
    | ok sample =>
      have yielded := turn.yielded sample rfl
      omega
  case iterators_le =>
    have most := accounts.iterators_le
    cases result with
    | error fault =>
      rw [iterators_error, (turn.failed fault rfl).2.1]
      exact most
    | ok sample =>
      -- An iterator counts as new with its first sample, and that one is always accepted.
      rw [iterators_ok]
      by_cases first : lastYield i history = none
      · rw [turn.first sample rfl first]
        exact (Finset.card_insert_le _ _).trans (Nat.add_le_add_right most 1)
      · rw [Finset.insert_eq_of_mem (mem_iterators.mpr first)]
        have yielded := turn.yielded sample rfl
        omega
  case proposals =>
    have old := accounts.proposals
    have now := advances.proposals
    rw [length_yields, List.count_append, List.count_append, List.count_append]
    omega
  case generation =>
    have old := accounts.generation
    have now := advances.generation
    rw [List.count_append, List.count_append]
    change reading.tally.cache.generation = _
    rw [now]
    change chains.tally.cache.generation + _ + _ = _
    rw [old]
    push_cast
    ring
  case current =>
    intro j
    rw [store_current]
    cases result with
    | error fault =>
      rw [lastYield_error, (advances.failed fault rfl).2.2, ← accounts.current j]
      split
      · subst j
        rfl
      · rfl
    | ok sample =>
      obtain ⟨-, state, current, sampled, -⟩ := advances.yielded sample rfl
      split
      · subst j
        rw [lastYield_ok, current, ← sampled]
        rfl
      · rename_i other
        rw [lastYield_other other, accounts.current j]

end Chains

variable [Scalar S]

theorem takeTurn_advances (source : Source (StateM σ) S) (patience : Nat) (root : Node S) (i : Nat)
    (chains : Chains S) (w : σ) : ∃ new result reading finished w',
      (∀ log, takeTurn (Reader.nextLogged source patience root) i chains (log, w) =
        ((result, chains.store i reading finished), (log ++ new, w'))) ∧
      takeTurn (Reader.next source patience .markov root) i chains w =
        ((result, chains.store i reading finished), w') ∧
      (chains.reading i).Advances new result reading := by
  cases finished : (chains.lanes i).finished with
  | true =>
    refine ⟨[], .error .finished, chains.reading i, true, w, fun log => ?_, takeTurn_finished finished w, ?_⟩
    · rw [List.append_nil]
      exact takeTurn_finished finished _
    · exact ⟨nofun, fun _ _ => ⟨rfl, rfl, rfl⟩, rfl, by simp⟩
  | false =>
    obtain ⟨new, result, reading, w', run, run', advances⟩ :=
      Reading.nextMarkov_advances source patience root (chains.reading i) w
    exact ⟨new, result, reading, _, w', fun log => takeTurn_run finished (run log), takeTurn_run finished run',
      advances⟩

theorem takeTurns_accounts (source : Source (StateM σ) S) (patience : Nat) (root : Node S) (schedule : List Nat)
    {chains : Chains S} {past : History S} {log : Log} (accounts : chains.Accounts past log) (w : σ) :
    ∃ later chains' new w',
      takeTurns (Reader.nextLogged source patience root) schedule chains (log, w) =
        ((later, chains'), (log ++ new, w')) ∧
      takeTurns (Reader.next source patience .markov root) schedule chains w = ((later, chains'), w') ∧
      chains'.Accounts (past ++ later) (log ++ new) := by
  -- The turn that comes first is part of the past of those that follow.
  induction schedule generalizing chains past log w with
  | nil =>
    refine ⟨[], chains, [], w, ?_, rfl, ?_⟩
    · rw [List.append_nil]
      rfl
    · simpa using accounts
  | cons i rest ih =>
    obtain ⟨new, result, reading, finished, w₁, turn, turn', advances⟩ :=
      takeTurn_advances source patience root i chains w
    have next : (chains.store i reading finished).Accounts (past ++ [(i, result)]) (log ++ new) :=
      accounts.store advances
    obtain ⟨later, chains', new', w', turns, turns', accounts'⟩ := ih next w₁
    refine ⟨(i, result) :: later, chains', new ++ new', w', ?_, takeTurns_cons turn' turns', ?_⟩
    · rw [← List.append_assoc]
      exact takeTurns_cons (turn log) turns
    · simpa using accounts'

/-- A step that drops its candidate goes on as if nothing had been proposed, but for what the cache holds. -/
theorem nextState_dropped {source : Source (StateM σ) S} {patience left : Nat} {root : Node S}
    {current : Option (ChainState S)} {tally : ChainTally S} {candidate : ChainState S} {cache : Cache S}
    {score : S} {w w' : σ}
    (proposed : (propose source patience root current).run.run tally.cache w = ((.ok candidate, cache), w'))
    (scored : candidate.trace.score = .ok score) (impossible : (score == Scalar.negInfinity) = true) :
    (nextState source patience root current (left + 1)).run.run tally w =
      (nextState source patience root current left).run.run { tally with cache } w' := by
  have read : Runs (ChainStep.ofTraversal (Traversal.ofOutcome candidate.trace.score)) { tally with cache } w'
      score { tally with cache } w' :=
    ChainStep.runs_ofTraversal (Traversal.runs_ofOutcome.mpr ⟨scored, rfl, rfl⟩)
  rw [nextState, run_bind, ChainStep.ofTraversal_eq, onPart_run proposed]
  simp only []
  rw [run_bind, read]
  change (if score == Scalar.negInfinity then _ else _ : ChainStep (StateM σ) S (ChainState S)).run.run _ _ = _
  rw [if_pos impossible]

namespace Session

variable {s : Session S} {r : ReaderObject S} {sampler : SamplerObject S} {chains : Chains S} {i : Nat}

omit [Scalar S] in
theorem after_same (opened : s.samplers[i]? = some sampler) : s.after i s.world sampler.tally = s := by
  have same : s.samplers.modify i (fun old => { old with tally := sampler.tally }) = s.samplers := by
    refine Array.ext_getElem? fun j => ?_
    rw [Array.getElem?_modify]
    split
    · subst j
      rw [opened]
      rfl
    · rfl
  rw [after, same]

/-- What a reader of a session pulls is what an iterator in its state gives in a turn. -/
theorem pull_takeTurn (opened : s.samplers[r.sampler]? = some sampler) (shared : chains.tally = sampler.tally)
    (placed : chains.lanes i = ⟨r.current, r.finished⟩) : ∃ result chains' world,
    takeTurn (Reader.next World.source patience sampler.strategy sampler.root) i chains s.world =
      ((result, chains'), world) ∧
    (pull r).run s = (.ok (result.map (pulled chains'.tally),
      { r with current := (chains'.lanes i).current, finished := (chains'.lanes i).finished }),
      s.after r.sampler world chains'.tally) := by
  have state : chains.reading i = ⟨sampler.tally, r.current⟩ := by
    rw [Chains.reading, shared, placed]
  cases finished : r.finished with
  | true =>
    refine ⟨_, _, _, takeTurn_finished (by rw [placed, finished]) s.world, ?_⟩
    rw [pull_finished finished, Chains.store_reading (by rw [placed, finished]), shared, placed,
      after_same opened]
    rfl
  | false =>
    rcases run : (reader sampler).run.run (chains.reading i) s.world with ⟨⟨result, reading⟩, world⟩
    refine ⟨_, _, _, takeTurn_run (by rw [placed, finished]) run, ?_⟩
    rw [state] at run
    rw [pull_run finished opened run]
    simp [Chains.store]

end Session

/-- However the iterators over one sampler take turns, the chain with a log does what the chain without one
does.  Its counters then tell the samples that were yielded, how many of them were accepted, and with the log
the proposals and the refused attempts. -/
theorem counters_account (source : Source (StateM σ) S) (patience : Nat) (root : Node S) (schedule : List Nat)
    (i : Nat) (w : σ) :
    (∃ history chains log w₁,
      takeTurns (Reader.nextLogged source patience root) schedule {} ([], w) = ((history, chains), (log, w₁)) ∧
      takeTurns (Reader.next source patience .markov root) schedule {} w = ((history, chains), w₁) ∧
      chains.Accounts history log ∧
      ∃ result chains' new w₂,
        takeTurn (Reader.nextLogged source patience root) i chains (log, w₁) =
          ((result, chains'), (log ++ new, w₂)) ∧
        takeTurn (Reader.next source patience .markov root) i chains w₁ = ((result, chains'), w₂) ∧
        chains.Turn history i result chains') ∧
    ∀ (current : Option (ChainState S)) (left : Nat) (tally : ChainTally S) (candidate : ChainState S)
      (cache : Cache S) (score : S) (w w' : σ),
      (propose source patience root current).run.run tally.cache w = ((.ok candidate, cache), w') →
      candidate.trace.score = .ok score → (score == Scalar.negInfinity) = true →
      (nextState source patience root current (left + 1)).run.run tally w =
        (nextState source patience root current left).run.run { tally with cache } w' := by
  constructor
  · obtain ⟨history, chains, log, w₁, turns, turns', accounts⟩ :=
      takeTurns_accounts source patience root schedule Chains.accounts_start w
    obtain ⟨new, result, reading, finished, w₂, turn, turn', advances⟩ :=
      takeTurn_advances source patience root i chains w₁
    exact ⟨history, chains, log, w₁, turns, turns', accounts, result, _, new, w₂, turn log, turn',
      accounts.turn advances⟩
  · intro current left tally candidate cache score w w' proposed scored impossible
    exact nextState_dropped proposed scored impossible

/-- A flip that is true for sure. -/
noncomputable def sureFlip : Leaf Exact :=
  ⟨⟨0, 1⟩, .flip (.real (.finite 1)) (.real (.finite 1))⟩

noncomputable def sureScore (b : Bool) : Number Exact :=
  .real (if b then .finite 0 else .infinite false)

theorem sureFlip_logDensity (b : Bool) : sureFlip.distribution.logDensity (.bool b) = .ok (sureScore b) := by
  have density : sureFlip.distribution.density (.bool b) =
      .ok (.real (Exact.finite (if b then 1 else 0))) := by
    cases b with
    | true => rfl
    | false =>
      change Number.sub .one (.real (Exact.finite 1)) = _
      simp [Number.sub, Number.combine, Number.one, Exact.one_eq, pure, Except.pure]
  have scored : sureFlip.distribution.logDensity (.bool b) =
      (do return .real (logOfDensity (← sureFlip.distribution.density (.bool b)))) := rfl
  rw [scored, density, Outcome.ok_bind, logOfDensity]
  have log : Scalar.log (Exact.finite 1) = .finite 0 := by rw [Exact.finite_log one_pos, Real.log_one]
  have least : (Scalar.negInfinity : Exact) = .infinite false := rfl
  cases b <;> simp [Number.le_exact, sureScore, pure, Except.pure, Number.log, log, least, not_le.mpr one_pos]

/-- The sure flip, after a fair one that comes out true. -/
noncomputable def sureAfterTruth : Node Exact :=
  ((Node.leaf (fairFlip 0)).filter Value.truth).bind (fun _ _ => .leaf sureFlip) Node.second

theorem sureAfterTruth_visits {cache : Cache Exact} (past : cache.Past) (b : Bool) (w : List Bool) :
    ∃ a there cache', Runs (visit tosses 2 ⟨.empty, none⟩ sureAfterTruth false ⟨{}, .empty⟩) cache.advance
        (false :: true :: b :: w) (a, there) cache' w ∧
      cache'.Past ∧ cache'.generation = cache.generation + 1 + 1 ∧ a.value = .bool b ∧
      there.trace.choices.map (·.logScore) = [fairScore, sureScore b] := by
  have apart : (fairFlip 0 : Leaf Exact).id ≠ sureFlip.id := by simp [fairFlip, sureFlip]
  have first := Cache.get?_advance past
  refine ⟨_, _, _, runs_visit_weightedBind (runs_retry_reject
      (runs_visit_fairFlip (Traversal.runs_sample_absent (first _) rfl)) rfl
      (runs_retry_accept (runs_visit_fairFlip (Traversal.runs_sample_absent ?_ rfl)) rfl)) rfl
    (runs_visit_biased_anew (sureFlip_logDensity b) (.inr rfl) (Traversal.runs_sample_absent ?_ rfl)) rfl rfl,
    ?_, rfl, rfl, rfl⟩
  · exact Cache.get?_advance (past.advance.put _ _) _
  · exact (Cache.get?_put_of_ne apart _).trans (Cache.get?_advance (past.advance.put _ _) _)
  · exact ((past.advance.put _ _).advance.put _ _).put _ _

theorem sureAfterTruth_score (b : Bool) {t : Trace Exact}
    (scores : t.choices.map (·.logScore) = [fairScore, sureScore b]) :
    t.score = .ok (if b then .finite (Real.log (1 / 2)) else .infinite false) := by
  have numbers (c : Choice Exact) : c.logScore.toScalar = .ok c.logScore.toExact := Number.toScalar_exact _
  have listed : t.choices.map (·.logScore.toExact) = [.finite (Real.log (1 / 2)), (sureScore b).toExact] := by
    rw [← Function.comp_def Number.toExact, ← List.map_map, scores, fairScore_eq]
    rfl
  rw [Trace.score, funext numbers, exactSumBy_eq_sum, listed, Scalar.sum, zero_eq_summed, List.foldlM_cons,
    Exact.add_summed, zero_add]
  simp only [List.foldlM_cons, List.foldlM_nil, bind_pure]
  cases b with
  | true =>
    change ofSumError ((Exact.summed (Real.log (1 / 2))).add (.finite 0) >>= Scalar.PartialSum.result) = _
    rw [Exact.add_summed, add_zero]
    exact congrArg ofSumError (Exact.result_summed _)
  | false =>
    change ofSumError ((Exact.summed (Real.log (1 / 2))).add (.infinite false) >>= Scalar.PartialSum.result) = _
    rw [Exact.add_infinite]
    rfl

/-- The filter refuses a toss, the candidate that is made of the next ones has no density and is dropped, and
the sample made after another refusal is counted once.  There were four generations. -/
theorem counters_account_sureAfterTruth : ∃ sample chains log,
    takeTurns (Reader.next tosses 2 .markov sureAfterTruth) [0] {} [false, true, false, false, true, true] =
      (([(0, .ok sample)], chains), []) ∧
    sample.value = .bool true ∧ chains.tally.steps = 1 ∧ chains.tally.accepted = 1 ∧
    chains.tally.cache.generation = 4 ∧ chains.Accounts [(0, .ok sample)] log := by
  obtain ⟨a, there, cache, visited, past, two, -, scores⟩ :=
    sureAfterTruth_visits Cache.past_new false [false, true, true]
  obtain ⟨b, there', cache', visited', -, four, value, scores'⟩ := sureAfterTruth_visits past true []
  obtain ⟨⟨history, chains, log, w, -, ran, accounts, -⟩, drops⟩ :=
    counters_account tosses 2 sureAfterTruth [0] 0 [false, true, false, false, true, true]
  have dropped := drops none 1 {} ⟨there.trace, a, none⟩ cache (.infinite false) _ _
    (runs_propose_first visited) (sureAfterTruth_score false scores) rfl
  have counted : Runs (nextState tosses 2 sureAfterTruth none 1) { cache } [false, true, true]
      ⟨there'.trace, b, none⟩ ⟨cache', 1, 1⟩ [] :=
    runs_nextState_first (runs_propose_first visited') (sureAfterTruth_score true scores')
  have stepped : Runs (nextState tosses 2 sureAfterTruth none 2) {} [false, true, false, false, true, true]
      ⟨there'.trace, b, none⟩ ⟨cache', 1, 1⟩ [] := dropped.trans counted
  have turn : takeTurn (Reader.next tosses 2 .markov sureAfterTruth) 0 {}
      [false, true, false, false, true, true] =
      ((.ok b, Chains.store {} 0 ⟨⟨cache', 1, 1⟩, some ⟨there'.trace, b, none⟩⟩ false), []) :=
    takeTurn_run rfl (runs_next_markov (r := {}) stepped)
  have turns : takeTurns (Reader.next tosses 2 .markov sureAfterTruth) [0] {}
      [false, true, false, false, true, true] =
      (([(0, .ok b)], Chains.store {} 0 ⟨⟨cache', 1, 1⟩, some ⟨there'.trace, b, none⟩⟩ false), []) :=
    takeTurns_cons turn rfl
  cases turns.symm.trans ran
  have generation : cache'.generation = 4 := by
    rw [four, two]
    rfl
  exact ⟨b, _, log, turns, value, rfl, rfl, generation, accounts⟩

end Account

end ChanceGraph
