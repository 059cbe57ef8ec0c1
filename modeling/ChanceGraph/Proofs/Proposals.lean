import ChanceGraph.Proofs.Acceptance
import ChanceGraph.Proofs.Generations
import ChanceGraph.Proofs.Trajectories

/-!
What a proposal is worth that has to leave a given trace: everything off the way to that trace is
worth nothing, and on the way each choice is drawn or kept.
-/

set_option autoImplicit false

namespace ChanceGraph

/-- What was recorded so far may become the target. -/
def Follows (choices target : List (Choice Exact)) : Prop :=
  ∀ (i : Nat) (c : Choice Exact), choices[i]? = some c → ∃ d, target[i]? = some d ∧ c.Same d

theorem Follows.of_append {choices rest target : List (Choice Exact)}
    (follows : Follows (choices ++ rest) target) : Follows choices target := by
  intro i c found
  refine follows i c ?_
  have within : i < choices.length := (List.getElem?_eq_some_iff.mp found).1
  rw [List.getElem?_append_left within, found]

theorem not_follows_record {choices target : List (Choice Exact)} {c d : Choice Exact}
    (place : target[choices.length]? = some d) (differs : c.value ≠ d.value) :
    ¬ Follows (choices ++ [c]) target := by
  intro follows
  obtain ⟨d', found, same⟩ := follows choices.length c (by simp)
  rw [place, Option.some.injEq] at found
  subst found
  exact differs same.2.2

/-- Whatever does not lead to the target is worth nothing. -/
def Aims (target : List (Choice Exact))
    (g : Sample Exact × Progress Exact → Cache Exact → Nat → ℝ) : Prop :=
  ∀ a there cache stamp, ¬ Follows there.trace.choices target → g (a, there) cache stamp = 0

section Off

open Traversal

variable {parts patience : Nat} {p : Proposal Exact} {target : List (Choice Exact)}
  {g : Sample Exact × Progress Exact → Cache Exact → Nat → ℝ}

theorem mean_record (l : Leaf Exact) (v : Value Exact) (here : Progress Exact) (cache : Cache Exact)
    (stamp : Nat) :
    mean (recordFresh l v here) cache stamp g =
      Outcome.worth (fun s => g (.ofValue v, here.record l v s false) cache stamp)
        (l.distribution.logDensity v) := by
  rw [recordFresh, mean_bind, mean_ofOutcome]
  simp only [mean_pure]

theorem mean_visit_map (n : Node Exact) (project : Value Exact → Outcome Exact (Weighted Exact))
    (fresh : Bool) (here : Progress Exact) (cache : Cache Exact) (stamp : Nat) :
    mean (visit (Law.source parts) patience p (.weightedMap n project) fresh here) cache stamp g =
      mean (visit (Law.source parts) patience p n fresh (here.advance .map)) cache stamp
        fun a cache stamp => Outcome.worth (fun b => g (b, a.2) cache stamp)
          (do a.1.project (← project a.1.value)) := by
  rw [visit, mean_bind]
  simp only [mean_bind, mean_ofOutcome, mean_pure]

theorem mean_visit_bind (n : Node Exact) (dependent : Value Exact → Nat → Node Exact)
    (combine : Value Exact → Value Exact → Outcome Exact (Weighted Exact))
    (fresh : Bool) (here : Progress Exact) (cache : Cache Exact) (stamp : Nat) :
    mean (visit (Law.source parts) patience p (.weightedBind n dependent combine) fresh here) cache
        stamp g =
      mean (visit (Law.source parts) patience p n fresh (here.advance .bind)) cache stamp
        fun a cache stamp => mean (visit (Law.source parts) patience p (dependent a.1.value stamp)
          fresh (a.2.advance .bind)) cache (stamp + 1)
          fun c cache stamp => Outcome.worth (fun b => g (b, c.2) cache stamp)
            (do a.1.combine c.1 (← combine a.1.value c.1.value)) := by
  rw [visit, mean_bind]
  simp only [mean_bind, mean_fresh, mean_ofOutcome, mean_pure]

theorem worth_eq_zero {α : Type} {h : α → ℝ} (vanishes : ∀ a, h a = 0) (r : Outcome Exact α) :
    Outcome.worth h r = 0 := by
  cases r with
  | error fault => rfl
  | ok a => exact vanishes a

theorem Aims.worth (aims : Aims target g)
    (r : Sample Exact × Progress Exact → Outcome Exact (Sample Exact)) :
    Aims target fun a cache stamp => Outcome.worth (fun b => g (b, a.2) cache stamp) (r a) :=
  fun _ _ _ _ off => worth_eq_zero (fun _ => aims _ _ _ _ off) _

theorem mean_visitLeaf_off (aims : Aims target g) (l : Leaf Exact) (fresh : Bool) (here : Progress Exact)
    (off : ¬ Follows here.trace.choices target) (cache : Cache Exact) (stamp : Nat) :
    mean (visitLeaf (Law.source parts) p fresh l here) cache stamp g = 0 := by
  have longer (v : Value Exact) (s : Number Exact) (reused : Bool) :
      ¬ Follows (here.record l v s reused).trace.choices target :=
    fun follows => off follows.of_append
  have drawn (cache : Cache Exact) (stamp : Nat) :
      mean (visitFresh (Law.source parts) l here) cache stamp g = 0 := by
    rw [visitFresh, mean_bind]
    refine mean_eq_zero _ _ fun v cache stamp => ?_
    rw [mean_record]
    exact worth_eq_zero (fun s => aims _ _ _ _ (longer v s false)) _
  unfold visitLeaf
  split
  · exact (mean_pure _ _ _ _).trans (aims _ _ _ _ off)
  · unfold visitChoice
    rw [mean_get]
    split_ifs
    · exact drawn cache stamp
    · rw [mean_bind, mean_ofOutcome]
      refine worth_eq_zero (fun kept => ?_) _
      cases kept with
      | none => exact drawn cache stamp
      | some old =>
        simp only [visitKept, mean_bind, mean_modify, mean_pure]
        exact aims _ _ _ _ (longer old.value old.logScore true)

theorem mean_retry_off {attempt : Traversal Chance Exact (Sample Exact × Progress Exact)}
    {accept : Sample Exact × Progress Exact → Outcome Exact Bool}
    (each : ∀ cache stamp h, Aims target h → mean attempt cache stamp h = 0) (aims : Aims target g)
    (cache : Cache Exact) (stamp : Nat) :
    mean (retry attempt accept patience) cache stamp g = 0 := by
  induction patience generalizing cache stamp with
  | zero => exact mean_throw _ _ _ _
  | succ patience ih =>
    rw [retry, mean_bind]
    refine each cache stamp _ fun a there cache stamp off => ?_
    rw [mean_bind, mean_ofOutcome]
    refine worth_eq_zero (fun accepted => ?_) _
    cases accepted with
    | true => exact (mean_pure _ _ _ _).trans (aims _ _ _ _ off)
    | false =>
      change mean (do advance; retry attempt accept patience) cache stamp g = 0
      rw [mean_bind, advance, mean_modify]
      exact ih _ _

theorem mean_visit_off (aims : Aims target g) (n : Node Exact) (fresh : Bool) (here : Progress Exact)
    (off : ¬ Follows here.trace.choices target) (cache : Cache Exact) (stamp : Nat) :
    mean (visit (Law.source parts) patience p n fresh here) cache stamp g = 0 := by
  -- A trace only grows, so a traversal that has left the way to the target never comes back to it.
  induction n generalizing fresh here cache stamp g with
  | leaf l => exact mean_visitLeaf_off aims l fresh here off cache stamp
  | weightedMap n project ih =>
    rw [mean_visit_map]
    exact ih (aims.worth _) fresh (here.advance .map) off cache stamp
  | weightedBind n dependent combine ih ihDependent =>
    rw [mean_visit_bind]
    refine ih (fun a there cache stamp off => ?_) fresh (here.advance .bind) off cache stamp
    exact ihDependent _ _ (aims.worth _) fresh (there.advance .bind) off cache _
  | filter n predicate ih =>
    exact mean_retry_off (fun cache stamp h aims => ih aims true (here.advance .filter) off cache stamp)
      aims cache stamp
  | unknown name => exact mean_throw _ _ _ _
  | broken fault => exact mean_throw _ _ _ _

end Off

namespace Choice

/-- What a proposal pays for a choice on its way: its density where it is drawn, nothing where it is
kept, and there is no way on where another value is kept. -/
noncomputable def toll (kept : Choice Exact → Option (Choice Exact)) (c : Choice Exact) : ℝ :=
  match kept c with
  | some old => counted (old.value = c.value) 1
  | none => c.chance

/-- A choice as a proposal records it again. -/
structure Replays (kept : Choice Exact → Option (Choice Exact)) (c c' : Choice Exact) : Prop where
  address : c'.address = c.address
  distribution : c'.leaf.distribution = c.leaf.distribution
  value : c'.value = c.value
  logScore : c'.logScore = ((kept c).map (·.logScore)).getD c.logScore
  reused : c'.reused = (kept c).isSome

end Choice

section On

open Traversal

variable {parts patience : Nat} {p : Proposal Exact} {target : List (Choice Exact)}
  {g : Sample Exact × Progress Exact → Cache Exact → Nat → ℝ}
  {kept : Choice Exact → Option (Choice Exact)} {built start start' : Nat}

/-- The cache shows nothing new but leaves of these choices. -/
def Extends (ids : Renaming) (choices : List (Choice Exact)) (cache cache' : Cache Exact) : Prop :=
  ∀ id, cache.get? id = none → (∀ c ∈ choices, ¬ ids id c.leaf.id) → cache'.get? id = none

theorem off_record {here : Progress Exact} {c : Choice Exact}
    (place : target[here.trace.choices.length]? = some c) (l : Leaf Exact) {v : Value Exact}
    (differs : v ≠ c.value) (s : Number Exact) (reused : Bool) :
    ¬ Follows (here.record l v s reused).trace.choices target :=
  not_follows_record place differs

theorem mean_visitFresh_on {l : Leaf Exact} {c : Choice Exact} (sound : c.Sound)
    (same : l.distribution = c.leaf.distribution) (here : Progress Exact)
    (place : target[here.trace.choices.length]? = some c) (aims : Aims target g)
    {cache : Cache Exact} (unseen : cache.get? l.id = none) (stamp : Nat) :
    mean (visitFresh (Law.source parts) l here) cache stamp g = c.chance *
      g (.ofValue c.value, here.record l c.value c.logScore false) (cache.put l.id c.value) stamp := by
  obtain ⟨w, table, supported, listed⟩ := sound.listed
  have tabular : l.distribution.Tabular := same ▸ sound.tabular
  have chance : l.chance c.value = c.chance := by
    rw [Choice.chance, Leaf.chance, Leaf.chance, same]
  have scored : l.distribution.logDensity c.value = .ok c.logScore := by
    rw [same]
    exact sound.scored
  simp only [visitFresh, mean_bind]
  rw [mean_sample _ _ unseen, Leaf.mean_law tabular ⟨table, by rw [same, supported], listed⟩, chance,
    mean_record, scored, Outcome.worth]
  -- Any other value of the table leads off the way.
  intro v differs
  rw [mean_record]
  exact worth_eq_zero (fun s => aims _ _ _ _ (off_record place l differs s false)) _

theorem mean_visitLeaf_on {l : Leaf Exact} {c : Choice Exact} (sound : c.Sound)
    (same : l.distribution = c.leaf.distribution) (here : Progress Exact)
    (looked : p.kept here.address l = .ok (kept c))
    (place : target[here.trace.choices.length]? = some c) (aims : Aims target g)
    {cache : Cache Exact} (unseen : cache.get? l.id = none) (stamp : Nat) {G : ℝ}
    (arrives : (∀ old, kept c = some old → old.value = c.value) → ∀ s,
      s = ((kept c).map (·.logScore)).getD c.logScore →
      g (.ofValue c.value, here.record l c.value s (kept c).isSome) (cache.put l.id c.value) stamp = G) :
    mean (visitLeaf (Law.source parts) p false l here) cache stamp g = c.toll kept * G := by
  unfold visitLeaf
  split
  · next v point => exact absurd (same.symm.trans point) (sound.tabular.ne_constant v)
  · have absent : (false || cache.contains l.id) = false := by
      simp [Cache.contains, unseen]
    unfold visitChoice
    rw [mean_get, absent]
    simp only [Bool.false_eq_true, if_false]
    rw [mean_bind, mean_ofOutcome, looked, Outcome.worth]
    unfold Choice.toll
    cases keeps : kept c with
    | some old =>
      simp only [visitKept, mean_bind, mean_modify, mean_pure]
      by_cases agree : old.value = c.value
      · rw [counted_pos agree, one_mul, agree]
        simp only [keeps] at arrives
        exact arrives (by simp [agree]) _ rfl
      · rw [counted_neg agree, zero_mul]
        exact aims _ _ _ _ (off_record place l agree _ _)
    | none =>
      simp only [keeps] at arrives
      rw [← arrives (by simp) c.logScore rfl]
      exact mean_visitFresh_on sound same here place aims unseen stamp

/-- What a proposal has before it on the way to the target: the next choices there, each of which is
looked up where the target has it, and no value is known for their leaves. -/
structure Ahead (p : Proposal Exact) (kept : Choice Exact → Option (Choice Exact))
    (target : List (Choice Exact)) (ids : Renaming) (choices : List (Choice Exact)) (trace : Trace Exact)
    (cache : Cache Exact) : Prop where
  place : choices <+: target.drop trace.choices.length
  looked : ∀ c ∈ choices, ∀ id, ids id c.leaf.id →
    p.kept c.address ⟨id, c.leaf.distribution⟩ = .ok (kept c)
  unseen : ∀ c ∈ choices, ∀ id, ids id c.leaf.id → cache.get? id = none
  once : (choices.map (·.leaf.id)).Nodup

/-- The choices have been recorded again, and the cache shows nothing new but them. -/
structure Passed (kept : Choice Exact → Option (Choice Exact)) (ids : Renaming)
    (choices replayed : List (Choice Exact)) (cache cache' : Cache Exact) : Prop where
  replays : List.Forall₂ (Choice.Replays kept) choices replayed
  only : Extends ids choices cache cache'

section Stretch

variable {ids : Renaming} {c : Choice Exact} {choices choices' replayed replayed' : List (Choice Exact)}
  {trace : Trace Exact} {cache cache₁ cache₂ : Cache Exact}

theorem Passed.append (passed : Passed kept ids choices replayed cache cache₁)
    (passed' : Passed kept ids choices' replayed' cache₁ cache₂) :
    Passed kept ids (choices ++ choices') (replayed ++ replayed') cache cache₂ where
  replays := List.rel_append passed.replays passed'.replays
  only := fun id absent other =>
    have ⟨before, after⟩ := List.forall_mem_append.mp other
    passed'.only id (passed.only id absent before) after

namespace Ahead

theorem head (ahead : Ahead p kept target ids (c :: choices) trace cache) :
    target[trace.choices.length]? = some c := by
  obtain ⟨rest, split⟩ := ahead.place
  rw [← List.head?_drop, ← split]
  rfl

theorem left (ahead : Ahead p kept target ids (choices ++ choices') trace cache) :
    Ahead p kept target ids choices trace cache where
  place := (List.prefix_append choices choices').trans ahead.place
  looked c member := ahead.looked c (List.mem_append_left _ member)
  unseen c member := ahead.unseen c (List.mem_append_left _ member)
  once := (List.nodup_append.mp (List.map_append ▸ ahead.once)).1

theorem right (ahead : Ahead p kept target ids (choices ++ choices') trace cache)
    (passed : Passed kept ids choices replayed cache cache₁)
    (unique : ∀ a b b', ids a b → ids a b' → b = b') :
    Ahead p kept target ids choices' ⟨trace.choices ++ replayed⟩ cache₁ := by
  obtain ⟨-, once, apart⟩ := List.nodup_append.mp (List.map_append ▸ ahead.once)
  refine ⟨?_, fun c member => ahead.looked c (List.mem_append_right _ member), ?_, once⟩
  · obtain ⟨rest, split⟩ := ahead.place
    rw [List.length_append, ← passed.replays.length_eq, ← List.drop_drop, ← split, List.append_assoc,
      List.drop_left]
    exact List.prefix_append _ _
  · -- An identity that stands for a leaf further on was none of those passed.
    intro c member id related
    refine passed.only id (ahead.unseen c (List.mem_append_right _ member) id related) ?_
    intro d member' related'
    exact apart d.leaf.id (List.mem_map_of_mem member') c.leaf.id (List.mem_map_of_mem member)
      (unique _ _ _ related' related)

end Ahead

end Stretch

theorem Renaming.shift_unique {a b b' : ObjectId} (early : built ≤ start)
    (first : shift built start start' a b) (second : shift built start start' a b') : b = b' := by
  obtain ⟨rfl, old⟩ | ⟨d, i, rfl, rfl⟩ := first <;> obtain ⟨rfl, old'⟩ | ⟨d', i', same, rfl⟩ := second
  · rfl
  · rw [same] at old
    simp only at old
    omega
  · simp only at old'
    omega
  · simp only [ObjectId.mk.injEq, Nat.add_left_cancel_iff] at same
    rw [same.1, same.2]

/-- On the way to the target, a proposal is worth what it is worth there, less the tolls. -/
theorem mean_visit_on {n n' : Node Exact} {address address' : Address} {stamp stamp' now : Nat}
    {choices : List (Choice Exact)} {a : Sample Exact}
    (records : Records n address stamp choices a address' stamp')
    (renamed : n'.Renamed (.shift built start start') n) (early : built ≤ start)
    (abreast : Abreast start start' now stamp) {trace : Trace Exact} {cache : Cache Exact}
    (ahead : Ahead p kept target (.shift built start start') choices trace cache)
    (aims : Aims target g) {G : ℝ}
    (arrives : (∀ c ∈ choices, ∀ old, kept c = some old → old.value = c.value) →
      ∀ replayed cache' now', Passed kept (.shift built start start') choices replayed cache cache' →
      Abreast start start' now' stamp' →
      g (a, ⟨address', ⟨trace.choices ++ replayed⟩⟩) cache' now' = G) :
    mean (visit (Law.source parts) patience p n' false ⟨address, trace⟩) cache now g =
      (choices.map (Choice.toll kept)).prod * G := by
  -- Each part of the records is passed in turn, and what is ahead after it is the rest.
  induction records generalizing n' now trace cache g G with
  | @constant l v address stamp point =>
    cases renamed with
    | @leaf _ l' _ _ same =>
      have free : visitLeaf (m := Chance) (Law.source parts) p false l' ⟨address, trace⟩ =
          pure (.ofValue v, ⟨address, trace⟩) := by
        unfold visitLeaf
        rw [same, point]
      rw [visit, free, mean_pure, List.map_nil, List.prod_nil, one_mul]
      have there := arrives (by simp) [] cache now ⟨.nil, fun _ absent _ => absent⟩ abreast
      rwa [List.append_nil] at there
  | @leaf l c address stamp sound object location =>
    subst object location
    cases renamed with
    | @leaf _ l' _ ids same =>
      have known : p.kept c.address l' = .ok (kept c) := by
        have found := ahead.looked c (by simp) l'.id ids
        rwa [← same] at found
      rw [visit, List.map_singleton, List.prod_singleton]
      refine mean_visitLeaf_on sound same ⟨c.address, trace⟩ known ahead.head aims
        (ahead.unseen c (by simp) l'.id ids) now fun agree s score => ?_
      refine arrives (by simpa using agree) [⟨c.address, l', c.value, s, (kept c).isSome⟩] _ now
        ⟨.cons ⟨rfl, same, rfl, score, rfl⟩ .nil, fun id absent other => ?_⟩ abreast
      have apart : l'.id ≠ id := fun same => other c (by simp) (same ▸ ids)
      rw [Cache.get?_put_of_ne apart, absent]
  | weightedMap inner projects result ih =>
    cases renamed with
    | weightedMap source =>
      rw [mean_visit_map]
      refine ih source abreast ahead (aims.worth _) ?_
      intro agree replayed cache' now' passed abreast
      rw [projects, Outcome.ok_bind, result]
      exact arrives agree replayed cache' now' passed abreast
  | weightedBind first second combines result ih ih' =>
    cases renamed with
    | weightedBind source calls =>
      rw [mean_visit_bind, List.map_append, List.prod_append, mul_assoc]
      refine ih source abreast ahead.left (fun _ there _ _ off => ?_) ?_
      · exact mean_visit_off (aims.worth _) _ _ (there.advance .bind) off _ _
      intro agree replayed cache₁ now₁ passed abreast
      have ahead' := ahead.right passed fun _ _ _ => Renaming.shift_unique early
      refine ih' ((calls _ now₁ _).mono fun _ _ => Renaming.shift_extend abreast) abreast.succ ahead'
        (aims.worth _) ?_
      intro agree' replayed' cache₂ now₂ passed' abreast
      rw [combines, Outcome.ok_bind, result, Outcome.worth, List.append_assoc]
      exact arrives (List.forall_mem_append.mpr ⟨agree, agree'⟩) (replayed ++ replayed') cache₂ now₂
        (passed.append passed') abreast

end On

end ChanceGraph
