import ChanceGraph.Fault
import Mathlib

/-!
Computations that may fail: what it takes for a compound one to succeed, and how those with a state
run.
-/

set_option autoImplicit false

namespace ChanceGraph

theorem exists_of_forall₂ {α β : Type} {R : α → β → Prop} {xs : List α} {ys : List β}
    (related : List.Forall₂ R xs ys) {y : β} (member : y ∈ ys) : ∃ x ∈ xs, R x y := by
  induction related with
  | nil => cases member
  | @cons x y' xs ys head _ ih =>
    rcases List.mem_cons.mp member with rfl | member
    · exact ⟨x, List.mem_cons_self, head⟩
    · obtain ⟨x', member, tail⟩ := ih member
      exact ⟨x', List.mem_cons_of_mem _ member, tail⟩

namespace Outcome

variable {S α β γ : Type}

theorem bind_ok {x : Outcome S α} {f : α → Outcome S β} {b : β} :
    x >>= f = .ok b ↔ ∃ a, x = .ok a ∧ f a = .ok b := by
  cases x with
  | error fault => simp [bind, Except.bind]
  | ok a => simp [bind, Except.bind]

theorem pure_ok {a b : α} : (pure a : Outcome S α) = .ok b ↔ a = b := by
  simp [pure, Except.pure]

theorem ite_ok {c : Prop} [Decidable c] {x y : Outcome S α} {a : α} :
    (if c then x else y) = .ok a ↔ (c ∧ x = .ok a) ∨ (¬ c ∧ y = .ok a) := by
  split <;> simp [*]

@[simp] theorem throw_ne_ok {fault : Fault S} {a : α} : (throw fault : Outcome S α) ≠ .ok a := nofun

@[simp] theorem ok_bind (a : α) (f : α → Outcome S β) :
    ((.ok a : Outcome S α) >>= f) = f a := rfl

theorem forM_ok {f : α → Outcome S Unit} {xs : List α} : xs.forM f = .ok () ↔ ∀ x ∈ xs, f x = .ok () := by
  induction xs with
  | nil => simp [pure, Except.pure]
  | cons x xs ih =>
    change (f x >>= fun _ => xs.forM f) = .ok () ↔ _
    rw [bind_ok, List.forall_mem_cons, ← ih]
    exact ⟨fun ⟨_, first, others⟩ => ⟨first, others⟩, fun ⟨first, others⟩ => ⟨(), first, others⟩⟩

theorem mapM_ok {f : α → Outcome S β} {xs : List α} {ys : List β} :
    xs.mapM f = .ok ys ↔ List.Forall₂ (fun x y => f x = .ok y) xs ys := by
  induction xs generalizing ys with
  | nil =>
    rw [List.mapM_nil, pure_ok, List.forall₂_nil_left_iff]
    exact eq_comm
  | cons x xs ih =>
    rw [List.mapM_cons, bind_ok]
    simp only [bind_ok, pure_ok, ih]
    constructor
    · rintro ⟨y, head, ys, tail, rfl⟩
      exact .cons head tail
    · rintro (_ | ⟨head, tail⟩)
      exact ⟨_, head, _, tail, rfl⟩

theorem mapM_eq_map {f : α → Outcome S β} {g : α → β} {xs : List α} (each : ∀ x ∈ xs, f x = .ok (g x)) :
    xs.mapM f = .ok (xs.map g) := by
  rw [mapM_ok, List.forall₂_map_right_iff, List.forall₂_same]
  exact each

theorem mem_of_mapM {f : α → Outcome S β} {xs : List α} {ys : List β}
    (mapped : xs.mapM f = .ok ys) {x : α} (member : x ∈ xs) : ∃ y ∈ ys, f x = .ok y :=
  exists_of_forall₂ (mapM_ok.mp mapped).flip member

theorem exists_of_mem_mapM {f : α → Outcome S β} {xs : List α} {ys : List β}
    (mapped : xs.mapM f = .ok ys) {y : β} (member : y ∈ ys) : ∃ x ∈ xs, f x = .ok y :=
  exists_of_forall₂ (mapM_ok.mp mapped) member

theorem mapM_total {f : α → Outcome S β} {xs : List α} (each : ∀ x ∈ xs, ∃ y, f x = .ok y) :
    ∃ ys, xs.mapM f = .ok ys := by
  induction xs with
  | nil => exact ⟨[], rfl⟩
  | cons x xs ih =>
    have ⟨⟨y, head⟩, tail⟩ := List.forall_mem_cons.mp each
    obtain ⟨ys, mapped⟩ := ih tail
    exact ⟨y :: ys, by rw [List.mapM_cons, head, ok_bind, mapped]; rfl⟩

theorem foldlM_preserves {f : β → α → Outcome S β} {P : β → Prop}
    {xs : List α} (kept : ∀ b, ∀ a ∈ xs, ∀ b', P b → f b a = .ok b' → P b') {b b' : β} (start : P b)
    (folded : xs.foldlM f b = .ok b') : P b' := by
  induction xs generalizing b with
  | nil =>
    cases folded
    exact start
  | cons x xs ih =>
    rw [List.foldlM_cons] at folded
    obtain ⟨next, stepped, folded⟩ := bind_ok.mp folded
    obtain ⟨first, others⟩ := List.forall_mem_cons.mp fun a member b => kept b a member
    exact ih (fun b a member => others a member b) (first b next start stepped) folded

theorem map_mapM (f : α → Outcome S β) (g : β → γ) (xs : List α) :
    List.map g <$> xs.mapM f = xs.mapM fun x => g <$> f x := by
  induction xs with
  | nil => rfl
  | cons x xs ih => simp only [List.mapM_cons, ← ih, map_bind, bind_map_left, map_pure, List.map_cons]

theorem mem_of_filterAuxM {f : α → Outcome S Bool} {xs before ys : List α}
    (filtered : List.filterAuxM f xs before = .ok ys) {x : α}
    (member : x ∈ before ∨ x ∈ xs ∧ f x = .ok true) : x ∈ ys := by
  induction xs generalizing before with
  | nil =>
    obtain rfl := pure_ok.mp filtered
    simpa using member
  | cons y rest ih =>
    obtain ⟨keep, decided, filtered⟩ := bind_ok.mp filtered
    apply ih filtered
    rcases member with earlier | ⟨member, holds⟩
    · left
      cases keep <;> simp [earlier]
    · rcases List.mem_cons.mp member with rfl | member
      · rw [holds, Except.ok.injEq] at decided
        simp [← decided]
      · exact .inr ⟨member, holds⟩

theorem mem_of_filterM {f : α → Outcome S Bool} {xs ys : List α} (filtered : xs.filterM f = .ok ys)
    {x : α} (member : x ∈ xs) (holds : f x = .ok true) : x ∈ ys := by
  obtain ⟨zs, kept, reversed⟩ := bind_ok.mp filtered
  obtain rfl := pure_ok.mp reversed
  exact List.mem_reverse.mpr (mem_of_filterAuxM kept (.inr ⟨member, holds⟩))

theorem holds_of_mem_filterAuxM {f : α → Outcome S Bool} {xs before ys : List α}
    (filtered : List.filterAuxM f xs before = .ok ys) {y : α} (member : y ∈ ys) :
    y ∈ before ∨ y ∈ xs ∧ f y = .ok true := by
  induction xs generalizing before with
  | nil =>
    obtain rfl := pure_ok.mp filtered
    exact .inl member
  | cons x rest ih =>
    obtain ⟨keep, decided, filtered⟩ := bind_ok.mp filtered
    rcases ih filtered with earlier | ⟨later, holds⟩
    · cases keep with
      | false => exact .inl earlier
      | true =>
        rcases List.mem_cons.mp earlier with rfl | earlier
        · exact .inr ⟨List.mem_cons_self, decided⟩
        · exact .inl earlier
    · exact .inr ⟨List.mem_cons_of_mem _ later, holds⟩

theorem holds_of_mem_filterM {f : α → Outcome S Bool} {xs ys : List α} (filtered : xs.filterM f = .ok ys)
    {y : α} (member : y ∈ ys) : y ∈ xs ∧ f y = .ok true := by
  obtain ⟨zs, kept, reversed⟩ := bind_ok.mp filtered
  obtain rfl := pure_ok.mp reversed
  simpa using holds_of_mem_filterAuxM kept (List.mem_reverse.mp member)

theorem filterAuxM_map (f : β → Outcome S Bool) (g : α → β) (xs before : List α) :
    List.filterAuxM f (xs.map g) (before.map g) =
      List.map g <$> List.filterAuxM (fun x => f (g x)) xs before := by
  induction xs generalizing before with
  | nil => rfl
  | cons x xs ih =>
    simp only [List.map_cons, List.filterAuxM, map_bind]
    refine bind_congr fun keep => ?_
    rw [← ih]
    cases keep <;> rfl

theorem filterM_map (f : β → Outcome S Bool) (g : α → β) (xs : List α) :
    (xs.map g).filterM f = List.map g <$> xs.filterM fun x => f (g x) := by
  simp only [List.filterM, map_bind, map_pure]
  rw [← List.map_nil (f := g), filterAuxM_map]
  simp [List.map_reverse]

theorem filterAuxM_decided {f : α → Outcome S Bool} {keep : α → Bool} {xs : List α}
    (decided : ∀ x ∈ xs, f x = .ok (keep x)) (before : List α) :
    List.filterAuxM f xs before = .ok ((xs.filter keep).reverse ++ before) := by
  induction xs generalizing before with
  | nil => rfl
  | cons x rest ih =>
    have ⟨head, tail⟩ := List.forall_mem_cons.mp decided
    rw [List.filterAuxM, head, ok_bind, ih tail]
    cases known : keep x <;> simp [known]

theorem filterM_decided {f : α → Outcome S Bool} {keep : α → Bool} {xs : List α}
    (decided : ∀ x ∈ xs, f x = .ok (keep x)) : xs.filterM f = .ok (xs.filter keep) := by
  rw [List.filterM, filterAuxM_decided decided, ok_bind, List.append_nil, List.reverse_reverse]
  rfl

end Outcome

section Stateful

variable {ε σ α : Type} {m : Type → Type} [Monad m] [LawfulMonad m]

theorem run_get_bind (k : σ → ExceptT ε (StateT σ m) α) (s : σ) :
    (do k (← get)).run.run s = (k s).run.run s := by
  simp only [get, getThe, MonadStateOf.get, liftM, monadLift, MonadLift.monadLift,
    ExceptT.run_bind_lift, StateT.run_bind]
  exact pure_bind (s, s) _

theorem run_modify (f : σ → σ) (s : σ) :
    (modify f : ExceptT ε (StateT σ m) PUnit).run.run s = pure (.ok ⟨⟩, f s) := by
  simp only [modify, modifyGet, MonadStateOf.modifyGet, monadLift, MonadLift.monadLift,
    ExceptT.run_lift, StateT.run_map]
  exact map_pure _ (PUnit.unit, f s)

theorem run_bind_stateM {β : Type} (t : ExceptT ε (StateM σ) α) (f : α → ExceptT ε (StateM σ) β) (s : σ) :
    (t >>= f).run.run s = match t.run.run s with
      | (.ok a, s') => (f a).run.run s'
      | (.error e, s') => (.error e, s') := by
  rw [ExceptT.run_bind, StateT.run_bind]
  change (match (t.run.run s : Except ε α × σ) with | (r, s') => _) = _
  rcases t.run.run s with ⟨_ | a, s'⟩ <;> rfl

section Part

/-- Runs a computation on a part of the state. -/
def onPart {ε σ τ α : Type} (part : τ → σ) (put : τ → σ → τ) (t : ExceptT ε (StateT σ m) α) :
    ExceptT ε (StateT τ m) α :=
  ExceptT.mk fun s => do
    let (r, inner) ← t.run.run (part s)
    return (r, put s inner)

variable {ε σ τ α β : Type} (part : τ → σ) (put : τ → σ → τ) (t : ExceptT ε (StateT σ m) α)

theorem onPart_bind (f : α → Except ε β) : onPart part put (t >>= fun a => ExceptT.mk (pure (f a))) =
    onPart part put t >>= fun a => ExceptT.mk (pure (f a)) := by
  apply ExceptT.ext
  apply StateT.ext
  intro s
  rw [ExceptT.run_bind, StateT.run_bind]
  change ((t >>= fun a => ExceptT.mk (pure (f a))).run.run (part s) >>= fun r => pure (r.1, put s r.2)) =
    (t.run.run (part s) >>= fun r => pure (r.1, put s r.2)) >>= _
  rw [ExceptT.run_bind, StateT.run_bind, bind_assoc, bind_assoc]
  refine bind_congr fun ⟨r, inner⟩ => ?_
  cases r <;> simp

theorem onPart_map (f : α → β) : onPart part put (f <$> t) = f <$> onPart part put t := by
  have pointwise {n : Type → Type} [Monad n] [LawfulMonad n] (u : ExceptT ε n α) :
      f <$> u = u >>= fun a => ExceptT.mk (pure (.ok (f a))) := map_eq_pure_bind f u
  rw [pointwise, pointwise, onPart_bind]

end Part

end Stateful

end ChanceGraph
