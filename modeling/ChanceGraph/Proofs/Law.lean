import ChanceGraph.Chain
import ChanceGraph.Proofs.ExactSum

/-!
Traversals under the law of their draws: a leaf is drawn by its table, and what a traversal leads to
has a mean.
-/

set_option autoImplicit false

namespace ChanceGraph

open Filter Topology

theorem sum_swap {α β : Type} (xs : List α) (ys : List β) (f : α → β → ℝ) :
    (xs.map fun x => (ys.map fun y => f x y).sum).sum =
      (ys.map fun y => (xs.map fun x => f x y).sum).sum := by
  induction xs with
  | nil => simp
  | cons x xs ih => simp [ih, List.sum_map_add]

/-- Finitely many outcomes, each with its probability. -/
structure Law (α : Type) where
  outcomes : List (α × ℝ)

namespace Law

variable {α β : Type}

noncomputable instance : Monad Law where
  pure a := ⟨[(a, 1)]⟩
  bind x f := ⟨x.outcomes.flatMap fun a => (f a.1).outcomes.map fun b => (b.1, a.2 * b.2)⟩

instance : LawfulMonad Law :=
  LawfulMonad.mk' Law
    (fun ⟨outcomes⟩ => by
      change Law.mk (outcomes.flatMap fun a => [(a.1, a.2 * 1)]) = _
      simp)
    (fun a f => by
      change Law.mk ([(a, 1)].flatMap fun a => (f a.1).outcomes.map fun b => (b.1, a.2 * b.2)) = _
      simp)
    (fun ⟨outcomes⟩ f g => by
      change Law.mk ((outcomes.flatMap fun a => (f a.1).outcomes.map fun b => (b.1, a.2 * b.2)).flatMap
        fun b => (g b.1).outcomes.map fun c => (c.1, b.2 * c.2)) =
        Law.mk (outcomes.flatMap fun a => ((f a.1).outcomes.flatMap fun b =>
          (g b.1).outcomes.map fun c => (c.1, b.2 * c.2)).map fun c => (c.1, a.2 * c.2))
      simp [List.flatMap_assoc, List.flatMap_map, List.map_flatMap, mul_assoc,
        Function.comp_def])

noncomputable def mean (x : Law α) (g : α → ℝ) : ℝ :=
  (x.outcomes.map fun a => a.2 * g a.1).sum

theorem mean_pure (a : α) (g : α → ℝ) : (pure a : Law α).mean g = g a := by
  change (([(a, 1)] : List (α × ℝ)).map fun b => b.2 * g b.1).sum = _
  simp

theorem mean_bind (x : Law α) (f : α → Law β) (g : β → ℝ) :
    (x >>= f).mean g = x.mean fun a => (f a).mean g := by
  obtain ⟨outcomes⟩ := x
  change ((outcomes.flatMap fun a => (f a.1).outcomes.map fun b => (b.1, a.2 * b.2)).map
    fun b => b.2 * g b.1).sum = (outcomes.map fun a => a.2 * (f a.1).mean g).sum
  induction outcomes with
  | nil => rfl
  | cons a outcomes ih =>
    simp only [List.flatMap_cons, List.map_append, List.sum_append, List.map_cons, List.sum_cons,
      ih]
    congr 1
    simp [mean, ← List.sum_map_mul_left, mul_assoc, Function.comp_def]

theorem mean_eq_zero {x : Law α} {g : α → ℝ} (vanishes : ∀ a, g a = 0) : x.mean g = 0 := by
  simp [mean, vanishes]

theorem mean_add_mul (x : Law α) (f g : α → ℝ) (c : ℝ) :
    (x.mean fun a => f a + c * g a) = x.mean f + c * x.mean g := by
  simp only [mean, mul_add, mul_left_comm _ c, List.sum_map_add, List.sum_map_mul_left]

theorem tendsto_mean (x : Law α) {f : ℕ → α → ℝ} {g : α → ℝ}
    (each : ∀ a, Tendsto (f · a) atTop (𝓝 (g a))) :
    Tendsto (fun i => x.mean (f i)) atTop (𝓝 (x.mean g)) :=
  tendsto_list_sum x.outcomes fun a _ => (each a.1).const_mul a.2

end Law

/-- A fault is worth nothing. -/
@[simp] def Outcome.worth {α : Type} (g : α → ℝ) : Outcome Exact α → ℝ
  | .ok a => g a
  | .error _ => 0

/-- Counts only where the predicate gives the answer. -/
noncomputable def answering (p : Value Exact → Outcome Exact Bool) (answer : Bool)
    (h : Value Exact → ℝ) (v : Value Exact) : ℝ :=
  Outcome.worth (fun b => if b = answer then h v else 0) (p v)

section Answering

variable {p : Value Exact → Outcome Exact Bool} {v : Value Exact}

theorem answering_ok {b : Bool} (decided : p v = .ok b) (answer : Bool) (h : Value Exact → ℝ) :
    answering p answer h v = if b = answer then h v else 0 := by
  rw [answering, decided, Outcome.worth]

theorem answering_error {fault : Fault Exact} (failed : p v = .error fault) (answer : Bool)
    (h : Value Exact → ℝ) : answering p answer h v = 0 := by
  rw [answering, failed, Outcome.worth]

end Answering

/-- The values that a leaf may take, with their weights; a leaf without a table gives a fault. -/
noncomputable def Leaf.law (l : Leaf Exact) : Law (Outcome Exact (Value Exact)) :=
  match l.distribution.support with
  | .ok table => ⟨table.map fun w => (.ok w.value, w.weight.toExact.toReal)⟩
  | .error fault => pure (.error fault)

/-- The middle of one of equally many equal parts of [0, 1). -/
noncomputable def Law.uniform (parts : Nat) : Law (Outcome Exact Exact) :=
  ⟨(List.range parts).map fun i : Nat => (.ok (.finite ((i + 1 / 2) / parts)), 1 / parts)⟩

abbrev Chance := StateT Nat Law

/-- Draws by the tables of the leaves; stamps are counted. -/
noncomputable def Law.source (parts : Nat) : Source Chance Exact where
  draw l := StateT.lift l.law
  uniform := StateT.lift (Law.uniform parts)
  stamp := modifyGet fun stamp => (stamp, stamp + 1)

namespace Traversal

variable {α β : Type}

/-- What a traversal is worth on average, from a cache and a next stamp. -/
noncomputable def mean (t : Traversal Chance Exact α) (cache : Cache Exact) (stamp : Nat)
    (g : α → Cache Exact → Nat → ℝ) : ℝ :=
  ((t.run.run cache).run stamp).mean fun r => Outcome.worth (fun a => g a r.1.2 r.2) r.1.1

variable (cache : Cache Exact) (stamp : Nat)

theorem mean_pure (a : α) (g : α → Cache Exact → Nat → ℝ) :
    mean (pure a) cache stamp g = g a cache stamp :=
  Law.mean_pure (((.ok a : Outcome Exact α), cache), stamp) _

theorem mean_eq_zero {t : Traversal Chance Exact α} {g : α → Cache Exact → Nat → ℝ}
    (vanishes : ∀ a cache stamp, g a cache stamp = 0) : mean t cache stamp g = 0 := by
  refine Law.mean_eq_zero fun r => ?_
  rcases r with ⟨⟨_ | a, cache⟩, stamp⟩
  · rfl
  · exact vanishes a cache stamp

theorem mean_throw (fault : Fault Exact) (g : α → Cache Exact → Nat → ℝ) :
    mean (throw fault) cache stamp g = 0 :=
  Law.mean_pure (((.error fault : Outcome Exact α), cache), stamp) _

theorem mean_bind (t : Traversal Chance Exact α) (f : α → Traversal Chance Exact β)
    (g : β → Cache Exact → Nat → ℝ) :
    mean (t >>= f) cache stamp g =
      mean t cache stamp fun a cache stamp => mean (f a) cache stamp g := by
  unfold mean
  rw [ExceptT.run_bind, StateT.run_bind, StateT.run_bind, Law.mean_bind]
  congr 1
  funext r
  rcases r with ⟨⟨_ | a, cache⟩, stamp⟩
  · exact Law.mean_pure _ _
  · rfl

theorem mean_get (k : Cache Exact → Traversal Chance Exact α) (g : α → Cache Exact → Nat → ℝ) :
    mean (do k (← get)) cache stamp g = mean (k cache) cache stamp g := by
  unfold mean
  rw [run_get_bind]

theorem mean_modify (f : Cache Exact → Cache Exact) (g : PUnit → Cache Exact → Nat → ℝ) :
    mean (modify f) cache stamp g = g ⟨⟩ (f cache) stamp := by
  unfold mean
  rw [run_modify]
  exact Law.mean_pure (((.ok ⟨⟩ : Outcome Exact PUnit), f cache), stamp) _

theorem mean_ofOutcome (r : Outcome Exact α) (g : α → Cache Exact → Nat → ℝ) :
    mean (ofOutcome r) cache stamp g = Outcome.worth (fun a => g a cache stamp) r :=
  Law.mean_pure ((r, cache), stamp) _

theorem mean_ofAction (x : Law (Outcome Exact α)) (g : α → Cache Exact → Nat → ℝ) :
    mean (ofAction (StateT.lift x)) cache stamp g =
      x.mean (Outcome.worth fun a => g a cache stamp) := by
  unfold mean
  change (((x >>= fun r => pure (r, stamp)) >>= fun r =>
    (pure ((r.1, cache), r.2) : Law ((Outcome Exact α × Cache Exact) × Nat)))).mean _ = _
  simp only [Law.mean_bind, Law.mean_pure]

theorem mean_fresh (parts : Nat) (g : Nat → Cache Exact → Nat → ℝ) :
    mean (fresh (Law.source parts)) cache stamp g = g stamp cache (stamp + 1) := by
  unfold mean
  change ((((pure (stamp, stamp + 1) : Law (Nat × Nat)) >>= fun r => pure (.ok r.1, r.2)) >>= fun r =>
    (pure ((r.1, cache), r.2) : Law ((Outcome Exact Nat × Cache Exact) × Nat)))).mean _ = _
  simp only [Law.mean_bind, Law.mean_pure, Outcome.worth]

theorem mean_sample {parts : Nat} {l : Leaf Exact} (absent : cache.get? l.id = none)
    (g : Value Exact → Cache Exact → Nat → ℝ) :
    mean (sample (Law.source parts) l) cache stamp g =
      l.law.mean (Outcome.worth fun v => g v (cache.put l.id v) stamp) := by
  unfold sample
  rw [mean_get]
  simp only [absent, mean_bind]
  rw [Law.source, mean_ofAction]
  simp only [mean_modify, mean_pure]

theorem mean_uniform {parts : Nat} (g : Exact → Cache Exact → Nat → ℝ) :
    mean (ofAction (Law.source parts).uniform) cache stamp g =
      ((List.range parts).map fun i : Nat =>
        1 / (parts : ℝ) * g (.finite ((i + 1 / 2) / parts)) cache stamp).sum := by
  rw [Law.source, mean_ofAction]
  simp [Law.mean, Law.uniform, Function.comp_def]

end Traversal

theorem index_middle {parts i : Nat} (below : i < parts) :
    Scalar.index (Exact.finite ((i + 1 / 2) / parts)) parts = i := by
  have positive : (0 : ℝ) < parts := by
    exact_mod_cast Nat.zero_lt_of_lt below
  -- Half a part off the ends, rounding down cannot leave the part.
  have floor : ⌊(i + 1 / 2 : ℝ)⌋ = (i : ℤ) := by
    rw [Int.floor_eq_iff]
    constructor <;> push_cast <;> linarith
  simp only [Scalar.index, Exact.ofNat_eq, Exact.finite_mul, Exact.finite_floor,
    div_mul_cancel₀ _ positive.ne', floor, Option.getD_some, Int.toNat_natCast]
  omega

end ChanceGraph
