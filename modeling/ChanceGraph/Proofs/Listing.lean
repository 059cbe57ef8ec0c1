import ChanceGraph.Enumerate
import ChanceGraph.Proofs.ExactSum
import ChanceGraph.Proofs.Runs

/-!
Enumeration as a map to weighted lists: a bind of graphs is listed as the bind of their lists, so graphs
may be rearranged by the laws of that bind.
-/

set_option autoImplicit false

namespace ChanceGraph

/-- Outcomes in order, each with the number that its weight is; none where the listing fails. -/
abbrev Listing := Option (List (Value Exact × Exact))

noncomputable def scaled (p : Exact) (x : Value Exact × Exact) : Value Exact × Exact :=
  (x.1, p * x.2)

theorem scaled_scaled (p q : Exact) (x : Value Exact × Exact) : scaled p (scaled q x) = scaled (p * q) x := by
  rw [scaled, scaled, scaled, Exact.mul_assoc]

theorem scaled_comm (p q : Exact) (x : Value Exact × Exact) : scaled p (scaled q x) = scaled q (scaled p x) := by
  rw [scaled_scaled, scaled_scaled, Exact.mul_comm]

theorem scaled_one : scaled 1 = id := by
  funext x
  rw [scaled, Exact.one_mul, id]

namespace Listing

noncomputable def one (v : Value Exact) : Listing :=
  some [(v, 1)]

/-- Each outcome is replaced by what is listed for it, with the weights multiplied. -/
noncomputable def gather (f : Value Exact → Listing) : List (Value Exact × Exact) → Listing
  | [] => some []
  | (v, p) :: rest => do
    let under ← f v
    let later ← gather f rest
    return under.map (scaled p) ++ later

variable {f g : Value Exact → Listing}

theorem gather_append (xs ys : List (Value Exact × Exact)) :
    gather f (xs ++ ys) = do return (← gather f xs) ++ (← gather f ys) := by
  induction xs with
  | nil => simp [gather]
  | cons x rest ih =>
    rw [List.cons_append, gather, gather, ih]
    simp only [bind_assoc, pure_bind, List.append_assoc]

theorem gather_scaled (p : Exact) (xs : List (Value Exact × Exact)) :
    gather f (xs.map (scaled p)) = List.map (scaled p) <$> gather f xs := by
  induction xs with
  | nil => rfl
  | cons x rest ih =>
    change (f x.1 >>= fun under => gather f (rest.map (scaled p)) >>= fun later =>
      pure (under.map (scaled (p * x.2)) ++ later)) = _
    rw [ih, gather]
    simp only [map_bind, bind_map_left, map_pure, List.map_append, List.map_map, Function.comp_def,
      scaled_scaled]

theorem gather_map_scaled (p : Exact) (xs : List (Value Exact × Exact)) :
    gather (fun v => List.map (scaled p) <$> f v) xs = List.map (scaled p) <$> gather f xs := by
  induction xs with
  | nil => rfl
  | cons x rest ih =>
    rw [gather, gather, ih]
    simp only [map_bind, bind_map_left, map_pure, List.map_append, List.map_map, Function.comp_def,
      scaled_comm x.2 p]

theorem gather_one (xs : List (Value Exact × Exact)) : gather one xs = some xs := by
  induction xs with
  | nil => rfl
  | cons x rest ih =>
    rw [gather, ih]
    change some ((x.1, x.2 * 1) :: rest) = _
    rw [Exact.mul_comm, Exact.one_mul]

theorem one_gather (v : Value Exact) : (one v >>= gather f) = f v := by
  change (f v >>= fun under => some (under.map (scaled 1) ++ [])) = _
  simp only [scaled_one, List.map_id, List.append_nil]
  exact bind_pure _

theorem gather_gather (xs : List (Value Exact × Exact)) :
    (gather f xs >>= gather g) = gather (fun v => f v >>= gather g) xs := by
  induction xs with
  | nil => rfl
  | cons x rest ih =>
    rw [gather, gather, ← ih]
    simp only [bind_assoc, pure_bind, gather_append, gather_scaled, bind_map_left]
    refine bind_congr fun under => ?_
    -- The two sides list what is under the first outcome before the rest, or after it.
    cases gather f rest <;> cases gather g under <;> rfl

theorem gather_total (total : ∀ v, ∃ under, f v = some under) (xs : List (Value Exact × Exact)) :
    ∃ ys, gather f xs = some ys := by
  induction xs with
  | nil => exact ⟨[], rfl⟩
  | cons x rest ih =>
    obtain ⟨under, first⟩ := total x.1
    obtain ⟨later, others⟩ := ih
    exact ⟨under.map (scaled x.2) ++ later, by rw [gather, first, others]; rfl⟩

end Listing

noncomputable def Weighted.entry (w : Weighted Exact) : Value Exact × Exact :=
  (w.value, w.weight.toExact)

namespace Outcome

/-- What is listed, where there is no fault. -/
noncomputable def listing (r : Outcome Exact (List (Weighted Exact))) : Listing :=
  List.map Weighted.entry <$> r.toOption

noncomputable def listingOne (r : Outcome Exact (Weighted Exact)) : Listing :=
  listing ((fun w => [w]) <$> r)

noncomputable def listingIf (r : Outcome Exact Bool) (v : Value Exact) : Listing := do
  return if ← r.toOption then [(v, 1)] else []

variable {α : Type}

theorem flatten_mapM_one (f : α → Outcome Exact (Weighted Exact)) (xs : List α) :
    (List.flatten <$> xs.mapM fun a => (fun w => [w]) <$> f a) = xs.mapM f := by
  induction xs with
  | nil => rfl
  | cons a rest ih =>
    rw [List.mapM_cons, List.mapM_cons, ← ih]
    simp only [map_bind, bind_map_left, map_pure, List.flatten_cons, List.singleton_append]

theorem flatten_mapM_if (f : α → Outcome Exact Bool) (xs before : List α) :
    List.filterAuxM f xs before = (fun kept => kept.flatten.reverse ++ before) <$>
      xs.mapM fun a => do return if ← f a then [a] else [] := by
  induction xs generalizing before with
  | nil => rfl
  | cons a rest ih =>
    rw [List.filterAuxM, List.mapM_cons]
    simp only [ih, bind_assoc, pure_bind, map_eq_pure_bind]
    refine bind_congr fun keep => bind_congr fun kept => ?_
    cases keep <;> simp

theorem filterM_eq (f : α → Outcome Exact Bool) (xs : List α) :
    xs.filterM f = List.flatten <$> xs.mapM fun a => do return if ← f a then [a] else [] := by
  rw [List.filterM, flatten_mapM_if]
  simp only [bind_map_left, List.append_nil, List.reverse_reverse]
  exact bind_pure_comp ..

/-- Outcomes that are listed one after the other are gathered. -/
theorem listing_flatten {f : Value Exact → Listing}
    {step : Weighted Exact → Outcome Exact (List (Weighted Exact))}
    (steps : ∀ a, (step a).listing = List.map (scaled a.weight.toExact) <$> f a.value)
    (xs : List (Weighted Exact)) :
    (List.flatten <$> xs.mapM step).listing = Listing.gather f (xs.map Weighted.entry) := by
  -- The steps have lists where their functions do, so both sides fail at the same item.
  induction xs with
  | nil => rfl
  | cons a rest ih =>
    have first := steps a
    rw [List.map_cons, Weighted.entry, Listing.gather, ← ih, List.mapM_cons]
    cases stepped : step a with
    | error fault =>
      rw [stepped] at first
      cases known : f a.value with
      | none => rfl
      | some under => simp [listing, Except.toOption, known] at first
    | ok ys =>
      rw [stepped] at first
      cases known : f a.value with
      | none => simp [listing, Except.toOption, known] at first
      | some under =>
        simp only [listing, Except.toOption, known, Option.map_eq_map, Option.map_some,
          Option.some.injEq] at first
        cases rest.mapM step with
        | error fault => rfl
        | ok zs =>
          change some ((ys ++ zs.flatten).map Weighted.entry) = some (under.map (scaled _) ++ _)
          rw [List.map_append, first]

end Outcome

namespace Node

noncomputable def listing (n : Node Exact) : Listing :=
  (enumerate n).listing

theorem listing_weightedMap (n : Node Exact) (project : Value Exact → Outcome Exact (Weighted Exact)) :
    (n.weightedMap project).listing = n.listing >>= Listing.gather fun v => (project v).listingOne := by
  have steps (a : Weighted Exact) : ((fun w => [w]) <$> projected project a).listing =
      List.map (scaled a.weight.toExact) <$> (project a.value).listingOne := by
    unfold projected
    cases project a.value with
    | error fault => rfl
    | ok b =>
      obtain ⟨c, product, weight⟩ := Number.mul_exact a.weight b.weight
      rw [Outcome.ok_bind, product]
      change some [(b.value, c.toExact)] = _
      rw [weight]
      rfl
  unfold listing
  rw [enumerate]
  cases enumerate n with
  | error fault => rfl
  | ok items =>
    rw [Outcome.ok_bind, ← Outcome.flatten_mapM_one]
    exact Outcome.listing_flatten steps items

theorem listing_weightedBind (n : Node Exact) (dependent : Value Exact → Nat → Node Exact)
    (combine : Value Exact → Value Exact → Outcome Exact (Weighted Exact)) :
    (n.weightedBind dependent combine).listing = n.listing >>= Listing.gather fun v =>
      (dependent v 0).listing >>= Listing.gather fun u => (combine v u).listingOne := by
  have each (a c : Weighted Exact) : ((fun w => [w]) <$> combined combine a c).listing =
      List.map (scaled c.weight.toExact) <$> List.map (scaled a.weight.toExact) <$>
        (combine a.value c.value).listingOne := by
    unfold combined
    cases combine a.value c.value with
    | error fault => rfl
    | ok r =>
      obtain ⟨x, both, weight⟩ := Number.mul_exact a.weight c.weight
      obtain ⟨y, all, weight'⟩ := Number.mul_exact x r.weight
      rw [Outcome.ok_bind, both, Outcome.ok_bind, all]
      change some [(r.value, y.toExact)] =
        some [(r.value, c.weight.toExact * (a.weight.toExact * r.weight.toExact))]
      rw [weight', weight, Exact.mul_comm a.weight.toExact, Exact.mul_assoc]
  -- The weight of the first value is common to all that its call lists.
  have steps (a : Weighted Exact) :
      (do (← enumerate (dependent a.value 0)).mapM (combined combine a)).listing =
        List.map (scaled a.weight.toExact) <$> ((dependent a.value 0).listing >>= Listing.gather fun u =>
          (combine a.value u).listingOne) := by
    unfold listing
    cases enumerate (dependent a.value 0) with
    | error fault => rfl
    | ok under =>
      rw [Outcome.ok_bind, ← Outcome.flatten_mapM_one]
      exact (Outcome.listing_flatten (each a) under).trans (Listing.gather_map_scaled _ _)
  unfold listing
  rw [enumerate]
  cases enumerate n with
  | error fault => rfl
  | ok items => exact Outcome.listing_flatten steps items

theorem listing_filter (n : Node Exact) (predicate : Value Exact → Outcome Exact Bool) :
    (n.filter predicate).listing = n.listing >>= Listing.gather fun v => (predicate v).listingIf v := by
  have steps (a : Weighted Exact) :
      (do return if ← predicate a.value then [a] else [] : Outcome Exact _).listing =
        List.map (scaled a.weight.toExact) <$> (predicate a.value).listingIf a.value := by
    cases predicate a.value with
    | error fault => rfl
    | ok keep =>
      cases keep with
      | false => rfl
      | true =>
        change some [(a.value, a.weight.toExact)] = some [(a.value, a.weight.toExact * 1)]
        rw [Exact.mul_comm, Exact.one_mul]
  unfold listing
  rw [enumerate]
  cases enumerate n with
  | error fault => rfl
  | ok items =>
    rw [Outcome.ok_bind, Outcome.filterM_eq]
    exact Outcome.listing_flatten steps items

theorem listing_constant (id : ObjectId) (v : Value Exact) : (constant id v).listing = Listing.one v := rfl

theorem listing_bind (n : Node Exact) (dependent : Value Exact → Nat → Node Exact) :
    (n.bind dependent second).listing = n.listing >>= Listing.gather fun v => (dependent v 0).listing := by
  rw [Node.bind, listing_weightedBind]
  congr 2
  funext v
  have single : (fun u : Value Exact => Outcome.listingOne (do return ⟨← second v u, .one⟩)) = Listing.one := rfl
  rw [single]
  cases (dependent v 0).listing with
  | none => rfl
  | some under => exact Listing.gather_one under

/-- The leaves have tables, and the functions of the program give a result for every value. -/
def Total : Node Exact → Prop
  | .leaf l => ∃ items, l.distribution.support = .ok items
  | .weightedMap n project => n.Total ∧ ∀ v, ∃ w, project v = .ok w
  | .weightedBind n dependent combine =>
    n.Total ∧ (∀ v, (dependent v 0).Total) ∧ ∀ v u, ∃ w, combine v u = .ok w
  | .filter n predicate => n.Total ∧ ∀ v, ∃ keep, predicate v = .ok keep
  | .unknown _ | .broken _ => False

theorem listing_total {n : Node Exact} (total : n.Total) : ∃ items, n.listing = some items := by
  induction n with
  | leaf l =>
    obtain ⟨items, table⟩ := total
    exact ⟨items.map Weighted.entry, by rw [listing, enumerate, table]; rfl⟩
  | weightedMap n project ih =>
    obtain ⟨items, listed⟩ := ih total.1
    rw [listing_weightedMap, listed]
    refine Listing.gather_total (fun v => ?_) items
    obtain ⟨w, known⟩ := total.2 v
    exact ⟨_, by rw [known]; rfl⟩
  | weightedBind n dependent combine ih ihCalls =>
    obtain ⟨items, listed⟩ := ih total.1
    rw [listing_weightedBind, listed]
    refine Listing.gather_total (fun v => ?_) items
    obtain ⟨under, called⟩ := ihCalls v 0 (total.2.1 v)
    rw [called]
    refine Listing.gather_total (fun u => ?_) under
    obtain ⟨w, known⟩ := total.2.2 v u
    exact ⟨_, by rw [known]; rfl⟩
  | filter n predicate ih =>
    obtain ⟨items, listed⟩ := ih total.1
    rw [listing_filter, listed]
    refine Listing.gather_total (fun v => ?_) items
    obtain ⟨keep, known⟩ := total.2 v
    exact ⟨_, by rw [known]; rfl⟩
  | unknown | broken => exact total.elim

/-- The laws by which graphs may be rearranged without a change of what is listed, or of its order; and
what is listed of a graph whose functions do not fail is a list. -/
theorem listing_laws (m : Node Exact) (f g : Value Exact → Nat → Node Exact) (v : Value Exact) (id : ObjectId)
    (ids : Value Exact → Nat → ObjectId) (h : Value Exact → Outcome Exact (Weighted Exact))
    (p : Value Exact → Outcome Exact Bool) :
    ((constant id v).bind f second).listing = (f v 0).listing ∧
    (m.bind (fun x k => constant (ids x k) x) second).listing = m.listing ∧
    ((m.bind f second).bind g second).listing =
      (m.bind (fun x k => (f x k).bind g second) second).listing ∧
    (m.weightedMap h).listing =
      (m.weightedBind (fun x k => constant (ids x k) x) fun x _ => h x).listing ∧
    ((m.bind f second).filter p).listing = (m.bind (fun x k => (f x k).filter p) second).listing ∧
    ∀ n : Node Exact, n.Total → ∃ items, n.listing = some items := by
  refine ⟨?_, ?_, ?_, ?_, ?_, fun _ => listing_total⟩
  · rw [listing_bind, listing_constant, Listing.one_gather]
  · simp only [listing_bind, listing_constant]
    exact (bind_congr fun items => Listing.gather_one items).trans (bind_pure _)
  · simp only [listing_bind, bind_assoc, Listing.gather_gather]
  · simp only [listing_weightedMap, listing_weightedBind, listing_constant, Listing.one_gather]
  · simp only [listing_filter, listing_bind, bind_assoc, Listing.gather_gather]

/-- Tossed again where it shows heads. -/
noncomputable def tossAgain : Value Exact → Nat → Node Exact
  | .bool true, k => .leaf ⟨⟨k, 0⟩, (fairFlip 0).distribution⟩
  | v, k => constant ⟨k, 0⟩ v

theorem listing_toss (id : ObjectId) : (leaf ⟨id, (fairFlip 0).distribution⟩ : Node Exact).listing =
    some [(.bool true, .finite (1 / 2)), (.bool false, .finite (1 / 2))] := by
  change some [(_, Exact.finite _), (_, Exact.finite _)] = _
  norm_num

theorem total_tossAgain (v : Value Exact) (k : Nat) : (tossAgain v k).Total := by
  unfold tossAgain
  split <;> exact ⟨_, rfl⟩

theorem listing_laws_tosses :
    (((leaf (fairFlip 0)).bind tossAgain second).bind tossAgain second).Total ∧
    (((leaf (fairFlip 0)).bind tossAgain second).bind tossAgain second).listing =
      some [(.bool true, .finite (1 / 8)), (.bool false, .finite (1 / 8)),
        (.bool false, .finite (1 / 4)), (.bool false, .finite (1 / 2))] ∧
    ((leaf (fairFlip 0)).bind (fun x k => (tossAgain x k).bind tossAgain second) second).listing =
      some [(.bool true, .finite (1 / 8)), (.bool false, .finite (1 / 8)),
        (.bool false, .finite (1 / 4)), (.bool false, .finite (1 / 2))] := by
  have nested := (listing_laws (leaf (fairFlip 0)) tossAgain tossAgain .nothing ⟨0, 0⟩ (fun _ k => ⟨k, 0⟩)
    (fun v => .ok ⟨v, .one⟩) fun _ => .ok true).2.2.1
  have heads : (tossAgain (.bool true) 0).listing =
      some [(.bool true, .finite (1 / 2)), (.bool false, .finite (1 / 2))] := listing_toss ⟨0, 0⟩
  have tails : (tossAgain (.bool false) 0).listing = some [(.bool false, .finite 1)] := rfl
  have listed : (((leaf (fairFlip 0)).bind tossAgain second).bind tossAgain second).listing =
      some [(.bool true, .finite (1 / 8)), (.bool false, .finite (1 / 8)),
        (.bool false, .finite (1 / 4)), (.bool false, .finite (1 / 2))] := by
    rw [listing_bind, listing_bind, show (leaf (fairFlip 0) : Node Exact).listing = _ from listing_toss ⟨0, 0⟩]
    simp [Listing.gather, heads, tails, scaled]
    norm_num
  refine ⟨⟨⟨⟨_, rfl⟩, fun v => total_tossAgain v 0, fun _ _ => ⟨_, rfl⟩⟩, fun v => total_tossAgain v 0,
      fun _ _ => ⟨_, rfl⟩⟩, listed, nested ▸ listed⟩

end Node

end ChanceGraph
