import ChanceGraph.Alias
import ChanceGraph.Proofs.Exact

/-!
Columns for drawing by weights.  Whatever small and large columns are paired, in whatever order, every index
keeps the share that its weight has of the whole, in its own column and in those that it fills up.
-/

set_option autoImplicit false

namespace ChanceGraph

theorem Array.getD_setIfInBounds {α : Type} {xs : Array α} {i : Nat} (inside : i < xs.size) (x d : α)
    (j : Nat) : (xs.setIfInBounds i x).getD j d = if i = j then x else xs.getD j d := by
  simp only [Array.getD_eq_getD_getElem?, Array.getElem?_setIfInBounds]
  split <;> simp_all

namespace Columns

section Filling

variable {S : Type} [Scalar S]

theorem own_closeAll (order : List Nat) (c : Columns S) :
    (order.foldl closeWhole c).own.size = c.own.size := by
  induction order generalizing c with
  | nil => rfl
  | cons i rest ih => simp [ih, closeWhole, close]

/-- Columns under way: what is left of the weight of each index, and which columns are open. -/
structure Filling (S : Type) where
  scaled : Array S
  columns : Columns S
  small : List Nat
  large : List Nat

namespace Filling

def left (s : Filling S) (i : Nat) : S :=
  s.scaled.getD i 0

def fill (s : Filling S) (l g : Nat) (small large : List Nat) : Filling S where
  scaled := s.scaled.setIfInBounds g ((s.left g + s.left l) - 1)
  columns := s.columns.close l (s.left l) g
  small := small
  large := large

/-- A large column fills up a small one.  Both may stand anywhere in their stacks, and the large one may
be put back anywhere. -/
inductive Step (s : Filling S) : Filling S → Prop where
  | shrinks {l g : Nat} {small large small' large' : List Nat}
    (takesSmall : s.small.Perm (l :: small)) (takesLarge : s.large.Perm (g :: large))
    (less : (s.left g + s.left l) - 1 < 1) (putsSmall : small'.Perm (g :: small))
    (putsLarge : large'.Perm large) : Step s (s.fill l g small' large')
  | stays {l g : Nat} {small large small' large' : List Nat}
    (takesSmall : s.small.Perm (l :: small)) (takesLarge : s.large.Perm (g :: large))
    (enough : ¬ (s.left g + s.left l) - 1 < 1) (putsSmall : small'.Perm small)
    (putsLarge : large'.Perm (g :: large)) : Step s (s.fill l g small' large')

/-- Columns are filled up while both kinds are open; the ones left over are closed in any order. -/
inductive Fills : Filling S → Columns S → Prop where
  | last {s : Filling S} {order : List Nat} (stops : s.small = [] ∨ s.large = [])
    (all : order.Perm (s.small ++ s.large)) : Fills s (order.foldl closeWhole s.columns)
  | step {s s' : Filling S} {c : Columns S} (step : s.Step s') (rest : s'.Fills c) : Fills s c

/-- Every index is open, among the small or the large ones as its weight says, at any place of its stack. -/
structure Starts (weights : List S) (s : Filling S) : Prop where
  scaled : s.scaled = weights.toArray
  columns : s.columns = ⟨Array.replicate weights.length 0, Array.replicate weights.length 0⟩
  once : (s.small ++ s.large).Perm (List.range weights.length)
  smalls : ∀ i ∈ s.small, s.left i < 1
  larges : ∀ i ∈ s.large, ¬ s.left i < 1

theorem Fills.size {s : Filling S} {c : Columns S} (fills : s.Fills c) :
    c.own.size = s.columns.own.size := by
  induction fills with
  | last stops all => exact own_closeAll _ _
  | step step _ ih =>
    rw [ih]
    cases step <;> simp [fill, close]

end Filling

theorem pair_fills (scaled : Array S) (c : Columns S) (small large : List Nat) :
    Filling.Fills ⟨scaled, c, small, large⟩ (pair scaled c small large) := by
  induction scaled, c, small, large using pair.induct with
  | case1 scaled c l small g large share rest scaled' c' less ih =>
    rw [pair, if_pos less]
    exact .step (.shrinks (.refl _) (.refl _) less (.refl _) (.refl _)) ih
  | case2 scaled c l small g large share rest scaled' c' enough ih =>
    rw [pair, if_neg enough]
    exact .step (.stays (.refl _) (.refl _) enough (.refl _) (.refl _)) ih
  | case3 scaled c small large none =>
    have stops : small = [] ∨ large = [] := by
      cases small with
      | nil => exact .inl rfl
      | cons l small =>
        cases large with
        | nil => exact .inr rfl
        | cons g large => exact absurd rfl (none l small g large rfl)
    rw [pair, ← List.foldl_append]
    · exact .last stops List.perm_append_comm
    · exact none

theorem foldl_stacks (xs : List (S × Nat)) (small large : List Nat) :
    xs.foldl (fun (small, large) (w, i) => if w < 1 then (i :: small, large) else (small, i :: large))
        (small, large) =
      (((xs.filter fun x => x.1 < 1).map (·.2)).reverse ++ small,
        ((xs.filter fun x => ! decide (x.1 < 1)).map (·.2)).reverse ++ large) := by
  induction xs generalizing small large with
  | nil => rfl
  | cons x rest ih =>
    by_cases less : x.1 < 1
    · simp [less, ih]
    · simp [less, ih]

theorem getD_of_mem_zipIdx {xs : List S} {w : S} {i : Nat} (listed : (w, i) ∈ xs.zipIdx) :
    xs.toArray.getD i 0 = w := by
  obtain ⟨-, inside, same⟩ := List.mem_zipIdx listed
  rw [Nat.zero_add] at inside
  simp [same, inside]

theorem split_starts (weights : List S) :
    Filling.Starts weights ⟨weights.toArray,
      ⟨Array.replicate weights.length 0, Array.replicate weights.length 0⟩,
      (split weights).1, (split weights).2⟩ := by
  rw [split, foldl_stacks]
  refine ⟨rfl, rfl, ?_, fun i member => ?_, fun i member => ?_⟩
  · have indices : weights.zipIdx.map (·.2) = List.range weights.length := by
      rw [List.zipIdx_map_snd, List.range_eq_range']
    rw [← indices, List.append_nil, List.append_nil]
    refine ((List.reverse_perm _).append (List.reverse_perm _)).trans ?_
    rw [← List.map_append]
    exact (List.filter_append_perm _ _).map _
  · simp only [List.append_nil, List.mem_reverse, List.mem_map, List.mem_filter, decide_eq_true_eq,
      Prod.exists, exists_eq_right] at member
    obtain ⟨w, listed, less⟩ := member
    rwa [Filling.left, getD_of_mem_zipIdx listed]
  · simp only [List.append_nil, List.mem_reverse, List.mem_map, List.mem_filter, Bool.not_eq_true',
      decide_eq_false_iff_not, Prod.exists, exists_eq_right] at member
    obtain ⟨w, listed, enough⟩ := member
    rwa [Filling.left, getD_of_mem_zipIdx listed]

end Filling

noncomputable def share (c : Columns Exact) (i : Nat) : ℝ :=
  (c.own.getD i 0).toReal

def other {S : Type} (c : Columns S) (i : Nat) : Nat :=
  c.aliases.getD i 0

/-- What an index has of the columns that it fills up. -/
noncomputable def received (c : Columns Exact) (closed : List Nat) (i : Nat) : ℝ :=
  (closed.map fun j => if c.other j = i then 1 - c.share j else 0).sum

theorem received_cons (c : Columns Exact) (j : Nat) (closed : List Nat) (i : Nat) :
    c.received (j :: closed) i = (if c.other j = i then 1 - c.share j else 0) + c.received closed i :=
  List.sum_cons

/-- A column that is closed: a part of it is its own, the rest is another's. -/
structure Closed (c : Columns Exact) (i : Nat) : Prop where
  finite : c.own.getD i 0 = .finite (c.share i)
  nonneg : 0 ≤ c.share i
  atMost : c.share i ≤ 1
  inside : c.other i < c.own.size

section Close

variable {c : Columns Exact} {i : Nat}

theorem own_close {S : Type} [Scalar S] {c : Columns S} (inside : i < c.own.size) (x : S) (k j : Nat) :
    (c.close i x k).own.getD j 0 = if i = j then x else c.own.getD j 0 :=
  Array.getD_setIfInBounds inside x 0 j

theorem share_close (inside : i < c.own.size) (x : ℝ) (k j : Nat) :
    (c.close i (.finite x) k).share j = if i = j then x else c.share j := by
  rw [share, own_close inside]
  split <;> rfl

theorem other_close {S : Type} {c : Columns S} (inside : i < c.aliases.size) (x : S) (k j : Nat) :
    (c.close i x k).other j = if i = j then k else c.other j :=
  Array.getD_setIfInBounds inside k 0 j

theorem received_close (own : i < c.own.size) (aliases : i < c.aliases.size) {closed : List Nat}
    (apart : i ∉ closed) (x : ℝ) (k j : Nat) :
    (c.close i (.finite x) k).received closed j = c.received closed j := by
  refine congrArg List.sum (List.map_congr_left fun m member => ?_)
  have differ : i ≠ m := fun same => apart (same ▸ member)
  rw [share_close own, other_close aliases, if_neg differ, if_neg differ]

theorem Closed.close {j : Nat} (closed : c.Closed j) (own : i < c.own.size)
    (aliases : i < c.aliases.size) (differ : i ≠ j) (x : ℝ) (k : Nat) :
    (c.close i (.finite x) k).Closed j := by
  have size : (c.close i (.finite x) k).own.size = c.own.size := by simp [Columns.close]
  obtain ⟨finite, nonneg, atMost, inside⟩ := closed
  constructor
  · rwa [own_close own, share_close own, if_neg differ, if_neg differ]
  · rwa [share_close own, if_neg differ]
  · rwa [share_close own, if_neg differ]
  · rwa [other_close aliases, if_neg differ, size]

theorem closed_close (own : i < c.own.size) (aliases : i < c.aliases.size) {x : ℝ} (nonneg : 0 ≤ x)
    (atMost : x ≤ 1) {k : Nat} (inside : k < c.own.size) : (c.close i (.finite x) k).Closed i := by
  have size : (c.close i (.finite x) k).own.size = c.own.size := by simp [Columns.close]
  constructor
  · rw [own_close own, share_close own, if_pos rfl, if_pos rfl]
  · rwa [share_close own, if_pos rfl]
  · rwa [share_close own, if_pos rfl]
  · rwa [other_close aliases, if_pos rfl, size]

end Close

/-- Weights that come to one for each column, while columns are closed: what an index has left, or has as
its own, and what it has of the columns that it filled up are its weight. -/
structure Balanced (target left : Nat → ℝ) (c : Columns Exact) (closed opened : List Nat) : Prop where
  sizes : c.aliases.size = c.own.size
  once : (closed ++ opened).Perm (List.range c.own.size)
  columns : ∀ i ∈ closed, c.Closed i
  nonneg : ∀ i ∈ opened, 0 ≤ left i
  kept : ∀ i ∈ closed, c.share i + c.received closed i = target i
  owed : ∀ i ∈ opened, left i + c.received closed i = target i
  level : (opened.map left).sum = opened.length

namespace Balanced

variable {target left : Nat → ℝ} {c : Columns Exact} {closed opened opened' : List Nat} {l g : Nat}

theorem inside (balanced : c.Balanced target left closed opened) {i : Nat}
    (member : i ∈ closed ++ opened) : i < c.own.size :=
  List.mem_range.mp (balanced.once.mem_iff.mp member)

theorem apart (balanced : c.Balanced target left closed opened) :
    opened.Nodup ∧ ∀ i ∈ opened, i ∉ closed := by
  have once := balanced.once.nodup_iff.mpr List.nodup_range
  obtain ⟨-, nodup, disjoint⟩ := List.nodup_append.mp once
  exact ⟨nodup, fun i member member' => disjoint i member' i member rfl⟩

theorem perm (balanced : c.Balanced target left closed opened) (reordered : opened'.Perm opened) :
    c.Balanced target left closed opened' where
  sizes := balanced.sizes
  once := (reordered.append_left closed).trans balanced.once
  columns := balanced.columns
  nonneg i member := balanced.nonneg i (reordered.mem_iff.mp member)
  kept := balanced.kept
  owed i member := balanced.owed i (reordered.mem_iff.mp member)
  level := by rw [(reordered.map left).sum_eq, reordered.length_eq, balanced.level]

/-- A column is closed, and what it lacks is taken off the one that fills it up. -/
theorem close (balanced : c.Balanced target left closed (l :: opened)) {left' : Nat → ℝ}
    (atMost : left l ≤ 1) (fills : g ∈ l :: opened) (alone : g = l → left l = 1)
    (gives : ∀ i ∈ opened, left' i + (if g = i then 1 - left l else 0) = left i)
    (nonneg : ∀ i ∈ opened, 0 ≤ left' i) (level : (opened.map left').sum = opened.length) :
    (c.close l (.finite (left l)) g).Balanced target left' (l :: closed) opened := by
  have own : l < c.own.size := balanced.inside (by simp)
  have aliases : l < c.aliases.size := balanced.sizes ▸ own
  have inside : g < c.own.size := balanced.inside (List.mem_append_right closed fills)
  obtain ⟨-, fresh⟩ := balanced.apart
  have away {i : Nat} (member : i ∈ closed) : l ≠ i := by
    rintro rfl
    exact fresh l (by simp) member
  have share : (c.close l (.finite (left l)) g).share l = left l := by
    rw [share_close own, if_pos rfl]
  have other : (c.close l (.finite (left l)) g).other l = g := by
    rw [other_close aliases, if_pos rfl]
  -- Only what the filling column receives changes.
  have received (i : Nat) : (c.close l (.finite (left l)) g).received (l :: closed) i =
      (if g = i then 1 - left l else 0) + c.received closed i := by
    rw [received_cons, share, other, received_close own aliases (fresh l (by simp))]
  have size : (c.close l (.finite (left l)) g).own.size = c.own.size := by simp [Columns.close]
  constructor
  · simpa [Columns.close] using balanced.sizes
  · rw [size]
    exact List.perm_middle.symm.trans balanced.once
  · refine List.forall_mem_cons.mpr
      ⟨closed_close own aliases (balanced.nonneg l (by simp)) atMost inside, fun i member => ?_⟩
    exact (balanced.columns i member).close own aliases (away member) _ _
  · exact nonneg
  · refine List.forall_mem_cons.mpr ⟨?_, fun i member => ?_⟩
    · -- A column that fills itself is whole, so it gives nothing.
      have nothing : (if g = l then 1 - left l else 0) = 0 := by
        rw [ite_eq_right_iff]
        exact fun same => sub_eq_zero.mpr (alone same).symm
      rw [share, received, nothing, zero_add]
      exact balanced.owed l (by simp)
    · have untouched : g ≠ i := by
        rintro rfl
        exact fresh g fills member
      rw [share_close own, if_neg (away member), received, if_neg untouched, zero_add]
      exact balanced.kept i member
  · intro i member
    rw [received, ← add_assoc, gives i member]
    exact balanced.owed i (by simp [member])
  · exact level

theorem filled (balanced : c.Balanced target left closed (l :: g :: opened)) (less : left l ≤ 1)
    (enough : 1 ≤ left g) :
    (c.close l (.finite (left l)) g).Balanced target (Function.update left g (left g + left l - 1))
      (l :: closed) (g :: opened) := by
  have atLeast := balanced.nonneg l (by simp)
  obtain ⟨nodup, -⟩ := balanced.apart
  simp only [List.nodup_cons, List.mem_cons, not_or] at nodup
  obtain ⟨⟨differ, -⟩, apart, -⟩ := nodup
  have untouched {i : Nat} (member : i ∈ opened) : g ≠ i := by
    rintro rfl
    exact apart member
  have others {i : Nat} (member : i ∈ opened) :
      Function.update left g (left g + left l - 1) i = left i :=
    Function.update_of_ne (untouched member).symm _ _
  refine balanced.close less (by simp) (fun same => absurd same.symm differ) ?_ ?_ ?_
  · refine List.forall_mem_cons.mpr ⟨?_, fun i member => ?_⟩
    · rw [Function.update_self, if_pos rfl]
      ring
    · rw [others member, if_neg (untouched member), add_zero]
  · refine List.forall_mem_cons.mpr ⟨?_, fun i member => ?_⟩
    · rw [Function.update_self]
      linarith
    · rw [others member]
      exact balanced.nonneg i (by simp [member])
  · have before := balanced.level
    simp only [List.map_cons, List.sum_cons, List.length_cons, Nat.cast_add, Nat.cast_one] at before ⊢
    rw [Function.update_self, List.map_congr_left fun i member => others member]
    linarith

theorem whole (balanced : c.Balanced target left closed (g :: opened)) (exact : left g = 1) :
    (c.closeWhole g).Balanced target left (g :: closed) opened := by
  rw [Columns.closeWhole, Exact.one_eq, ← exact]
  refine balanced.close exact.le (by simp) (fun _ => exact) (fun i _ => ?_)
    (fun i member => balanced.nonneg i (by simp [member])) ?_
  · rw [exact, sub_self, ite_self, add_zero]
  · have before := balanced.level
    simp only [List.map_cons, List.sum_cons, List.length_cons, Nat.cast_add, Nat.cast_one] at before
    linarith

end Balanced

/-- All columns are closed, and every index has its weight in them. -/
structure Represents (c : Columns Exact) (target : Nat → ℝ) : Prop where
  sizes : c.aliases.size = c.own.size
  columns : ∀ i < c.own.size, c.Closed i
  kept : ∀ i < c.own.size, c.share i + c.received (List.range c.own.size) i = target i

theorem Balanced.represents {target left : Nat → ℝ} {c : Columns Exact} {closed order : List Nat}
    (balanced : c.Balanced target left closed order) (whole : ∀ i ∈ order, left i = 1) :
    (order.foldl closeWhole c).Represents target := by
  induction order generalizing c closed with
  | nil =>
    have all : closed.Perm (List.range c.own.size) := by simpa using balanced.once
    have member {i : Nat} (inside : i < c.own.size) : i ∈ closed :=
      all.mem_iff.mpr (List.mem_range.mpr inside)
    refine ⟨balanced.sizes, fun i inside => balanced.columns i (member inside), fun i inside => ?_⟩
    rw [List.foldl_nil, ← balanced.kept i (member inside), received, received, (all.map _).sum_eq]
  | cons g rest ih =>
    have ⟨first, others⟩ := List.forall_mem_cons.mp whole
    exact ih (balanced.whole first) others

namespace Filling

/-- Every open column is on the stack that what it has left says. -/
structure Sorts (target left : Nat → ℝ) (closed : List Nat) (s : Filling Exact) : Prop where
  balanced : s.columns.Balanced target left closed (s.small ++ s.large)
  size : s.scaled.size = s.columns.own.size
  finite : ∀ i < s.columns.own.size, s.left i = .finite (left i)
  smalls : ∀ i ∈ s.small, left i < 1
  larges : ∀ i ∈ s.large, 1 ≤ left i

namespace Sorts

variable {target left : Nat → ℝ} {closed small large small' large' : List Nat} {s s' : Filling Exact}
  {l g : Nat}

theorem remainder (sorts : Sorts target left closed s) (fills : l ∈ s.small ++ s.large)
    (gives : g ∈ s.small ++ s.large) :
    (s.left g + s.left l) - 1 = .finite (left g + left l - 1) := by
  have insideL := sorts.balanced.inside (List.mem_append_right closed fills)
  have insideG := sorts.balanced.inside (List.mem_append_right closed gives)
  rw [sorts.finite l insideL, sorts.finite g insideG, Exact.one_eq, Exact.finite_add, Exact.finite_sub]

/-- Filling up a column keeps the balance; where the other one goes is decided by what it has left. -/
theorem fill (sorts : Sorts target left closed s) (takesSmall : s.small.Perm (l :: small))
    (takesLarge : s.large.Perm (g :: large)) (puts : (small' ++ large').Perm (g :: (small ++ large)))
    (smalls : ∀ i ∈ small', i = g ∧ left g + left l - 1 < 1 ∨ i ∈ small)
    (larges : ∀ i ∈ large', i = g ∧ 1 ≤ left g + left l - 1 ∨ i ∈ large) :
    Sorts target (Function.update left g (left g + left l - 1)) (l :: closed)
      (s.fill l g small' large') := by
  have opened : (l :: g :: (small ++ large)).Perm (s.small ++ s.large) := by
    refine List.Perm.symm ((takesSmall.append takesLarge).trans ?_)
    simp
  have reordered := sorts.balanced.perm opened
  have small_of {i : Nat} (member : i ∈ l :: small) := sorts.smalls i (takesSmall.mem_iff.mpr member)
  have large_of {i : Nat} (member : i ∈ g :: large) := sorts.larges i (takesLarge.mem_iff.mpr member)
  have insideL : l < s.columns.own.size := reordered.inside (by simp)
  have insideG : g < s.columns.own.size := reordered.inside (by simp)
  have finite : s.left l = .finite (left l) := sorts.finite l insideL
  have moved := sorts.remainder (l := l) (g := g) (opened.mem_iff.mp (by simp))
    (opened.mem_iff.mp (by simp))
  have rest (i : Nat) (differ : i ≠ g) := Function.update_of_ne differ (left g + left l - 1) left
  have size : (s.fill l g small' large').columns.own.size = s.columns.own.size := by
    simp [Filling.fill, Columns.close]
  obtain ⟨nodup, -⟩ := reordered.apart
  simp only [List.nodup_cons, List.mem_cons, List.mem_append, not_or] at nodup
  -- The column that has filled another goes to the stack that its remainder belongs to.
  constructor
  · have closedOne := reordered.filled (small_of (by simp)).le (large_of (by simp))
    rw [← finite] at closedOne
    exact closedOne.perm puts
  · simpa [Filling.fill, Columns.close] using sorts.size
  · intro i inside
    rw [size] at inside
    rw [Filling.left, Filling.fill, Array.getD_setIfInBounds (sorts.size ▸ insideG), moved]
    by_cases same : g = i
    · subst same
      rw [if_pos rfl, Function.update_self]
    · rw [if_neg same, rest i (Ne.symm same)]
      exact sorts.finite i inside
  · intro i member
    rcases smalls i member with ⟨rfl, less⟩ | member
    · rwa [Function.update_self]
    · rw [rest i fun same => nodup.2.1.1 (same ▸ member)]
      exact small_of (List.mem_cons_of_mem _ member)
  · intro i member
    rcases larges i member with ⟨rfl, enough⟩ | member
    · rwa [Function.update_self]
    · rw [rest i fun same => nodup.2.1.2 (same ▸ member)]
      exact large_of (List.mem_cons_of_mem _ member)

theorem step (sorts : Sorts target left closed s) (step : s.Step s') :
    ∃ left' closed', Sorts target left' closed' s' := by
  have moved {l g : Nat} {small large : List Nat} (takesSmall : s.small.Perm (l :: small))
      (takesLarge : s.large.Perm (g :: large)) :=
    sorts.remainder (l := l) (g := g) (by simp [takesSmall.mem_iff]) (by simp [takesLarge.mem_iff])
  cases step with
  | shrinks takesSmall takesLarge less putsSmall putsLarge =>
    rw [moved takesSmall takesLarge, Exact.one_eq, Exact.finite_lt] at less
    refine ⟨_, _, sorts.fill takesSmall takesLarge (putsSmall.append putsLarge) ?_ ?_⟩
    · intro i member
      exact (List.mem_cons.mp (putsSmall.mem_iff.mp member)).imp (⟨·, less⟩) id
    · intro i member
      exact .inr (putsLarge.mem_iff.mp member)
  | stays takesSmall takesLarge enough putsSmall putsLarge =>
    rw [moved takesSmall takesLarge, Exact.one_eq, Exact.finite_lt, not_lt] at enough
    refine ⟨_, _, sorts.fill takesSmall takesLarge
      ((putsSmall.append putsLarge).trans List.perm_middle) ?_ ?_⟩
    · intro i member
      exact .inr (putsSmall.mem_iff.mp member)
    · intro i member
      exact (List.mem_cons.mp (putsLarge.mem_iff.mp member)).imp (⟨·, enough⟩) id

/-- The columns left over have exactly their due: it is one for each of them, and none has less, or none
has more. -/
theorem whole (sorts : Sorts target left closed s) (stops : s.small = [] ∨ s.large = []) :
    ∀ i ∈ s.small ++ s.large, left i = 1 := by
  have level := sorts.balanced.level
  have ones (xs : List Nat) : (xs.map fun _ => (1 : ℝ)).sum = xs.length := by simp
  rcases stops with none | none
  · rw [none, List.nil_append] at level ⊢
    by_contra differs
    push Not at differs
    obtain ⟨i, member, differs⟩ := differs
    have more := List.sum_lt_sum _ _ sorts.larges
      ⟨i, member, lt_of_le_of_ne (sorts.larges i member) (Ne.symm differs)⟩
    linarith [ones s.large]
  · rw [none, List.append_nil] at level ⊢
    intro i member
    have less := List.sum_lt_sum _ _ (fun j listed => (sorts.smalls j listed).le)
      ⟨i, member, sorts.smalls i member⟩
    linarith [ones s.small]

theorem fills (sorts : Sorts target left closed s) {c : Columns Exact} (fills : s.Fills c) :
    c.Represents target := by
  induction fills generalizing left closed with
  | last stops all =>
    refine (sorts.balanced.perm all).represents fun i member => ?_
    exact sorts.whole stops i (all.mem_iff.mp member)
  | step step _ ih =>
    obtain ⟨_, _, sorts⟩ := sorts.step step
    exact ih sorts

end Sorts

end Filling

/-- Stacks that hold all indices, each on the one that its weight says, are a start. -/
theorem Filling.Starts.sorts {weights : List ℝ} {s : Filling Exact}
    (starts : s.Starts (weights.map Exact.finite)) (nonneg : ∀ w ∈ weights, 0 ≤ w)
    (level : weights.sum = weights.length) :
    Sorts (fun i => weights.getD i 0) (fun i => weights.getD i 0) [] s := by
  obtain ⟨scaled, columns, once, smalls, larges⟩ := starts
  rw [List.length_map] at once columns
  have size : s.columns.own.size = weights.length := by simp [columns]
  have left (i : Nat) : s.left i = .finite (weights.getD i 0) := by
    rw [Filling.left, scaled]
    by_cases inside : i < weights.length <;> simp [inside, Exact.zero_eq]
  have all : weights = (List.range weights.length).map fun i => weights.getD i 0 := by
    refine List.ext_getElem (by simp) fun i inside _ => ?_
    simp [inside]
  -- Nothing is closed yet, so every column still owes its whole target.
  constructor
  · constructor
    · simp [columns]
    · rwa [size]
    · simp
    · intro i _
      by_cases inside : i < weights.length
      · simpa [inside] using nonneg _ (List.getElem_mem inside)
      · simp [inside]
    · simp
    · simp [received]
    · rw [(once.map _).sum_eq, ← all, level, once.length_eq, List.length_range]
  · simp [scaled, size]
  · exact fun i _ => left i
  · intro i member
    simpa [left, Exact.one_eq] using smalls i member
  · intro i member
    simpa [left, Exact.one_eq] using larges i member

section Chance

open MeasureTheory Set

/-- The numbers that pick a column. -/
def column (n i : Nat) : Set ℝ :=
  Ico ((i : ℝ) / n) ((i + 1) / n)

theorem index_eq_iff {u : ℝ} (unit : u ∈ Ico (0 : ℝ) 1) {n : Nat} (some : 0 < n) (i : Nat) :
    Scalar.index (Exact.finite u) n = i ↔ u ∈ column n i := by
  have positive : (0 : ℝ) < n := by exact_mod_cast some
  have below : ⌊u * n⌋ < n := by
    rw [Int.floor_lt]
    exact_mod_cast mul_lt_of_lt_one_left positive unit.2
  have above : 0 ≤ ⌊u * n⌋ := Int.floor_nonneg.mpr (mul_nonneg unit.1 positive.le)
  have floor : Scalar.index (Exact.finite u) n = i ↔ ⌊u * n⌋ = (i : Int) := by
    simp only [Scalar.index, Exact.ofNat_eq, Exact.finite_mul, Exact.finite_floor, Option.getD_some]
    omega
  rw [floor, Int.floor_eq_iff, column, mem_Ico, div_le_iff₀ positive, lt_div_iff₀ positive]
  push_cast
  rfl

theorem column_subset {n i : Nat} (inside : i < n) : column n i ⊆ Ico 0 1 := by
  have positive : (0 : ℝ) < n := by exact_mod_cast Nat.zero_lt_of_lt inside
  have last : (i : ℝ) + 1 ≤ n := by exact_mod_cast inside
  exact Ico_subset_Ico (by positivity) ((div_le_one positive).mpr last)

theorem volume_column (n i : Nat) : volume (column n i) = ENNReal.ofReal (1 / n) := by
  rw [column, Real.volume_Ico]
  congr 1
  ring

/-- The part of a column in which an index is chosen. -/
def part (c : Columns Exact) (j k : Nat) : Set ℝ :=
  (if j = k then Ico 0 (c.share j) else ∅) ∪ if c.other j = k then Ico (c.share j) 1 else ∅

theorem measurableSet_part (c : Columns Exact) (j k : Nat) : MeasurableSet (c.part j k) := by
  refine .union ?_ ?_ <;> split <;> simp

section Part

variable {c : Columns Exact} {j : Nat}

theorem mem_part (closed : c.Closed j) {k : Nat} {v : ℝ} :
    v ∈ c.part j k ↔ v ∈ Ico 0 1 ∧ c.choose j (.finite v) = k := by
  have chosen : c.choose j (.finite v) = if v < c.share j then j else c.other j := by
    rw [choose, closed.finite]
    rfl
  rw [part, mem_union, mem_ite_empty_right, mem_ite_empty_right, mem_Ico, mem_Ico, mem_Ico, chosen]
  by_cases less : v < c.share j
  · have below : v < 1 := less.trans_le closed.atMost
    simp only [less, below, less.not_ge, if_true, and_true, and_false, or_false]
    exact and_comm
  · have atLeast : 0 ≤ v := closed.nonneg.trans (not_lt.mp less)
    simp only [less, atLeast, not_lt.mp less, if_false, true_and, and_false, false_or]
    exact and_comm

theorem volume_part (closed : c.Closed j) (k : Nat) :
    volume (c.part j k) = ENNReal.ofReal
      ((if j = k then c.share j else 0) + if c.other j = k then 1 - c.share j else 0) := by
  have apart : Disjoint (if j = k then Ico 0 (c.share j) else ∅)
      (if c.other j = k then Ico (c.share j) 1 else ∅) := by
    split_ifs <;> simp
  rw [part, measure_union apart (by split <;> simp), ENNReal.ofReal_add]
  · simp only [apply_ite volume, apply_ite ENNReal.ofReal, Real.volume_Ico, measure_empty, sub_zero,
      ENNReal.ofReal_zero]
  · exact ite_nonneg closed.nonneg le_rfl
  · exact ite_nonneg (sub_nonneg.mpr closed.atMost) le_rfl

end Part

/-- Two numbers from the unit interval choose an index in proportion to its weight. -/
theorem Represents.volume_choose {c : Columns Exact} {target : Nat → ℝ} (represents : c.Represents target)
    {k : Nat} (inside : k < c.own.size) :
    volume {p : ℝ × ℝ | p.1 ∈ Ico 0 1 ∧ p.2 ∈ Ico 0 1 ∧
      c.choose (Scalar.index (Exact.finite p.1) c.own.size) (.finite p.2) = k} =
        ENNReal.ofReal (target k / c.own.size) := by
  obtain ⟨-, closed, kept⟩ := represents
  set n := c.own.size
  let block (j : Nat) : Set (ℝ × ℝ) := column n j ×ˢ c.part j k
  -- The square has a strip for each column, and each strip is cut at the share of the column.
  have blocks : {p : ℝ × ℝ | p.1 ∈ Ico 0 1 ∧ p.2 ∈ Ico 0 1 ∧
      c.choose (Scalar.index (Exact.finite p.1) n) (.finite p.2) = k} =
        ⋃ j ∈ Finset.range n, block j := by
    ext ⟨u, v⟩
    simp only [mem_ofPred_eq, mem_iUnion, Finset.mem_range, exists_prop]
    constructor
    · rintro ⟨first, second, chosen⟩
      have listed : Scalar.index (Exact.finite u) n < n := by
        rw [Scalar.index]
        omega
      exact ⟨_, listed, (index_eq_iff first (Nat.zero_lt_of_lt inside) _).mp rfl,
        (mem_part (closed _ listed)).mpr ⟨second, chosen⟩⟩
    · rintro ⟨j, listed, first, second⟩
      have unit := column_subset listed first
      obtain rfl := (index_eq_iff unit (Nat.zero_lt_of_lt inside) j).mpr first
      exact ⟨unit, (mem_part (closed _ listed)).mp second⟩
  have apart : (Finset.range n : Set Nat).PairwiseDisjoint block := by
    intro i first j second differ
    refine Set.disjoint_left.mpr fun p left right => differ ?_
    have unit := column_subset (Finset.mem_range.mp first) left.1
    rw [← (index_eq_iff unit (Nat.zero_lt_of_lt inside) i).mpr left.1,
      (index_eq_iff unit (Nat.zero_lt_of_lt inside) j).mpr right.1]
  have area (j : Nat) (listed : j ∈ Finset.range n) : volume (block j) = ENNReal.ofReal
      (1 / n * ((if j = k then c.share j else 0) + if c.other j = k then 1 - c.share j else 0)) := by
    rw [Measure.volume_eq_prod, Measure.prod_prod, volume_column,
      volume_part (closed j (Finset.mem_range.mp listed)), ENNReal.ofReal_mul (by positivity)]
  have given : c.received (List.range n) k =
      ∑ j ∈ Finset.range n, if c.other j = k then 1 - c.share j else 0 := rfl
  rw [blocks, measure_biUnion_finset apart fun j _ =>
    measurableSet_Ico.prod (c.measurableSet_part j k), Finset.sum_congr rfl area,
    ← ENNReal.ofReal_sum_of_nonneg]
  · rw [← Finset.mul_sum, Finset.sum_add_distrib, Finset.sum_ite_eq', if_pos (Finset.mem_range.mpr inside),
      ← kept k inside, given, one_div_mul_eq_div]
  · intro j listed
    have column := closed j (Finset.mem_range.mp listed)
    exact mul_nonneg (by positivity) (add_nonneg (ite_nonneg column.nonneg le_rfl)
      (ite_nonneg (sub_nonneg.mpr column.atMost) le_rfl))

end Chance

/-- The weights, brought to one for each column. -/
noncomputable def scaled (weights : List ℝ) : List ℝ :=
  weights.map fun w => w * weights.length / weights.sum

/-- Columns in which every index has its weight's share of the whole, and by which it is chosen. -/
structure Faithful (c : Columns Exact) (weights : List ℝ) : Prop where
  size : c.own.size = weights.length
  aliases : c.aliases.size = weights.length
  columns : ∀ j < weights.length, c.Closed j
  shares : ∀ (i : Nat) (inside : i < weights.length),
    (c.share i + ∑ j ∈ Finset.range weights.length with c.other j = i, (1 - c.share j)) /
      weights.length = weights[i] / weights.sum
  chances : ∀ (i : Nat) (inside : i < weights.length),
    MeasureTheory.volume {p : ℝ × ℝ | p.1 ∈ Set.Ico 0 1 ∧ p.2 ∈ Set.Ico 0 1 ∧
      c.choose (Scalar.index (Exact.finite p.1) weights.length) (.finite p.2) = i} =
        ENNReal.ofReal (weights[i] / weights.sum)
  never : ∀ (i : Nat) (inside : i < weights.length), weights[i] = 0 → ∀ j < weights.length,
    ∀ v ∈ Set.Ico (0 : ℝ) 1, c.choose j (.finite v) ≠ i

section Weights

variable {weights : List ℝ}

theorem getD_scaled {i : Nat} (inside : i < weights.length) :
    (scaled weights).getD i 0 = weights[i] * weights.length / weights.sum := by
  simp [scaled, inside]

theorem sum_scaled (positive : 0 < weights.sum) : (scaled weights).sum = (scaled weights).length := by
  rw [scaled, List.length_map]
  simp only [mul_div_assoc]
  rw [List.sum_map_mul_right, List.map_id', mul_div_cancel₀ _ positive.ne']

theorem Represents.choose_lt {c : Columns Exact} {target : Nat → ℝ} (represents : c.Represents target)
    {j : Nat} (column : j < c.own.size) (v : Exact) : c.choose j v < c.own.size := by
  rw [choose]
  by_cases own : v < c.own.getD j 0
  · rwa [if_pos own]
  · rw [if_neg own]
    exact (represents.columns j column).inside

theorem Represents.never {c : Columns Exact} {target : Nat → ℝ} (represents : c.Represents target)
    {i j : Nat} (inside : i < c.own.size) (none : target i = 0) (column : j < c.own.size) {v : ℝ}
    (unit : v ∈ Set.Ico 0 1) : c.choose j (.finite v) ≠ i := by
  obtain ⟨-, columns, kept⟩ := represents
  have given : ∀ x ∈ (List.range c.own.size).map fun j => if c.other j = i then 1 - c.share j else 0,
      0 ≤ x := by
    intro x listed
    obtain ⟨j, member, rfl⟩ := List.mem_map.mp listed
    exact ite_nonneg (sub_nonneg.mpr (columns j (List.mem_range.mp member)).atMost) le_rfl
  have nothing : c.share i + c.received (List.range c.own.size) i = 0 := (kept i inside).trans none
  have own := (columns i inside).nonneg
  have others : 0 ≤ c.received (List.range c.own.size) i := List.sum_nonneg given
  intro chosen
  rcases (mem_part (columns j column)).mpr ⟨unit, chosen⟩ with first | second
  · obtain ⟨rfl, -, less⟩ := (Set.mem_ite_empty_right _ _ _).mp first
    linarith [unit.1]
  · obtain ⟨same, enough, -⟩ := (Set.mem_ite_empty_right _ _ _).mp second
    have listed := List.single_le_sum given _ (List.mem_map_of_mem (List.mem_range.mpr column))
    rw [if_pos same] at listed
    have last : 1 - c.share j ≤ c.received (List.range c.own.size) i := listed
    linarith [unit.2]

theorem Represents.faithful {c : Columns Exact}
    (represents : c.Represents fun i => (scaled weights).getD i 0) (positive : 0 < weights.sum)
    (size : c.own.size = weights.length) : c.Faithful weights := by
  have part {i : Nat} (inside : i < weights.length) :
      (scaled weights).getD i 0 / weights.length = weights[i] / weights.sum := by
    have some : (weights.length : ℝ) ≠ 0 := by exact_mod_cast (Nat.zero_lt_of_lt inside).ne'
    rw [getD_scaled inside]
    field_simp
  have received (i : Nat) : c.received (List.range weights.length) i =
      ∑ j ∈ Finset.range weights.length with c.other j = i, (1 - c.share j) := by
    rw [Finset.sum_filter]
    rfl
  constructor
  · exact size
  · rw [represents.sizes, size]
  · exact size ▸ represents.columns
  · intro i inside
    rw [← received, ← part inside, ← represents.kept i (size ▸ inside), size]
  · intro i inside
    rw [← part inside, ← size]
    exact represents.volume_choose (size ▸ inside)
  · intro i inside none j column v unit
    refine represents.never (size ▸ inside) ?_ (size ▸ column) unit
    rw [getD_scaled inside, none, zero_mul, zero_div]

theorem ofWeights_filled (positive : 0 < weights.sum) : ∃ s : Filling Exact,
    s.Starts ((scaled weights).map Exact.finite) ∧
      s.Fills (ofWeights (weights.map Exact.finite) (.finite weights.sum)) := by
  have brought : (weights.map Exact.finite).map (fun w =>
      w * Scalar.ofNat (weights.map Exact.finite).length / Exact.finite weights.sum) =
        (scaled weights).map Exact.finite := by
    simp [scaled, Exact.finite_div positive.ne']
  have length : (weights.map Exact.finite).length = ((scaled weights).map Exact.finite).length := by
    simp [scaled]
  refine ⟨_, split_starts _, ?_⟩
  rw [ofWeights, brought, length]
  exact pair_fills _ _ _ _

theorem ofWeights_represents (nonneg : ∀ w ∈ weights, 0 ≤ w)
    (positive : 0 < weights.sum) :
    (ofWeights (weights.map Exact.finite) (.finite weights.sum)).own.size = weights.length ∧
      (ofWeights (weights.map Exact.finite) (.finite weights.sum)).Represents
        fun i => (scaled weights).getD i 0 := by
  obtain ⟨s, starts, fills⟩ := ofWeights_filled positive
  have atLeast : ∀ x ∈ scaled weights, 0 ≤ x := by
    intro x listed
    obtain ⟨w, member, rfl⟩ := List.mem_map.mp listed
    have given := nonneg w member
    positivity
  refine ⟨by simp [fills.size, starts.columns, scaled], ?_⟩
  exact (starts.sorts atLeast (sum_scaled positive)).fills fills

end Weights

end Columns

theorem foldl_finite (xs : List ℝ) (start : ℝ) :
    (xs.map Exact.finite).foldl (· + ·) (.finite start) = .finite (start + xs.sum) := by
  induction xs generalizing start with
  | nil => simp
  | cons x rest ih =>
    rw [List.map_cons, List.foldl_cons, Exact.finite_add, ih, List.sum_cons, add_assoc]

theorem AliasSampler.build_finite {α : Type} (elements : List α) {weights : List ℝ}
    (lengths : elements.length = weights.length) (nonneg : ∀ x ∈ weights, 0 ≤ x)
    (positive : 0 < weights.sum) :
    AliasSampler.build elements (weights.map Exact.finite) =
      .ok ⟨elements, .ofWeights (weights.map Exact.finite) (.finite weights.sum)⟩ := by
  have some : elements ≠ [] := by
    rintro rfl
    obtain rfl := List.length_eq_zero_iff.mp lengths.symm
    simp at positive
  have none : (weights.map Exact.finite).any (· < 0) = false := by
    simp only [List.any_eq_false, List.mem_map, decide_eq_true_eq]
    rintro _ ⟨x, listed, rfl⟩
    simpa [Exact.zero_eq] using nonneg x listed
  have total := foldl_finite weights 0
  rw [zero_add, ← Exact.zero_eq] at total
  have above : ¬ Exact.finite weights.sum ≤ 0 := by
    simpa [Exact.zero_eq] using positive
  simp [build, lengths, some, none, total, above]

theorem AliasSampler.build_negative {α : Type} (elements : List α) {weights : List ℝ}
    (lengths : elements.length = weights.length) (negative : ∃ x ∈ weights, x < 0) :
    AliasSampler.build elements (weights.map Exact.finite) =
      .error (.negativeWeight (weights.map Exact.finite)) := by
  obtain ⟨x, listed, below⟩ := negative
  have some : elements ≠ [] := by
    rintro rfl
    obtain rfl := List.length_eq_zero_iff.mp lengths.symm
    cases listed
  have found : (weights.map Exact.finite).any (· < 0) = true := by
    refine List.any_eq_true.mpr ⟨_, List.mem_map_of_mem listed, decide_eq_true ?_⟩
    rwa [Exact.zero_eq, Exact.finite_lt]
  simp [build, lengths, some, found]

/-- A sampler of weights that are not negative, nor all zero, is built, and draws by them.  So does any
other that fills up small columns from large ones, whichever it takes first. -/
theorem AliasSampler.draws_by_weight {weights : List ℝ} (nonneg : ∀ w ∈ weights, 0 ≤ w)
    (positive : 0 < weights.sum) :
    (∀ {α : Type} (elements : List α), elements.length = weights.length →
      ∃ (s : Columns.Filling Exact) (c : Columns Exact),
        s.Starts ((Columns.scaled weights).map Exact.finite) ∧ s.Fills c ∧
          AliasSampler.build elements (weights.map Exact.finite) = .ok ⟨elements, c⟩) ∧
      ∀ (s : Columns.Filling Exact) (c : Columns Exact),
        s.Starts ((Columns.scaled weights).map Exact.finite) → s.Fills c → c.Faithful weights := by
  constructor
  · intro α elements lengths
    obtain ⟨s, starts, fills⟩ := Columns.ofWeights_filled positive
    exact ⟨s, _, starts, fills, build_finite elements lengths nonneg positive⟩
  · intro s c starts fills
    have size : c.own.size = weights.length := by
      simp [fills.size, starts.columns, Columns.scaled]
    have scaledNonneg : ∀ w ∈ Columns.scaled weights, 0 ≤ w := by
      intro x listed
      obtain ⟨w, member, rfl⟩ := List.mem_map.mp listed
      have atLeast := nonneg w member
      positivity
    have sorts := starts.sorts scaledNonneg (Columns.sum_scaled positive)
    exact (sorts.fills fills).faithful positive size

/-- The sampler of one, zero and three draws the last one three times out of four. -/
theorem AliasSampler.draws_one_zero_three :
    ∃ c : Columns Exact, AliasSampler.build ["one", "zero", "three"]
        [Exact.finite 1, .finite 0, .finite 3] = .ok ⟨["one", "zero", "three"], c⟩ ∧
      c.Faithful [1, 0, 3] := by
  have ⟨built, faithful⟩ := @draws_by_weight [1, 0, 3] (by simp) (by norm_num)
  obtain ⟨s, c, starts, fills, made⟩ := built ["one", "zero", "three"] rfl
  exact ⟨c, made, faithful s c starts fills⟩

end ChanceGraph
