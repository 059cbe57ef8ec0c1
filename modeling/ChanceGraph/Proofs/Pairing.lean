import ChanceGraph.Proofs.Columns

/-!
Columns under arithmetic that keeps no law: whatever sums, differences and comparisons come to, every round of
the pairing closes one column, the two stacks hold those that are still open, and no column is closed twice.
-/

set_option autoImplicit false

namespace ChanceGraph.Columns

/-- What a column is closed with: its own share, and the index that has the rest of it. -/
structure Closing (S : Type) where
  index : Nat
  share : S
  other : Nat

section Closings

variable {S : Type}

def apply (c : Columns S) (k : Closing S) : Columns S :=
  c.close k.index k.share k.other

variable {closings : List (Closing S)}

theorem foldl_apply_sizes (closings : List (Closing S)) (c : Columns S) :
    (closings.foldl apply c).own.size = c.own.size ∧ (closings.foldl apply c).aliases.size = c.aliases.size := by
  induction closings generalizing c with
  | nil => exact ⟨rfl, rfl⟩
  | cons k rest ih => simp [ih, apply, close]

variable [Scalar S] {c : Columns S}

theorem foldl_apply_untouched {i : Nat} (untouched : i ∉ closings.map (·.index)) :
    (closings.foldl apply c).own.getD i 0 = c.own.getD i 0 ∧ (closings.foldl apply c).other i = c.other i := by
  induction closings generalizing c with
  | nil => exact ⟨rfl, rfl⟩
  | cons k rest ih =>
    simp only [List.map_cons, List.mem_cons, not_or] at untouched
    obtain ⟨differ, later⟩ := untouched
    have own : (c.apply k).own.getD i 0 = c.own.getD i 0 := by
      simp [apply, close, Ne.symm differ]
    have other : (c.apply k).other i = c.other i := by
      simp [Columns.other, apply, close, Ne.symm differ]
    rw [List.foldl_cons, (ih later).1, (ih later).2, own, other]
    exact ⟨rfl, rfl⟩

theorem foldl_apply_closed (once : (closings.map (·.index)).Nodup) {k : Closing S} (member : k ∈ closings)
    (own : k.index < c.own.size) (aliases : k.index < c.aliases.size) :
    (closings.foldl apply c).own.getD k.index 0 = k.share ∧ (closings.foldl apply c).other k.index = k.other := by
  induction closings generalizing c with
  | nil => cases member
  | cons first rest ih =>
    simp only [List.map_cons, List.nodup_cons] at once
    rw [List.foldl_cons]
    cases member with
    | head =>
      have later := foldl_apply_untouched (c := c.apply k) once.1
      rw [later.1, later.2, apply, own_close own, other_close aliases, if_pos rfl, if_pos rfl]
      exact ⟨rfl, rfl⟩
    | tail _ member =>
      apply ih once.2 member
      · simpa [apply, close] using own
      · simpa [apply, close] using aliases

end Closings

namespace Filling

variable {S : Type} [Scalar S] {s : Filling S}

def opened (s : Filling S) : List Nat :=
  s.small ++ s.large

def Ended (s : Filling S) : Prop :=
  s.small = [] ∨ s.large = []

/-- What the next round closes. -/
def closing? (s : Filling S) : Option (Closing S) :=
  match s.small, s.large with
  | l :: _, g :: _ => some ⟨l, s.left l, g⟩
  | _, _ => none

/-- One round: the columns on top of the stacks are taken, and the large one is put back by what it has left.
Once a stack is empty, nothing happens any more. -/
def next (s : Filling S) : Filling S :=
  match s.small, s.large with
  | l :: small, g :: large =>
    if (s.left g + s.left l) - 1 < 1 then s.fill l g (g :: small) large
    else s.fill l g small (g :: large)
  | _, _ => s

/-- What some rounds close, in their order. -/
def closings (s : Filling S) : Nat → List (Closing S)
  | 0 => []
  | k + 1 => s.closing?.toList ++ s.next.closings k

/-- What is closed as a whole when the rounds have ended. -/
def leftovers (s : Filling S) : List (Closing S) :=
  (s.large ++ s.small).map fun i => ⟨i, 1, i⟩

theorem next_cases (s : Filling S) :
    s.Ended ∧ s.next = s ∧ s.closing? = none ∨
      ∃ l g small large small' large', s.small = l :: small ∧ s.large = g :: large ∧
        s.closing? = some ⟨l, s.left l, g⟩ ∧ s.next = s.fill l g small' large' ∧
        (small' ++ large').Perm (g :: (small ++ large)) ∧
        ∀ i ∈ small', i ∈ small ∨ i = g ∧ (s.left g + s.left l) - 1 < 1 := by
  obtain ⟨scaled, c, small, large⟩ := s
  cases small with
  | nil => exact .inl ⟨.inl rfl, rfl, rfl⟩
  | cons l small =>
    cases large with
    | nil => exact .inl ⟨.inr rfl, rfl, rfl⟩
    | cons g large =>
      right
      -- Whichever stack the large column goes back to, the same indices are left.
      by_cases less : (scaled.getD g 0 + scaled.getD l 0) - 1 < 1
      · refine ⟨l, g, small, large, g :: small, large, rfl, rfl, rfl, if_pos less, .refl _, ?_⟩
        intro i member
        cases member with
        | head => exact .inr ⟨rfl, less⟩
        | tail _ member => exact .inl member
      · exact ⟨l, g, small, large, small, g :: large, rfl, rfl, rfl, if_neg less, List.perm_middle,
          fun i member => .inl member⟩

section Rounds

theorem closings_opened (s : Filling S) (k : Nat) :
    ((s.closings k).map (·.index) ++ (next^[k] s).opened).Perm s.opened := by
  induction k generalizing s with
  | zero => exact .refl _
  | succ k ih =>
    rw [Function.iterate_succ_apply, closings, List.map_append, List.append_assoc]
    refine ((ih s.next).append_left _).trans ?_
    rcases s.next_cases with ⟨-, stays, none⟩ |
      ⟨l, g, small, large, small', large', tops, tops', some, moves, puts, -⟩
    · rw [stays, none]
      exact .refl _
    · rw [moves, some]
      have reordered : (l :: (small' ++ large')).Perm (l :: small ++ g :: large) :=
        (puts.trans List.perm_middle.symm).cons l
      simpa [opened, fill, tops, tops'] using reordered

/-- Each index that was open is closed once, by a round or at the end. -/
theorem closings_leftovers (s : Filling S) (k : Nat) :
    ((s.closings k ++ (next^[k] s).leftovers).map (·.index)).Perm s.opened := by
  have left : ((next^[k] s).leftovers.map (·.index)).Perm (next^[k] s).opened := by
    simpa [leftovers, opened, Function.comp_def] using List.perm_append_comm
  rw [List.map_append]
  exact (left.append_left _).trans (s.closings_opened k)

theorem columns_after (s : Filling S) (k : Nat) :
    (next^[k] s).columns = (s.closings k).foldl apply s.columns := by
  induction k generalizing s with
  | zero => rfl
  | succ k ih =>
    rw [Function.iterate_succ_apply, ih, closings, List.foldl_append]
    rcases s.next_cases with ⟨-, stays, none⟩ | ⟨l, g, _, _, _, _, -, -, some, moves, -⟩
    · rw [stays, none]
      rfl
    · rw [moves, some]
      rfl

theorem mem_closings {s : Filling S} {n : Nat} {k : Closing S} (member : k ∈ s.closings n) :
    ∃ j < n, (next^[j] s).closing? = some k := by
  induction n generalizing s with
  | zero => cases member
  | succ n ih =>
    rcases List.mem_append.mp member with first | later
    · exact ⟨0, by omega, Option.mem_toList.mp first⟩
    · obtain ⟨j, before, closed⟩ := ih later
      exact ⟨j + 1, by omega, by rwa [Function.iterate_succ_apply]⟩

theorem closing?_eq_some {k : Closing S} (closes : s.closing? = some k) :
    s.small.head? = some k.index ∧ k.other ∈ s.large ∧ k.share = s.left k.index := by
  rcases s.next_cases with ⟨-, -, none⟩ | ⟨l, g, _, _, _, _, tops, tops', some, -⟩
  · rw [none] at closes
    cases closes
  · rw [some] at closes
    cases closes
    simp [tops, tops']

/-- Every round before the end has one column less to close. -/
theorem ended_or_opened (s : Filling S) (k : Nat) :
    (next^[k] s).Ended ∨ (next^[k] s).opened.length + k = s.opened.length := by
  induction k generalizing s with
  | zero => exact .inr rfl
  | succ k ih =>
    rw [Function.iterate_succ_apply]
    rcases s.next_cases with ⟨ended, stays, -⟩ |
      ⟨l, g, small, large, small', large', tops, tops', -, moves, puts, -⟩
    · left
      rw [stays, Function.iterate_fixed stays k]
      exact ended
    · refine (ih s.next).imp_right fun count => ?_
      have fewer := puts.length_eq
      rw [moves] at count ⊢
      simp only [opened, fill, tops, tops', List.length_append, List.length_cons] at count fewer ⊢
      omega

theorem ended_after (s : Filling S) : (next^[s.opened.length - 1] s).Ended := by
  rcases s.ended_or_opened (s.opened.length - 1) with ended | count
  · exact ended
  · -- One column at most is open, so that one of the stacks has none.
    set last := next^[s.opened.length - 1] s
    rw [opened, List.length_append] at count
    by_cases empty : last.small = []
    · exact .inl empty
    · have some := List.length_pos_iff.mpr empty
      exact .inr (List.length_eq_zero_iff.mp (by omega))

end Rounds

section Pair

theorem pair_next (s : Filling S) :
    pair s.next.scaled s.next.columns s.next.small s.next.large = pair s.scaled s.columns s.small s.large := by
  obtain ⟨scaled, c, small, large⟩ := s
  cases small with
  | nil => rfl
  | cons l small =>
    cases large with
    | nil => rfl
    | cons g large =>
      rw [pair, next]
      by_cases less : (scaled.getD g 0 + scaled.getD l 0) - 1 < 1
      · simp only [left, less, if_true]
        rfl
      · simp only [left, less, if_false]
        rfl

theorem pair_rounds (s : Filling S) (k : Nat) :
    pair (next^[k] s).scaled (next^[k] s).columns (next^[k] s).small (next^[k] s).large =
      pair s.scaled s.columns s.small s.large := by
  induction k with
  | zero => rfl
  | succ k ih => rw [Function.iterate_succ_apply', pair_next, ih]

theorem pair_ended (ended : s.Ended) :
    pair s.scaled s.columns s.small s.large = s.leftovers.foldl apply s.columns := by
  have stops (l : Nat) (small : List Nat) (g : Nat) (large : List Nat) (tops : s.small = l :: small)
      (tops' : s.large = g :: large) : False := by
    rcases ended with empty | empty
    · rw [empty] at tops
      cases tops
    · rw [empty] at tops'
      cases tops'
  rw [pair, ← List.foldl_append, leftovers, List.foldl_map]
  · rfl
  · exact stops

theorem pair_closings {k : Nat} (ended : (next^[k] s).Ended) :
    pair s.scaled s.columns s.small s.large =
      (s.closings k ++ (next^[k] s).leftovers).foldl apply s.columns := by
  rw [← pair_rounds s k, pair_ended ended, columns_after, ← List.foldl_append]

end Pair

/-- No index is on the stacks twice, and a small one has compared as less than one. -/
structure Tidy (s : Filling S) : Prop where
  once : s.opened.Nodup
  inside : ∀ i ∈ s.opened, i < s.scaled.size
  smalls : ∀ i ∈ s.small, s.left i < 1

theorem Tidy.next (tidy : s.Tidy) : s.next.Tidy := by
  rcases s.next_cases with ⟨-, stays, -⟩ |
    ⟨l, g, small, large, small', large', tops, tops', -, moves, puts, places⟩
  · rwa [stays]
  · have before : s.opened.Perm (l :: g :: (small ++ large)) := by
      rw [opened, tops, tops']
      exact List.perm_middle.cons l
    have nodup : (l :: g :: (small ++ large)).Nodup := before.nodup_iff.mp tidy.once
    have inside (i : Nat) (member : i ∈ l :: g :: (small ++ large)) : i < s.scaled.size :=
      tidy.inside i (before.mem_iff.mpr member)
    rw [moves]
    constructor
    · exact puts.nodup_iff.mpr nodup.of_cons
    · intro i member
      simpa [fill] using inside i (List.mem_cons_of_mem l (puts.mem_iff.mp member))
    · intro i member
      rw [left, fill, Array.getD_setIfInBounds (inside g (by simp))]
      -- What is new on the stack of small ones is the column whose remainder is small.
      rcases places i member with kept | ⟨rfl, less⟩
      · have differ : g ≠ i := by
          rintro rfl
          exact (List.nodup_cons.mp nodup.of_cons).1 (List.mem_append_left large kept)
        rw [if_neg differ]
        exact tidy.smalls i (by rw [tops]; exact List.mem_cons_of_mem l kept)
      · rwa [if_pos rfl]

theorem Tidy.rounds (tidy : s.Tidy) (k : Nat) : (Filling.next^[k] s).Tidy := by
  induction k with
  | zero => exact tidy
  | succ k ih =>
    rw [Function.iterate_succ_apply']
    exact ih.next

/-- A column is left whole, or a round has taken it from the top of the small ones. -/
theorem Tidy.closing_cases (tidy : s.Tidy) {n : Nat} {k : Closing S}
    (member : k ∈ s.closings n ++ (Filling.next^[n] s).leftovers) :
    k.share = 1 ∧ k.other = k.index ∨
      ∃ j < n, (Filling.next^[j] s).small.head? = some k.index ∧ k.other ∈ (Filling.next^[j] s).large ∧
        k.share = (Filling.next^[j] s).left k.index ∧ k.share < 1 := by
  rcases List.mem_append.mp member with during | after
  · right
    obtain ⟨j, before, closes⟩ := mem_closings during
    obtain ⟨smalls, larges, share⟩ := closing?_eq_some closes
    refine ⟨j, before, smalls, larges, share, ?_⟩
    rw [share]
    exact (tidy.rounds j).smalls k.index (List.mem_of_mem_head? smalls)
  · left
    obtain ⟨g, -, rfl⟩ := List.mem_map.mp after
    exact ⟨rfl, rfl⟩

/-- The columns of some weights before the first round. -/
def start (weights : List S) (total : S) : Filling S :=
  let n := weights.length
  let scaled := weights.map fun w => w * Scalar.ofNat n / total
  ⟨scaled.toArray, ⟨Array.replicate n 0, Array.replicate n 0⟩, (split scaled).1, (split scaled).2⟩

theorem start_opened (weights : List S) (total : S) :
    (start weights total).opened.Perm (List.range weights.length) := by
  have starts := split_starts (weights.map fun w => w * Scalar.ofNat weights.length / total)
  simpa [start, opened] using starts.once

theorem start_tidy (weights : List S) (total : S) : (start weights total).Tidy := by
  have starts := split_starts (weights.map fun w => w * Scalar.ofNat weights.length / total)
  have all := start_opened weights total
  constructor
  · exact all.nodup_iff.mpr List.nodup_range
  · intro i member
    simpa [start] using List.mem_range.mp (all.mem_iff.mp member)
  · exact starts.smalls

end Filling

open Filling

/-- What the rounds of pairing `n` columns close and leave, and the columns that they come to. -/
structure Paired {S : Type} [Scalar S] (n : Nat) (s : Filling S) (c : Columns S) : Prop where
  -- One round less than there are columns is enough.
  ends : (Filling.next^[n - 1] s).Ended
  -- After any number of rounds an index has been closed, or it is on one of the stacks.
  apart : ∀ k, ((s.closings k).map (·.index) ++ (Filling.next^[k] s).small ++ (Filling.next^[k] s).large).Perm
    (List.range n)
  -- The columns come of what the rounds close and of what they leave, in which each index has its turn once.
  closings : c = (s.closings (n - 1) ++ (Filling.next^[n - 1] s).leftovers).foldl apply s.columns
  once : ((s.closings (n - 1) ++ (Filling.next^[n - 1] s).leftovers).map (·.index)).Perm (List.range n)
  sizes : c.own.size = n ∧ c.aliases.size = n
  inside : ∀ i < n, c.other i < n
  -- A column is whole, or a round has taken it, as less than one, to share it with an index that was large then.
  shares : ∀ i < n, c.own.getD i 0 = 1 ∧ c.other i = i ∨
    ∃ k < n - 1, (Filling.next^[k] s).small.head? = some i ∧ c.other i ∈ (Filling.next^[k] s).large ∧
      c.own.getD i 0 = (Filling.next^[k] s).left i ∧ c.own.getD i 0 < 1

theorem Filling.Tidy.paired {S : Type} [Scalar S] {n : Nat} {s : Filling S} (tidy : s.Tidy)
    (all : s.opened.Perm (List.range n)) (sizes : s.columns.own.size = n ∧ s.columns.aliases.size = n) :
    Paired n s (pair s.scaled s.columns s.small s.large) := by
  have length : s.opened.length = n := by simpa using all.length_eq
  have ended := s.ended_after
  rw [length] at ended
  have once := (s.closings_leftovers (n - 1)).trans all
  have apart (k : Nat) := (s.closings_opened k).trans all
  have columns := pair_closings ended
  set c := pair s.scaled s.columns s.small s.large
  have shares (i : Nat) (inside : i < n) : c.own.getD i 0 = 1 ∧ c.other i = i ∨
      ∃ k < n - 1, (Filling.next^[k] s).small.head? = some i ∧ c.other i ∈ (Filling.next^[k] s).large ∧
        c.own.getD i 0 = (Filling.next^[k] s).left i ∧ c.own.getD i 0 < 1 := by
    -- Each index is found among the closings, by the one of which its column is known.
    obtain ⟨k, member, rfl⟩ := List.mem_map.mp (once.mem_iff.mpr (List.mem_range.mpr inside))
    obtain ⟨own, other⟩ := foldl_apply_closed (once.nodup_iff.mpr List.nodup_range) member
      (sizes.1 ▸ inside) (sizes.2 ▸ inside)
    rw [columns, own, other]
    exact tidy.closing_cases member
  refine ⟨ended, fun k => by simpa [opened] using apart k, columns, once, ?_, ?_, shares⟩
  · rw [columns, (foldl_apply_sizes _ _).1, (foldl_apply_sizes _ _).2]
    exact sizes
  · intro i inside
    rcases shares i inside with ⟨-, own⟩ | ⟨k, -, -, large, -⟩
    · rwa [own]
    · have listed := (apart k).mem_iff.mp (List.mem_append_right _ (List.mem_append_right _ large))
      exact List.mem_range.mp listed

/-- The columns of any weights come of as many closings as there are weights. -/
theorem ofWeights_paired {S : Type} [Scalar S] (weights : List S) (total : S) :
    Paired weights.length (Filling.start weights total) (ofWeights weights total) := by
  apply (Filling.start_tidy weights total).paired (Filling.start_opened weights total)
  simp [start]

end ChanceGraph.Columns
