import ChanceGraph.Proofs.Renaming
import ChanceGraph.Proofs.Tables

/-!
The traces that a graph may leave: one value of its table for each leaf on a path without filters.
Two of them are alike up to the first leaf that takes another value.
-/

set_option autoImplicit false

namespace ChanceGraph

namespace Choice

noncomputable def chance (c : Choice Exact) : ℝ :=
  c.leaf.chance c.value

/-- The same choice with the same outcome, whether or not it was kept. -/
def Same (c d : Choice Exact) : Prop :=
  c.address = d.address ∧ c.leaf.key = d.leaf.key ∧ c.value = d.value

/-- What one trace has at an address, the other one looks up there. -/
def Shares (c d : Choice Exact) : Prop :=
  c.address = d.address ∧ ∃ k k', c.leaf.key = .ok k ∧ d.leaf.key = .ok k' ∧ k.same k' = true

theorem Shares.symm {c d : Choice Exact} (shares : c.Shares d) : d.Shares c := by
  obtain ⟨address, k, k', key, key', same⟩ := shares
  refine ⟨address.symm, k', k, key', key, ?_⟩
  rw [LeafKey.same, Bool.and_eq_true, beq_iff_eq] at same ⊢
  exact ⟨same.1.symm, Value.alike_comm .. ▸ same.2⟩

/-- What a traversal records of a leaf that it gives a value of its table. -/
structure Sound (c : Choice Exact) : Prop where
  tabular : c.leaf.distribution.Tabular
  listed : ∃ w, c.leaf.Lists c.value w
  scored : c.leaf.distribution.logDensity c.value = .ok c.logScore

end Choice

/-- A traversal without filters from an address and a stamp: its choices, its outcome, and where it
ends. -/
inductive Records : Node Exact → Address → Nat → List (Choice Exact) → Sample Exact → Address → Nat →
    Prop where
  | constant {l : Leaf Exact} {v : Value Exact} (address : Address) (stamp : Nat)
    (point : l.distribution = .constant v) :
    Records (.leaf l) address stamp [] (.ofValue v) address stamp
  | leaf {l : Leaf Exact} {c : Choice Exact} {address : Address} (stamp : Nat) (sound : c.Sound)
    (object : c.leaf = l) (place : c.address = address) :
    Records (.leaf l) address stamp [c] (.ofValue c.value) address stamp
  | weightedMap {n : Node Exact} {project : Value Exact → Outcome Exact (Weighted Exact)}
    {address address' : Address} {stamp stamp' : Nat} {choices : List (Choice Exact)}
    {a b : Sample Exact} {r : Weighted Exact}
    (inner : Records n (address.advance .map) stamp choices a address' stamp')
    (projects : project a.value = .ok r) (result : a.project r = .ok b) :
    Records (.weightedMap n project) address stamp choices b address' stamp'
  | weightedBind {n : Node Exact} {dependent : Value Exact → Nat → Node Exact}
    {combine : Value Exact → Value Exact → Outcome Exact (Weighted Exact)}
    {address address₁ address' : Address} {stamp stamp₁ stamp' : Nat}
    {choices choices' : List (Choice Exact)} {a b c : Sample Exact} {r : Weighted Exact}
    (first : Records n (address.advance .bind) stamp choices a address₁ stamp₁)
    (second : Records (dependent a.value stamp₁) (address₁.advance .bind) (stamp₁ + 1) choices' c
      address' stamp')
    (combines : combine a.value c.value = .ok r) (result : a.combine c r = .ok b) :
    Records (.weightedBind n dependent combine) address stamp (choices ++ choices') b address' stamp'

namespace Records

variable {n n' : Node Exact} {address address₁ address₂ : Address} {stamp stamp' stamp₁ stamp₂ : Nat}
  {choices choices' : List (Choice Exact)} {a b : Sample Exact}

theorem sound (records : Records n address stamp choices a address₁ stamp₁) :
    ∀ c ∈ choices, c.Sound := by
  induction records with
  | constant => simp
  | leaf _ sound _ _ => simpa using sound
  | weightedMap _ _ _ ih => exact ih
  | weightedBind _ _ _ _ ih ih' => exact List.forall_mem_append.mpr ⟨ih, ih'⟩

theorem binds (records : Records n address stamp choices a address₁ stamp₁) :
    address.binds ≤ address₁.binds ∧
      (∀ c ∈ choices, address.binds ≤ c.address.binds ∧ c.address.binds ≤ address₁.binds) ∧
      choices.Pairwise fun c d => c.address.binds < d.address.binds := by
  -- Every bind on the way is counted, so the counter tells any two leaves apart.
  induction records with
  | constant => simp
  | leaf _ _ _ place => simp [place]
  | weightedMap _ _ _ ih => exact ih
  | weightedBind _ _ _ _ ih ih' =>
    obtain ⟨grows, within, sorted⟩ := ih
    obtain ⟨grows', within', sorted'⟩ := ih'
    simp only [Address.advance] at grows within grows' within'
    refine ⟨by omega, ?_, List.pairwise_append.mpr ⟨sorted, sorted', ?_⟩⟩
    · intro c member
      rcases List.mem_append.mp member with member | member
      · have bounds := within c member
        omega
      · have bounds := within' c member
        omega
    · intro c member d member'
      have bounds := within c member
      have bounds' := within' d member'
      omega

theorem addresses (records : Records n address stamp choices a address₁ stamp₁) :
    (choices.map (·.address)).Nodup := by
  refine List.pairwise_map.mpr (records.binds.2.2.imp fun {c d} less same => ?_)
  rw [same] at less
  exact lt_irrefl _ less

end Records

/-- Leaves from before both traversals are the same in both; those that a call makes have the stamp of
that call. -/
def Renaming.shift (built start start' : Nat) : Renaming := fun a b =>
  a = b ∧ a.stamp < built ∨ ∃ d i, a = ⟨start + d, i⟩ ∧ b = ⟨start' + d, i⟩

/-- Two counters have moved by the same amount. -/
def Abreast (start start' stamp stamp' : Nat) : Prop :=
  ∃ d, stamp = start + d ∧ stamp' = start' + d

theorem Abreast.succ {start start' stamp stamp' : Nat} (abreast : Abreast start start' stamp stamp') :
    Abreast start start' (stamp + 1) (stamp' + 1) := by
  obtain ⟨d, rfl, rfl⟩ := abreast
  exact ⟨d + 1, rfl, rfl⟩

namespace Renaming

variable {built start start' : Nat} {a b : ObjectId}

theorem shift_extend {stamp stamp' : Nat} (abreast : Abreast start start' stamp stamp')
    (related : (shift built start start').extend stamp stamp' a b) : shift built start start' a b := by
  obtain ⟨d, rfl, rfl⟩ := abreast
  rcases related with related | ⟨i, rfl, rfl⟩
  · exact related
  · exact .inr ⟨d, i, rfl, rfl⟩

end Renaming

/-- One leaf that takes two values. -/
def Forks (ids : Renaming) (choices choices' : List (Choice Exact)) : Prop :=
  ∃ x ∈ choices, ∃ y ∈ choices', x.address = y.address ∧
    x.leaf.distribution = y.leaf.distribution ∧ ids x.leaf.id y.leaf.id ∧ x.value ≠ y.value

theorem Forks.append {ids : Renaming} {xs ys xs' ys' : List (Choice Exact)}
    (forks : Forks ids xs xs' ∨ Forks ids ys ys') : Forks ids (xs ++ ys) (xs' ++ ys') := by
  rcases forks with ⟨x, member, y, member', fork⟩ | ⟨x, member, y, member', fork⟩
  · exact ⟨x, List.mem_append_left _ member, y, List.mem_append_left _ member', fork⟩
  · exact ⟨x, List.mem_append_right _ member, y, List.mem_append_right _ member', fork⟩

/-- Two traversals of one graph take the same path, unless some leaf takes two values. -/
theorem Records.fork {n n' : Node Exact} {address address₁ address₂ : Address}
    {built start start' stamp stamp' stamp₁ stamp₂ : Nat} {choices choices' : List (Choice Exact)}
    {a b : Sample Exact} (renamed : n.Renamed (.shift built start start') n')
    (abreast : Abreast start start' stamp stamp')
    (left : Records n address stamp choices a address₁ stamp₁)
    (right : Records n' address stamp' choices' b address₂ stamp₂) :
    Forks (.shift built start start') choices choices' ∨
      List.Forall₂ Choice.Same choices choices' ∧ a = b ∧ address₁ = address₂ ∧
        Abreast start start' stamp₁ stamp₂ := by
  -- Up to the fork the two counters move together, so the leaves that calls make stay paired.
  induction left generalizing n' stamp' choices' b address₂ stamp₂ with
  | constant address stamp point =>
    cases renamed with
    | leaf _ same =>
      cases right with
      | constant _ _ point' =>
        rw [← same, point] at point'
        cases point'
        exact .inr ⟨.nil, rfl, rfl, abreast⟩
      | leaf _ sound object _ =>
        subst object
        exact absurd (same.symm.trans point) (sound.tabular.ne_constant _)
  | @leaf l c address stamp sound object place =>
    subst object
    cases renamed with
    | leaf ids same =>
      cases right with
      | constant _ _ point => exact absurd (same.trans point) (sound.tabular.ne_constant _)
      | @leaf l' c' _ _ sound' object' place' =>
        subst object'
        have address : c.address = c'.address := place.trans place'.symm
        by_cases agree : c.value = c'.value
        · have keys : c.leaf.key = c'.leaf.key := by
            rw [Leaf.key, Leaf.key, same]
          exact .inr ⟨.cons ⟨address, keys, agree⟩ .nil, by rw [agree], rfl, abreast⟩
        · exact .inl ⟨c, by simp, c', by simp, address, same, ids, agree⟩
  | weightedMap inner projects result ih =>
    cases renamed with
    | weightedMap source =>
      cases right with
      | weightedMap inner' projects' result' =>
        rcases ih source abreast inner' with fork | ⟨same, rfl, rfl, abreast⟩
        · exact .inl fork
        · rw [projects, Except.ok.injEq] at projects'
          subst projects'
          rw [result, Except.ok.injEq] at result'
          exact .inr ⟨same, result', rfl, abreast⟩
  | weightedBind first second combines result ih ih' =>
    cases renamed with
    | weightedBind source calls =>
      cases right with
      | weightedBind first' second' combines' result' =>
        rcases ih source abreast first' with fork | ⟨same, rfl, rfl, abreast⟩
        · exact .inl (.append (.inl fork))
        · have called {v : Value Exact} {k k' : Nat} (abreast : Abreast start start' k k') :=
            (calls v k k').mono fun _ _ => Renaming.shift_extend abreast
          rcases ih' (called abreast) abreast.succ second' with fork | ⟨same', rfl, rfl, abreast⟩
          · exact .inl (.append (.inr fork))
          · rw [combines, Except.ok.injEq] at combines'
            subst combines'
            rw [result, Except.ok.injEq] at result'
            exact .inr ⟨List.rel_append same same', result', rfl, abreast⟩

end ChanceGraph
