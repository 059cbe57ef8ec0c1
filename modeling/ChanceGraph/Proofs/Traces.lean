import ChanceGraph.Chain
import ChanceGraph.Proofs.Outcome

/-!
Choices looked up in traces.
-/

set_option autoImplicit false

namespace ChanceGraph

variable {S : Type} [Scalar S]

omit [Scalar S] in
theorem checkedLeafKey_ok {l : Leaf S} {k : LeafKey S} :
    checkedLeafKey l = .ok k ↔ l.key = .ok k ∧ k.isKey = true := by
  simp only [checkedLeafKey, Outcome.bind_ok, Outcome.ite_ok, Outcome.pure_ok, Outcome.throw_ne_ok,
    and_false, or_false]
  constructor
  · rintro ⟨k, known, checked, rfl⟩
    exact ⟨known, checked⟩
  · rintro ⟨known, checked⟩
    exact ⟨k, known, checked, rfl⟩

namespace Trace

theorem find?_ok {t : Trace S} {address : Address} {l : Leaf S} {c : Choice S}
    (found : t.find? address l = .ok (some c)) :
    c ∈ t.choices ∧ c.address = address ∧
      ∃ k k', c.leaf.key = .ok k ∧ l.key = .ok k' ∧ k.same k' = true := by
  obtain ⟨index, indexed, found⟩ := Outcome.bind_ok.mp found
  obtain ⟨k', known, found⟩ := Outcome.bind_ok.mp found
  simp only [Outcome.pure_ok, Option.map_eq_some_iff, Prod.exists, exists_eq_right] at found
  obtain ⟨k, found⟩ := found
  obtain ⟨choice, member, made⟩ := Outcome.exists_of_mem_mapM indexed (List.mem_of_find?_eq_some found)
  obtain ⟨_, checked, made⟩ := Outcome.bind_ok.mp made
  cases made
  have matched := List.find?_some found
  simp only [Bool.and_eq_true, beq_iff_eq] at matched
  exact ⟨member, matched.1, k, k', (checkedLeafKey_ok.mp checked).1, (checkedLeafKey_ok.mp known).1,
    matched.2⟩

end Trace

section Kept

variable {p : Proposal S} {address : Address} {l : Leaf S} {c : Choice S}

theorem Proposal.kept_of_found {anew : Bool} (found : p.previous.find? address l = .ok (some c))
    (judged : p.redraws address l = .ok anew) : p.kept address l = .ok (if anew then none else some c) := by
  rw [kept, found, Outcome.ok_bind]
  simp only [judged, Outcome.ok_bind]
  rfl

theorem Proposal.kept_iff : p.kept address l = .ok (some c) ↔
    p.previous.find? address l = .ok (some c) ∧ p.redraws address l = .ok false := by
  constructor
  · intro kept
    obtain ⟨found, looked, decided⟩ := Outcome.bind_ok.mp kept
    cases found with
    | none => cases decided
    | some old =>
      obtain ⟨anew, judged, decided⟩ := Outcome.bind_ok.mp decided
      cases anew with
      | true => cases decided
      | false =>
        cases decided
        exact ⟨looked, judged⟩
  · rintro ⟨found, judged⟩
    exact kept_of_found found judged

theorem Proposal.kept_ok (kept : p.kept address l = .ok (some c)) :
    p.previous.find? address l = .ok (some c) :=
  (kept_iff.mp kept).1

end Kept

end ChanceGraph
