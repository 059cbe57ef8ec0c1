import ChanceGraph.Cache
import Mathlib

/-!
The cache and its generations: what is stored is seen until the generation ends.
-/

set_option autoImplicit false

namespace ChanceGraph.Cache

variable {S : Type} {c : Cache S}

/-- Nothing is stored for a generation to come. -/
def Past (c : Cache S) : Prop :=
  ∀ (id : ObjectId) (g : Int) (v : Value S), c.entries[id]? = some (g, v) → g ≤ c.generation

theorem past_empty (generation : Int) : ({ generation } : Cache S).Past := by
  intro id g v stored
  simp at stored

theorem past_new : (({} : Cache S)).Past :=
  past_empty 0

theorem get?_empty (generation : Int) (id : ObjectId) : ({ generation } : Cache S).get? id = none := by
  simp [get?]

theorem get?_new (id : ObjectId) : ({} : Cache S).get? id = none :=
  get?_empty 0 id

theorem get?_eq_some {id : ObjectId} {v : Value S} :
    c.get? id = some v ↔ c.entries[id]? = some (c.generation, v) := by
  unfold get?
  split
  · next g u stored =>
    rw [stored]
    split_ifs with now
    · simp [now]
    · simp [now]
  · next stored => simp [stored]

theorem get?_put (id id' : ObjectId) (v : Value S) :
    (c.put id v).get? id' = if id = id' then some v else c.get? id' := by
  ext u
  by_cases same : id = id'
  · simp [get?_eq_some, put, same]
  · rw [if_neg same, get?_eq_some, get?_eq_some]
    simp [put, Std.HashMap.getElem?_insert, same]

theorem get?_put_self (id : ObjectId) (v : Value S) : (c.put id v).get? id = some v := by
  rw [get?_put, if_pos rfl]

theorem get?_put_of_ne {id id' : ObjectId} (differ : id ≠ id') (v : Value S) :
    (c.put id v).get? id' = c.get? id' := by
  rw [get?_put, if_neg differ]

theorem get?_advance (past : c.Past) (id : ObjectId) : c.advance.get? id = none := by
  by_contra seen
  obtain ⟨v, seen⟩ := Option.ne_none_iff_exists'.mp seen
  have stored : c.entries[id]? = some (c.generation + 1, v) := get?_eq_some.mp seen
  have early := past id _ v stored
  omega

theorem Past.advance (past : c.Past) : c.advance.Past := by
  intro id g v stored
  have early := past id g v stored
  simp only [Cache.advance]
  omega

theorem Past.put (past : c.Past) (id : ObjectId) (v : Value S) : (c.put id v).Past := by
  intro id' g u stored
  simp only [Cache.put, Std.HashMap.getElem?_insert, beq_iff_eq] at stored ⊢
  split_ifs at stored
  · cases stored
    exact le_rfl
  · exact past id' g u stored

end ChanceGraph.Cache
