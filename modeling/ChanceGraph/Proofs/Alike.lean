import ChanceGraph.Proofs.Tables

/-!
Values that are taken for one another: an equivalence, under which numbers are what they count.
-/

set_option autoImplicit false

namespace ChanceGraph

section Alike

variable {S : Type} [Scalar S] {eq : S → S → Bool}

omit [Scalar S] in
theorem all_zip_trans (trans : ∀ x y z, eq x y = true → eq y z = true → eq x z = true)
    {xs ys zs : List S} (lengths : xs.length = ys.length)
    (first : ((xs.zip ys).all fun (x, y) => eq x y) = true)
    (second : ((ys.zip zs).all fun (x, y) => eq x y) = true) :
    ((xs.zip zs).all fun (x, y) => eq x y) = true := by
  induction xs generalizing ys zs with
  | nil => rfl
  | cons x xs ih =>
    cases ys with
    | nil => cases lengths
    | cons y ys =>
      cases zs with
      | nil => rfl
      | cons z zs =>
        simp only [List.zip_cons_cons, List.all_cons, Bool.and_eq_true] at first second ⊢
        exact ⟨trans x y z first.1 second.1, ih (Nat.succ.inj lengths) first.2 second.2⟩

theorem Value.equalBy_some {u v : Value S} {m : Number S} (number : u.number? = some m) :
    u.equalBy eq v = true ↔ ∃ n, v.number? = some n ∧ m.equalBy eq n = true := by
  rw [equalBy_number number]
  cases v.number? <;> simp

def Number.Transitive (eq : S → S → Bool) : Prop :=
  ∀ a b c : Number S, a.equalBy eq b = true → b.equalBy eq c = true → a.equalBy eq c = true

theorem Value.equalBy_trans_number (numbers : Number.Transitive eq) {u v w : Value S}
    {m : Number S} (number : u.number? = some m)
    (first : u.equalBy eq v = true) (second : v.equalBy eq w = true) : u.equalBy eq w = true := by
  obtain ⟨n, known, first⟩ := (equalBy_some number).mp first
  obtain ⟨k, last, second⟩ := (equalBy_some known).mp second
  exact (equalBy_some number).mpr ⟨k, last, numbers m n k first second⟩

mutual

theorem Value.equalBy_trans (numbers : Number.Transitive eq) : ∀ u v w : Value S,
    u.equalBy eq v = true → v.equalBy eq w = true → u.equalBy eq w = true
  | .nothing, v, w, first, second => by
    cases v <;> simp_all [Value.equalBy]
  | .text s, v, w, first, second => by
    cases v <;> simp_all [Value.equalBy]
  | .tuple us, v, w, first, second => by
    cases v with
    | tuple vs =>
      cases w with
      | tuple ws =>
        simp only [Value.equalBy] at first second ⊢
        exact allEqualBy_trans numbers us vs ws first second
      | _ => simp [Value.equalBy] at second
    | _ => simp [Value.equalBy] at first
  | .list us, v, w, first, second => by
    cases v with
    | list vs =>
      cases w with
      | list ws =>
        simp only [Value.equalBy] at first second ⊢
        exact allEqualBy_trans numbers us vs ws first second
      | _ => simp [Value.equalBy] at second
    | _ => simp [Value.equalBy] at first
  | .vector xs, v, w, first, second => by
    cases v with
    | vector ys =>
      cases w with
      | vector zs =>
        simp only [Value.equalBy, Bool.and_eq_true, beq_iff_eq] at first second ⊢
        have each (x y z : S) : eq x y = true → eq y z = true → eq x z = true :=
          numbers (.real x) (.real y) (.real z)
        exact ⟨first.1.trans second.1, all_zip_trans each first.1 first.2 second.2⟩
      | _ => simp [Value.equalBy] at second
    | _ => simp [Value.equalBy] at first
  -- Truth values and numbers of either kind are compared with one another.
  | .bool _, _, _, first, second => Value.equalBy_trans_number numbers rfl first second
  | .int _, _, _, first, second => Value.equalBy_trans_number numbers rfl first second
  | .real _, _, _, first, second => Value.equalBy_trans_number numbers rfl first second

theorem allEqualBy_trans (numbers : Number.Transitive eq) : ∀ us vs ws : List (Value S),
    allEqualBy eq us vs = true → allEqualBy eq vs ws = true → allEqualBy eq us ws = true
  | [], vs, ws, first, second => by
    cases vs with
    | nil => exact second
    | cons v vs => simp [allEqualBy] at first
  | u :: us, vs, ws, first, second => by
    cases vs with
    | nil => simp [allEqualBy] at first
    | cons v vs =>
      cases ws with
      | nil => simp [allEqualBy] at second
      | cons w ws =>
        simp only [allEqualBy, Bool.and_eq_true] at first second ⊢
        exact ⟨Value.equalBy_trans numbers u v w first.1 second.1,
          allEqualBy_trans numbers us vs ws first.2 second.2⟩

end

end Alike

theorem Number.alike_iff {m n : Number Exact} :
    m.equalBy (fun x y => x == y || (Scalar.isNaN x && Scalar.isNaN y)) n = true ↔
      m.toExact = n.toExact := by
  have integral (k : Int) (x : Exact) (same : Exact.finite k = x) :
      (Scalar.floor? x == some k && Scalar.isIntegral x) = true := by
    subst same
    simp
  refine ⟨alike_exact, fun same => ?_⟩
  cases m with
  | int m =>
    cases n with
    | int n => simpa [equalBy] using same
    | real y => exact integral m y same
  | real x =>
    cases n with
    | int n => exact integral n x same.symm
    | real y => exact (Exact.alike_iff x y).mpr same

namespace Value

variable {u v w : Value Exact}

theorem alike_trans (first : u.alike v = true) (second : v.alike w = true) : u.alike w = true := by
  refine equalBy_trans (fun a b c left right => ?_) u v w first second
  rw [Number.alike_iff] at left right ⊢
  exact left.trans right

theorem alike_symm (alike : u.alike v = true) : v.alike u = true := by
  rwa [alike_comm]

theorem alike_congr (alike : u.alike v = true) (w : Value Exact) : u.alike w = v.alike w := by
  rw [Bool.eq_iff_iff]
  exact ⟨alike_trans (alike_symm alike), alike_trans alike⟩

theorem toExact_of_alike (alike : u.alike v = true) {m : Number Exact} (number : u.number? = some m) :
    ∃ n, v.number? = some n ∧ m.toExact = n.toExact := by
  obtain ⟨n, known, same⟩ := (equalBy_some number).mp alike
  exact ⟨n, known, Number.alike_iff.mp same⟩

end Value

theorem allEqualBy_map {α : Type} {eq : Exact → Exact → Bool} {f : α → Value Exact} {xs ys : List α}
    (each : ∀ x y, (f x).equalBy eq (f y) = true → x = y)
    (same : allEqualBy eq (xs.map f) (ys.map f) = true) : xs = ys := by
  induction xs generalizing ys with
  | nil =>
    cases ys with
    | nil => rfl
    | cons y ys => simp [allEqualBy] at same
  | cons x xs ih =>
    cases ys with
    | nil => simp [allEqualBy] at same
    | cons y ys =>
      simp only [List.map_cons, allEqualBy, Bool.and_eq_true] at same
      rw [each x y same.1, ih same.2]

theorem Value.real_of_alike {x y : Exact} (alike : (Value.real x).alike (.real y) = true) : x = y := by
  obtain ⟨n, known, same⟩ := toExact_of_alike alike rfl
  cases known
  exact same

theorem Value.number_of_integer {v : Value Exact} {n : Int} (integer : v.integer? = some n) :
    v.number? = some (.int n) := by
  cases v <;> simp_all [integer?, number?]

theorem Value.integer_of_alike {u v : Value Exact} {m n : Int} (alike : u.alike v = true)
    (first : u.integer? = some m) (second : v.integer? = some n) : m = n := by
  obtain ⟨_, known, same⟩ := toExact_of_alike alike (number_of_integer first)
  rw [number_of_integer second] at known
  cases known
  simpa using same

theorem Value.reals_of_alike {xs ys : List Exact}
    (alike : (Value.tuple (xs.map .real)).alike (.tuple (ys.map .real)) = true) : xs = ys := by
  simp only [Value.alike, equalBy] at alike
  exact allEqualBy_map (fun _ _ => real_of_alike) alike

theorem Value.tuple_alike {u v : Value Exact} {us vs : List (Value Exact)}
    (alike : (Value.tuple (u :: us)).alike (.tuple (v :: vs)) = true) :
    u.alike v = true ∧ (Value.tuple us).alike (.tuple vs) = true := by
  simpa [Value.alike, equalBy, allEqualBy] using alike

end ChanceGraph
