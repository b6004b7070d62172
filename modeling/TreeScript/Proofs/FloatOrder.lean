import TreeScript.Number.Basic

/-!
# The Order of Floats

Floats are ordered like places on a line: the infinities at its ends, zero in the
middle, and the others by their exponent first and their mantissa then. Only the float
that is undefined has no place. The comparison of floats is the one of their places, so
it is oriented and transitive where it is defined.

A partial comparison is said to chain on three elements if the two steps from the first
to the last one, none of them down, add up: the last one is then as far up as either
step leads. This contains the laws for equality and for both orders at once.

Places are there so that transitivity needs no cases. The comparison of floats is defined by
cases on both of them, and a law of three floats would have to go through all triples. The
order of triples of integers is transitive by the library, and what is left to look at is
that floats are ordered as their places are, one pair of constructors at a time. For
negative floats the exponent and the mantissa are negated, which turns the order round.

Both zeros have one place. That is right for the order, where they are equal, but it means
that a place does not determine the float.

## Main definitions

* `Chains`: The comparisons of three elements add up.
* `place`, `comparePlaces`: The place of a float on the line.

## Theorems

* `compare_then`: Total comparisons chain.
* `compare_eq_places`: Floats are compared by their places.
* `floatCompare_swap`, `floatCompare_self`, `floatCompare_chains`: The order of floats.
* `chains_of_total`: A total comparison chains on any elements.
* `compare_finite`: Finite floats are compared by side, exponent and mantissa.
* `floatCompare_eq_some_iff`: Floats are ordered if both have a place, and then as these
  are.
-/

namespace TreeScript

open Float.Model (UnpackedFloat)
open Float.Model.UnpackedFloat (Sign)

/-- Two steps up or on the level add up to the step from the first to the last element. -/
def Chains {α : Type} (cmp : α → α → Option Ordering) (a b c : α) : Prop :=
  ∀ p q, cmp a b = some p → cmp b c = some q → p.isLE = true → q.isLE = true →
    cmp a c = some (p.then q)

/-- In a chain of two comparisons the outer verdict is the first one that is not `eq`. -/
theorem compare_then {α : Type} {cmp : α → α → Ordering} [Std.TransCmp cmp] {a b c : α}
    (hab : (cmp a b).isLE = true) (hbc : (cmp b c).isLE = true) :
    cmp a c = (cmp a b).then (cmp b c) := by
  cases hp : cmp a b with
  | lt => exact Std.TransCmp.lt_of_lt_of_isLE hp hbc
  | eq => exact Std.TransCmp.congr_left hp
  | gt =>
      rw [hp] at hab
      cases hab

/-- A total comparison chains. -/
theorem chains_of_total {α : Type} {cmp : α → α → Ordering} [Std.TransCmp cmp] (a b c : α) :
    Chains (fun a b => some (cmp a b)) a b c := by
  intro p q hp hq hple hqle
  cases hp
  cases hq
  exact congrArg some (compare_then hple hqle)

/-- The place of a float that is not undefined: its part of the line, and within a part the
    exponent and the mantissa. -/
def place : UnpackedFloat → Int × Int × Int
  | .infinity .positive => (2, 0, 0)
  | .infinity .negative => (-2, 0, 0)
  | .zero _ => (0, 0, 0)
  | .finite .positive m e _ => (1, e, m)
  | .finite .negative m e _ => (-1, -e, -m)
  | .notANumber => (0, 0, 0)

/-- The order of places. -/
def comparePlaces : Int × Int × Int → Int × Int × Int → Ordering :=
  compareLex (compareOn fun p => p.1)
    (compareLex (compareOn fun p => p.2.1) (compareOn fun p => p.2.2))

instance : Std.TransCmp comparePlaces :=
  inferInstanceAs (Std.TransCmp (compareLex _ (compareLex _ _)))

theorem compare_neg (m n : Int) : compare (-m) (-n) = (compare m n).swap := by
  rw [← Std.OrientedOrd.eq_swap]
  rcases Int.lt_trichotomy m n with h | h | h
  · rw [Int.compare_eq_gt.mpr (by omega), Int.compare_eq_gt.mpr h]
  · rw [h, Int.compare_eq_eq.mpr rfl, Int.compare_eq_eq.mpr rfl]
  · rw [Int.compare_eq_lt.mpr (by omega), Int.compare_eq_lt.mpr h]

/-- Two finite floats are ordered as their places are: by side of zero, exponent and mantissa. -/
theorem compare_finite (s s' : Sign) {m m' : Nat} (e e' : Int) (hm : 0 < m) (hm' : 0 < m') :
    (UnpackedFloat.finite s m e hm).compare (.finite s' m' e' hm') =
      some (comparePlaces (place (.finite s m e hm)) (place (.finite s' m' e' hm'))) := by
  have hmantissa : compare (m : Int) (m' : Int) = compare m m' := by
    simp only [compare, compareOfLessAndEq, Int.ofNat_lt, Int.ofNat_inj]
  -- With one sign the places are compared, turned round below zero. With two, the sign decides.
  cases s <;> cases s'
  · have hplaces : comparePlaces (-1, -e, -(m : Int)) (-1, -e', -(m' : Int)) =
        ((compare e e').then (compare m m')).swap := by
      rw [Ordering.swap_then, ← compare_neg, ← hmantissa, ← compare_neg]
      rfl
    exact congrArg some hplaces.symm
  · rfl
  · rfl
  · have hplaces : comparePlaces (1, e, m) (1, e', m') = (compare e e').then (compare m m') := by
      rw [← hmantissa]
      rfl
    exact congrArg some hplaces.symm

/-- Floats are compared by their places. -/
theorem compare_eq_places {x y : UnpackedFloat} (hx : x ≠ .notANumber) (hy : y ≠ .notANumber) :
    x.compare y = some (comparePlaces (place x) (place y)) := by
  -- Between different parts of the line, the parts decide.
  cases x with
  | notANumber => exact absurd rfl hx
  | infinity s =>
      cases y with
      | notANumber => exact absurd rfl hy
      | infinity s' => cases s <;> cases s' <;> rfl
      | zero s' => cases s <;> rfl
      | finite s' _ _ _ => cases s <;> cases s' <;> rfl
  | zero s =>
      cases y with
      | notANumber => exact absurd rfl hy
      | infinity s' => cases s' <;> rfl
      | zero s' => rfl
      | finite s' _ _ _ => cases s' <;> rfl
  | finite s m e hm =>
      cases y with
      | notANumber => exact absurd rfl hy
      | infinity s' => cases s <;> cases s' <;> rfl
      | zero s' => cases s <;> rfl
      | finite s' m' e' hm' => exact compare_finite s s' e e' hm hm'

/-- The order of two floats. -/
def floatCompare (x y : Float) : Option Ordering := x.toModel.compare y.toModel

variable {x y z : Float} {o : Ordering}

/-- Where floats are ordered they have places, and those are. -/
theorem floatCompare_eq_some_iff : floatCompare x y = some o ↔
    x.toModel.unpack ≠ .notANumber ∧ y.toModel.unpack ≠ .notANumber ∧
      comparePlaces (place x.toModel.unpack) (place y.toModel.unpack) = o := by
  have hleft : ∀ u, UnpackedFloat.compare .notANumber u = none := fun u => by cases u <;> rfl
  have hright : ∀ u, UnpackedFloat.compare u .notANumber = none := fun u => by cases u <;> rfl
  unfold floatCompare Float.Model.compare
  -- NaN is not ordered, on either side.
  by_cases hx : x.toModel.unpack = .notANumber
  · rw [hx, hleft]
    exact iff_of_false nofun fun h => h.1 rfl
  · by_cases hy : y.toModel.unpack = .notANumber
    · rw [hy, hright]
      exact iff_of_false nofun fun h => h.2.1 rfl
    · rw [compare_eq_places hx hy, Option.some.injEq]
      exact ⟨fun h => ⟨hx, hy, h⟩, fun h => h.2.2⟩

/-- Floats are ordered transitively, where they are ordered. -/
theorem floatCompare_chains (x y z : Float) : Chains floatCompare x y z := by
  intro p q hp hq hple hqle
  rcases floatCompare_eq_some_iff.mp hp with ⟨hx, hy, hxy⟩
  rcases floatCompare_eq_some_iff.mp hq with ⟨_, hz, hyz⟩
  rw [← hxy] at hple ⊢
  rw [← hyz] at hqle ⊢
  exact floatCompare_eq_some_iff.mpr ⟨hx, hz, compare_then hple hqle⟩

/-- Swapping two floats swaps their order, and NaN stays unordered. -/
theorem floatCompare_swap (x y : Float) :
    floatCompare y x = (floatCompare x y).map Ordering.swap := by
  cases h : floatCompare x y with
  | some o =>
      rcases floatCompare_eq_some_iff.mp h with ⟨hx, hy, hxy⟩
      exact floatCompare_eq_some_iff.mpr ⟨hy, hx, Std.OrientedCmp.eq_swap.trans (congrArg _ hxy)⟩
  | none =>
      cases h' : floatCompare y x with
      | none => rfl
      | some o =>
          rcases floatCompare_eq_some_iff.mp h' with ⟨hy, hx, hyx⟩
          -- Floats that are ordered one way have places, and so they are ordered the other way.
          have hback := floatCompare_eq_some_iff.mpr ⟨hx, hy, rfl⟩
          rw [h] at hback
          cases hback

/-- A float that has a place has the place of itself. -/
theorem floatCompare_self (h : floatCompare x x = some o) : o = .eq :=
  (floatCompare_eq_some_iff.mp h).2.2.symm.trans Std.ReflCmp.compare_self

end TreeScript
