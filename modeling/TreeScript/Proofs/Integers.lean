import Mathlib.Algebra.Order.Field.Power
import Mathlib.Tactic.Positivity
import TreeScript.Proofs.FloatOrder
import TreeScript.Proofs.Indexing

/-!
# Integers Among the Numbers

Sides of blocks, positions in arrays and indices of sequences have to be integers, and each of
the three checks has a fault of its own for a value that is none. What the checks ask of a
number is more than that: as an integer it has to fit into 64 bits. So the fault says of a
float from `2 ^ 63` on that it is no integer, although all of these floats are.

To tell the two conditions apart, a number is given its exact value as a rational number. A
float is a number of units of a power of two, and it is an integer if the units add up to one.
This does not look at the range, and what the range adds is seen from there.

`Dyadic.whole?_eq_some_iff` relates the first part of the check on a float to the value,
by cases on the sign of the exponent, and the second part is then a comparison of
integers. Infinite and undefined floats have no value. Without one, the two parts could
only be told apart by reading the check.

The three checks go through one definition, `Value.whole?`, and each of the faults is
characterised by it: by the first side or index of a list that it refuses, or by the index
of a sequence.

## Main definitions

* `Dyadic.value`, `Number.value?`: The exact value of a number.
* `Number.IsWord`: The number is an integer of 64 bits.

## Theorems

* `Dyadic.whole?_eq_some_iff`: A float is recognised as the integer that is its value.
* `Number.whole?_of_value`: An integer is recognised if it lies in the range.
* `Number.isNegative_iff`: The sign of a number is that of its value.
* `Heap.dimensions_eq_notWhole_iff`, `Heap.positions_eq_notWhole_iff`,
  `Heap.index_eq_notWhole_iff`: What is refused for being no integer.
* `integers_are_recognised_in_range`: What the checks say about integers.
* `great_integers_are_refused_as_fractions`: An integer that is said to be none.
* `Dyadic.value_neg_iff`, `lt_zero_iff`: The sign of a float.
* `Number.whole?_eq_none_iff`, `Number.value?_of_whole`: What is not recognised, and what
  is.
* `Heap.dimensions_eq_error`: The first side that is refused decides on the fault.
-/

namespace TreeScript

open Float.Model (UnpackedFloat)

/-- The value of a finite float as a rational number. -/
def Dyadic.value (d : Dyadic) : ℚ := d.signed d.mantissa * 2 ^ d.exponent

namespace Dyadic

variable {d : Dyadic} {z : Int}

theorem signed_mul (d : Dyadic) (a b : Nat) : d.signed (a * b) = d.signed a * b := by
  unfold signed
  split <;> simp

theorem natAbs_signed (d : Dyadic) (n : Nat) : (d.signed n).natAbs = n := by
  unfold signed
  split <;> simp

/-- A float is recognised as an integer exactly if that is its value. -/
theorem whole?_eq_some_iff : d.whole? = some z ↔ d.value = z := by
  unfold whole? value
  by_cases he : 0 ≤ d.exponent
  · -- The value is a product of integers.
    have hvalue : (d.signed d.mantissa : ℚ) * 2 ^ d.exponent =
        (d.signed (d.mantissa * Nat.pow 2 d.exponent.toNat) : Int) := by
      conv_lhs => rw [← Int.toNat_of_nonneg he]
      rw [signed_mul, zpow_natCast, Nat.pow_eq]
      push_cast
      rfl
    rw [if_pos he, hvalue, Option.some.injEq, Int.cast_inj]
  · have hvalue : (d.signed d.mantissa : ℚ) * 2 ^ d.exponent = z ↔
        d.signed d.mantissa = z * (2 ^ (-d.exponent).toNat : Nat) := by
      have hneg : d.exponent = -((-d.exponent).toNat : Int) := by omega
      conv_lhs => rw [hneg]
      rw [zpow_neg, zpow_natCast, ← div_eq_mul_inv, div_eq_iff (by positivity)]
      norm_cast
    rw [if_neg he, hvalue, Nat.pow_eq]
    dsimp only
    generalize hunit : 2 ^ (-d.exponent).toNat = unit
    have hpos : 0 < unit := by
      rw [← hunit]
      positivity
    by_cases hmod : d.mantissa % unit = 0
    · rcases Nat.dvd_of_mod_eq_zero hmod with ⟨q, hq⟩
      rw [if_pos hmod, Option.some.injEq, hq, Nat.mul_div_cancel_left q hpos, Nat.mul_comm,
        signed_mul, Int.mul_eq_mul_right_iff (by omega)]
    · -- A product with the unit would have it as a divisor.
      rw [if_neg hmod]
      refine iff_of_false nofun fun heq => hmod ?_
      have habs := congrArg Int.natAbs heq
      rw [natAbs_signed, Int.natAbs_mul, Int.natAbs_natCast] at habs
      rw [habs, Nat.mul_mod_left]

theorem value_neg_iff : d.value < 0 ↔ d.negative = true ∧ d.mantissa ≠ 0 := by
  -- The power of two is positive, so the sign is that of the mantissa.
  have hunit : (0 : ℚ) < 2 ^ d.exponent := by positivity
  have hsign : d.signed d.mantissa < 0 ↔ d.negative = true ∧ d.mantissa ≠ 0 := by
    unfold signed
    by_cases hn : d.negative = true
    · simp only [hn, if_true, true_and]
      omega
    · simp only [hn, Bool.false_eq_true, if_false, false_and, iff_false]
      omega
  rw [← hsign, value, mul_neg_iff]
  simp [hunit, hunit.not_gt]

end Dyadic

/-- A finite float lies below zero if it is not zero and has the sign. -/
theorem lt_zero_iff {x : Float} {d : Dyadic} (hd : FloatView.of x = .finite d) :
    x < 0.0 ↔ d.negative = true ∧ d.mantissa ≠ 0 := by
  have hlt : x < 0.0 ↔ x.toModel.unpack.compare (.zero .positive) = some .lt :=
    decide_eq_true_iff.trans beq_iff_eq
  rw [hlt]
  unfold FloatView.of at hd
  -- Zero is compared with the part of the line on which the float lies.
  cases hx : x.toModel.unpack with
  | notANumber =>
      rw [hx] at hd
      cases hd
  | infinity s =>
      rw [hx] at hd
      cases hd
  | zero s =>
      rw [hx] at hd
      cases hd
      exact iff_of_false (fun h => by cases h) fun h => h.2 rfl
  | finite s m e hm =>
      rw [hx] at hd
      cases hd
      cases s with
      | negative => exact iff_of_true rfl ⟨rfl, Nat.ne_of_gt hm⟩
      | positive =>
          exact iff_of_false (fun h => by cases h) fun h => by cases h.1

namespace Number

variable {x : Number} {q : ℚ} {z : Int} {n : Int64}

/-- The exact value of a number. A float that is infinite or undefined has none. -/
def value? : Number → Option ℚ
  | .int n => some n.toInt
  | .float x => match FloatView.of x with
    | .finite d => some d.value
    | _ => none

/-- The number is an integer of 64 bits. -/
def IsWord (x : Number) : Prop := ∃ z : Int, x.value? = some (z : ℚ) ∧ -2 ^ 63 ≤ z ∧ z < 2 ^ 63

/-- A float is read as a whole number exactly when its value is one that fits a word. -/
theorem whole?_eq_some_iff : x.whole? = some n ↔ x.value? = some (n.toInt : ℚ) := by
  cases x with
  | int m => simp [whole?, value?, Int64.toInt_inj]
  | float x =>
      cases hx : FloatView.of x with
      | finite d =>
          simp only [whole?, value?, hx, Option.bind_eq_some_iff, Option.some.injEq,
            Dyadic.whole?_eq_some_iff, int64?_eq_some_iff]
          constructor
          · rintro ⟨z, hz, rfl⟩
            exact hz
          · exact fun hn => ⟨n.toInt, hn, rfl⟩
      | _ => simp [whole?, value?, hx]

/-- An integer is recognised if it lies in the range. -/
theorem whole?_of_value (hz : x.value? = some (z : ℚ)) : x.whole? = int64? z := by
  refine Option.ext fun n => ?_
  rw [whole?_eq_some_iff, int64?_eq_some_iff, hz, Option.some.injEq, Int.cast_inj, eq_comm]

theorem value?_of_whole {x : Float} {d : Dyadic} (hd : FloatView.of x = .finite d)
    (hz : d.whole? = some z) : (Number.float x).value? = some (z : ℚ) := by
  simp only [value?, hd, Dyadic.whole?_eq_some_iff.mp hz]

/-- It is not read as one when its value is no word: fractional, not finite or too large. -/
theorem whole?_eq_none_iff : x.whole? = none ↔ ¬ x.IsWord := by
  constructor
  · rintro hnone ⟨z, hz, hrange⟩
    rw [whole?_of_value hz] at hnone
    exact int64?_eq_none_iff.mp hnone hrange
  · intro hword
    refine Option.eq_none_iff_forall_ne_some.mpr fun n hn => hword ?_
    exact ⟨n.toInt, whole?_eq_some_iff.mp hn, n.le_toInt, n.toInt_lt⟩

/-- The sign of a number is that of its value. -/
theorem isNegative_iff (hq : x.value? = some q) : x.isNegative = true ↔ q < 0 := by
  cases x with
  | int n =>
      cases hq
      simp [isNegative, Int64.lt_iff_toInt_lt]
  | float x =>
      -- A float is negative if it is less than zero, which negative zero is not.
      have hlt : (Number.float x).isNegative = true ↔ x < 0.0 := decide_eq_true_iff
      cases hx : FloatView.of x with
      | finite d =>
          simp only [value?, hx, Option.some.injEq] at hq
          rw [hlt, lt_zero_iff hx, ← hq, Dyadic.value_neg_iff]
      | _ => simp [value?, hx] at hq

end Number

/-- A step that may fail fails on a list at the first element at which it does. -/
theorem mapM_eq_error_iff {α β ε : Type} {g : α → Except ε β} {as : List α} {e : ε} :
    as.mapM g = .error e ↔ ∃ before a rest bs, as = before ++ a :: rest ∧
      before.mapM g = .ok bs ∧ g a = .error e := by
  constructor
  · intro herror
    -- The first element that fails is the head, or it is the first one of the rest.
    induction as with
    | nil => cases herror
    | cons a as ih =>
        cases ha : g a with
        | error e' =>
            rw [List.mapM_cons, ha] at herror
            cases herror
            exact ⟨[], a, as, [], rfl, rfl, ha⟩
        | ok b =>
            have hrest : as.mapM g = .error e := by
              rw [List.mapM_cons, ha] at herror
              cases hmap : as.mapM g with
              | error e' =>
                  rw [hmap] at herror
                  cases herror
                  rfl
              | ok bs =>
                  rw [hmap] at herror
                  cases herror
            rcases ih hrest with ⟨before, a', rest, bs, rfl, hbs, ha'⟩
            refine ⟨a :: before, a', rest, b :: bs, rfl, ?_, ha'⟩
            rw [List.mapM_cons, ha, hbs]
            rfl
  · rintro ⟨before, a, rest, bs, rfl, hbs, ha⟩
    rw [List.mapM_append, hbs, List.mapM_cons, ha]
    rfl

namespace Heap

variable {h : Heap} {x : Number} {z : Int} {v i base : Value} {vs indices : List Value}
  {id : ArrayId} {s : String}

theorem textOf_number (h : Heap) (x : Number) : h.textOf (.number x) = x.text := by
  unfold textOf
  cases h.cells.size <;> rfl

theorem whole?_eq_none_iff : v.whole? = none ↔ ∀ x, v = .number x → ¬ x.IsWord := by
  cases v with
  | number x => simp [Value.whole?, Number.whole?_eq_none_iff]
  | _ => simp [Value.whole?]

/-- A side is refused for being no integer if it is a number, not below zero, and no integer of
    64 bits. -/
theorem dimension_eq_notWhole_iff : h.dimension v = .error (.dimensionNotWhole s) ↔
    ∃ x, v = .number x ∧ x.isNegative = false ∧ ¬ x.IsWord ∧ s = x.text := by
  cases v with
  | number x =>
      simp only [dimension, Value.number.injEq, exists_eq_left', ← Number.whole?_eq_none_iff,
        textOf_number]
      -- The sign is checked first, so a negative number is never called not whole.
      cases x.isNegative with
      | true => simp
      | false =>
          cases x.whole? with
          | none => simp [eq_comm]
          | some m =>
              dsimp only
              cases sizeOf? m <;> simp
  | _ => simp [dimension]

/-- The check of the sides reports the first one that is refused, if there are not too many. -/
theorem dimensions_eq_notWhole_iff : h.dimensions vs = .error (.dimensionNotWhole s) ↔
    vs.length ≤ maxDepth ∧ ∃ before x rest sides, vs = before ++ .number x :: rest ∧
      List.Forall₂ Value.IsSide before sides ∧ x.isNegative = false ∧ ¬ x.IsWord ∧
      s = x.text := by
  have hfailed : h.dimensions vs = .error (.dimensionNotWhole s) ↔
      vs.length ≤ maxDepth ∧ vs.mapM h.dimension = .error (.dimensionNotWhole s) := by
    unfold dimensions checkDepth checkSize
    by_cases hlen : vs.length ≤ maxDepth
    · rw [if_pos hlen]
      cases vs.mapM h.dimension with
      | error f => simp [hlen, bind, Except.bind]
      | ok sides =>
          -- What is too large is reported as that.
          by_cases hsize : slots sides ≤ maxElements <;>
            simp [hsize, bind, Except.bind, pure, Except.pure]
    · simp [hlen, bind, Except.bind]
  rw [hfailed, mapM_eq_error_iff]
  simp only [mapM_eq_ok_iff, dimension_eq_ok_iff, dimension_eq_notWhole_iff]
  constructor
  · rintro ⟨hlen, before, v, rest, sides, hvs, hsides, x, rfl, hx⟩
    exact ⟨hlen, before, x, rest, sides, hvs, hsides, hx⟩
  · rintro ⟨hlen, before, x, rest, sides, hvs, hsides, hx⟩
    exact ⟨hlen, before, _, rest, sides, hvs, hsides, x, rfl, hx⟩

/-- Behind values that pass, the check fails where the next step does. -/
theorem positionsFrom_append_of_none {d : Nat} {here reached : Value} {before rest : List Value}
    {positions : List Nat} (hok : h.positionsFrom d here before = .ok positions)
    (hreached : h.follow here positions = some reached) (hnone : h.next? reached i = none) :
    h.positionsFrom d here (before ++ i :: rest) =
      .error (h.indexFault (d + before.length) reached i) := by
  induction before generalizing d here positions with
  | nil =>
      cases hok
      cases hreached
      rw [List.nil_append, positionsFrom_cons, hnone]
      rfl
  -- The coordinates in front are accepted one by one, and the depth grows with them.
  | cons j before ih =>
      rw [positionsFrom_cons] at hok
      rw [List.cons_append, positionsFrom_cons]
      cases hnext : h.next? here j with
      | none =>
          rw [hnext] at hok
          cases hok
      | some step =>
          rw [hnext] at hok
          rcases map_eq_ok_iff.mp hok with ⟨positions, hbefore, rfl⟩
          rw [follow_cons, (next?_eq_some_iff.mp hnext).2] at hreached
          refine map_eq_error_iff.mpr ?_
          rw [ih hbefore hreached, List.length_cons, Nat.add_assoc, Nat.add_comm 1]

/-- A coordinate is called not whole when there is a row to look in and the coordinate is not a
    word. -/
theorem indexFault_eq_notWhole_iff {d : Nat} {reached : Value} :
    h.indexFault d reached i = .positionNotWhole s ↔
      reached.isArray = true ∧ i.whole? = none ∧ s = h.textOf i := by
  unfold indexFault
  by_cases harray : reached.isArray = true
  · cases i.whole? <;> simp [harray, eq_comm]
  · simp [harray]

/-- The check of positions reports the first value that is refused, if what is before it leads
    to an array. -/
theorem positions_eq_notWhole_iff : h.positions id indices = .error (.positionNotWhole s) ↔
    ∃ before i rest positions row, indices = before ++ i :: rest ∧
      h.positions id before = .ok positions ∧ h.elementAt id positions = some (.array row) ∧
      (∀ x, i = .number x → ¬ x.IsWord) ∧ s = h.textOf i := by
  constructor
  · intro herror
    rcases exists_of_positionsFrom_error herror with
      ⟨k, i, positions, reached, hi, hok, hreached, hf, -⟩
    rcases indexFault_eq_notWhole_iff.mp hf.symm with ⟨harray, hwhole, hs⟩
    rcases Value.isArray_iff.mp harray with ⟨row, rfl⟩
    rcases List.getElem?_eq_some_iff.mp hi with ⟨hk, rfl⟩
    refine ⟨indices.take k, indices[k], indices.drop (k + 1), positions, row, ?_, hok, hreached,
      whole?_eq_none_iff.mp hwhole, hs⟩
    rw [List.getElem_cons_drop, List.take_append_drop]
  · rintro ⟨before, i, rest, positions, row, rfl, hok, hreached, hword, rfl⟩
    -- The coordinates in front are accepted, so this one is the first to fail.
    have hwhole := whole?_eq_none_iff.mpr hword
    have hnone : h.next? (.array row) i = none := by simp [next?, hwhole]
    refine (positionsFrom_append_of_none hok hreached hnone).trans ?_
    rw [indexFault_eq_notWhole_iff.mpr ⟨rfl, hwhole, rfl⟩]

/-- An index is refused for being no integer wherever there is a sequence. -/
theorem index_eq_notWhole_iff : h.index base i = .error (.indexNotWhole s) ↔
    (h.count? base).isSome ∧ (∀ x, i = .number x → ¬ x.IsWord) ∧ s = h.textOf i := by
  rw [← whole?_eq_none_iff]
  unfold index
  cases h.count? base with
  | none => simp
  | some length =>
      cases i.whole? with
      | none => simp [eq_comm]
      | some n =>
          dsimp only
          cases (position? length n).bind (h.element? base) <;> simp

/-- A dimension with a whole value is accepted, called not positive, or called not whole where it
    is past the words. -/
theorem dimension_of_value (hz : x.value? = some (z : ℚ)) : h.dimension (.number x) =
    if z < 0 then .error (.dimensionNotPositive x.text)
    else if z < 2 ^ 63 then .ok z.toNat else .error (.dimensionNotWhole x.text) := by
  have hnegative : x.isNegative = true ↔ z < 0 := by
    rw [Number.isNegative_iff hz]
    exact Int.cast_lt_zero
  unfold dimension
  dsimp only
  rw [Number.whole?_of_value hz, textOf_number]
  by_cases hneg : z < 0
  · rw [if_pos hneg, if_pos (hnegative.mpr hneg)]
  · rw [if_neg hneg, if_neg (mt hnegative.mp hneg)]
    by_cases hfits : z < 2 ^ 63
    · rcases hn : int64? z with _ | n
      · have hout := int64?_eq_none_iff.mp hn
        omega
      · -- An integer that is not below zero is a size.
        have hsize : sizeOf? n = some z.toNat := by
          rw [sizeOf?_eq_some_iff, int64?_eq_some_iff.mp hn]
          omega
        rw [if_pos hfits]
        dsimp only
        rw [hsize]
    · rw [if_neg hfits, int64?_eq_none_iff.mpr fun hrange => hfits hrange.2]

/-- An integer leads to nothing below an array if it is not one of its positions, or does not
    fit. -/
theorem next?_of_value {row : ArrayId} (hz : x.value? = some (z : ℚ))
    (hout : ¬(0 ≤ z ∧ z < h.length row)) : h.next? (.array row) (.number x) = none := by
  unfold next?
  dsimp only [Value.whole?]
  rw [Number.whole?_of_value hz]
  rcases hn : int64? z with _ | n
  · rfl
  · rcases hp : sizeOf? n with _ | p
    · simp [hp]
    · have hzp : z = p := (int64?_eq_some_iff.mp hn).symm.trans (sizeOf?_eq_some_iff.mp hp)
      -- A size past the end of the row has no element.
      have hget : h.get? row p = none := by
        refine Array.getElem?_eq_none ?_
        unfold length at hout
        omega
      simp [hp, descend?_array, hget]

/-- A coordinate with a whole value is out of bounds, or not whole where it is no word. -/
theorem indexFault_of_value {d : Nat} {row : ArrayId} (hz : x.value? = some (z : ℚ)) :
    h.indexFault d (.array row) (.number x) =
      if -2 ^ 63 ≤ z ∧ z < 2 ^ 63 then .positionOutOfBounds z d else .positionNotWhole x.text := by
  have hwhole : (Value.number x).whole? = int64? z := Number.whole?_of_value hz
  have harray : (Value.array row).isArray = true := rfl
  rw [indexFault, if_pos harray, hwhole, textOf_number]
  -- The fault depends on whether the value is a word, which is the range.
  rcases hn : int64? z with _ | n
  · rw [if_neg (int64?_eq_none_iff.mp hn)]
  · have hnz := int64?_eq_some_iff.mp hn
    have hrange : -2 ^ 63 ≤ z ∧ z < 2 ^ 63 := by
      rw [← hnz]
      exact ⟨n.le_toInt, n.toInt_lt⟩
    rw [if_pos hrange]
    exact congrArg (Fault.positionOutOfBounds · d) hnz

/-- An index with a whole value that names no element is out of range, or not whole where it is no
    word. -/
theorem index_of_value {n : Nat} (hz : x.value? = some (z : ℚ)) (hn : h.count? base = some n)
    (hout : ¬(-(n : Int) ≤ z ∧ z < n)) : h.index base (.number x) =
      .error (if -2 ^ 63 ≤ z ∧ z < 2 ^ 63 then .indexOutOfRange z else .indexNotWhole x.text) := by
  have hwhole : (Value.number x).whole? = int64? z := Number.whole?_of_value hz
  -- A value that is no word is refused before the elements are looked at.
  rcases hi : int64? z with _ | i
  · rw [if_neg (int64?_eq_none_iff.mp hi)]
    unfold index
    simp only [hn, hwhole.trans hi, textOf_number]
  · obtain rfl : i.toInt = z := int64?_eq_some_iff.mp hi
    rw [count?_eq, Option.map_eq_some_iff] at hn
    rcases hn with ⟨vs, hvs, rfl⟩
    rw [if_pos ⟨i.le_toInt, i.toInt_lt⟩, index_of_outside hvs (hwhole.trans hi) hout]

/-- If there are not too many sides, the first one that is refused is reported. -/
theorem dimensions_eq_error {before rest : List Value} {sides : List Nat} {f : Fault}
    (hlen : before.length + rest.length < maxDepth)
    (hsides : List.Forall₂ Value.IsSide before sides)
    (hv : h.dimension v = .error f) : h.dimensions (before ++ v :: rest) = .error f := by
  have hdepth : checkDepth (before ++ v :: rest).length = .ok () := by
    rw [checkDepth_eq_ok_iff, List.length_append, List.length_cons]
    omega
  -- The sides are read from the left, so the first bad one decides.
  have hfirst : (before ++ v :: rest).mapM h.dimension = .error f := by
    refine mapM_eq_error_iff.mpr ⟨before, v, rest, sides, rfl, ?_, hv⟩
    simpa only [mapM_eq_ok_iff, dimension_eq_ok_iff] using hsides
  unfold dimensions
  rw [hdepth, hfirst]
  rfl

end Heap

/-- Sides, positions and indices are refused for being no integers exactly if they are no
    integers of 64 bits, a side only if it does not lie below zero. So an integer that fits is
    never refused for that: where it is no side, there is none below zero, and where there is no
    element, the fault names the integer. One that does not fit is refused as if it had a
    fraction. -/
theorem integers_are_recognised_in_range (h : Heap) :
    (∀ vs s, h.dimensions vs = .error (.dimensionNotWhole s) ↔ vs.length ≤ 64 ∧
      ∃ before x rest sides, vs = before ++ .number x :: rest ∧
        List.Forall₂ Value.IsSide before sides ∧ x.isNegative = false ∧ ¬ x.IsWord ∧
        s = x.text) ∧
    (∀ id indices s, h.positions id indices = .error (.positionNotWhole s) ↔
      ∃ before i rest positions row, indices = before ++ i :: rest ∧
        h.positions id before = .ok positions ∧ h.elementAt id positions = some (.array row) ∧
        (∀ x, i = .number x → ¬ x.IsWord) ∧ s = h.textOf i) ∧
    (∀ base i s, h.index base i = .error (.indexNotWhole s) ↔
      (h.count? base).isSome ∧ (∀ x, i = .number x → ¬ x.IsWord) ∧ s = h.textOf i) ∧
    ∀ x (z : Int), x.value? = some (z : ℚ) →
      (∀ before rest sides, before.length + rest.length < 64 →
        List.Forall₂ Value.IsSide before sides → ¬(0 ≤ z ∧ z < 2 ^ 63) →
        h.dimensions (before ++ .number x :: rest) =
          .error (if z < 0 then .dimensionNotPositive x.text else .dimensionNotWhole x.text)) ∧
      (∀ id before rest positions row, h.positions id before = .ok positions →
        h.elementAt id positions = some (.array row) → ¬(0 ≤ z ∧ z < h.length row) →
        h.positions id (before ++ .number x :: rest) =
          .error (if -2 ^ 63 ≤ z ∧ z < 2 ^ 63 then .positionOutOfBounds z before.length
            else .positionNotWhole x.text)) ∧
      (∀ base n, h.count? base = some n → ¬(-(n : Int) ≤ z ∧ z < n) →
        h.index base (.number x) = .error
          (if -2 ^ 63 ≤ z ∧ z < 2 ^ 63 then .indexOutOfRange z else .indexNotWhole x.text)) := by
  refine ⟨fun vs s => Heap.dimensions_eq_notWhole_iff,
    fun id indices s => Heap.positions_eq_notWhole_iff,
    fun base i s => Heap.index_eq_notWhole_iff, fun x z hz => ⟨?_, ?_, ?_⟩⟩
  · intro before rest sides hlen hsides hout
    refine Heap.dimensions_eq_error hlen hsides ?_
    rw [Heap.dimension_of_value hz]
    by_cases hneg : z < 0
    · rw [if_pos hneg, if_pos hneg]
    · rw [if_neg hneg, if_neg hneg, if_neg (by omega)]
  · intro id before rest positions row hok hreached hout
    refine (Heap.positionsFrom_append_of_none hok hreached (Heap.next?_of_value hz hout)).trans ?_
    rw [Heap.indexFault_of_value hz, Nat.zero_add]
  · intro base n hn hout
    exact Heap.index_of_value hz hn hout

/-- An integer below zero, given as a float, is no side, lies outside of an inner array, and is
    out of range of a text. -/
theorem integers_are_recognised_in_range_below_zero :
    (Number.float (-3.0)).value? = some ((-3 : Int) : ℚ) ∧
    nestedHeap.dimensions [.int 2, .float (-3.0)] = .error (.dimensionNotPositive "-3.0") ∧
    nestedHeap.positions ⟨1⟩ [.int 0, .float (-3.0)] = .error (.positionOutOfBounds (-3) 1) ∧
    nestedHeap.index (.text "ab") (.float (-3.0)) = .error (.indexOutOfRange (-3)) := by
  have hvalue : (Number.float (-3.0)).value? = some ((-3 : Int) : ℚ) :=
    Number.value?_of_whole (d := ⟨true, 3 * 2 ^ 51, -51⟩) (by decide +kernel) (by decide +kernel)
  have htext : (Number.float (-3.0)).text = "-3.0" := by decide +kernel
  rcases integers_are_recognised_in_range nestedHeap with ⟨-, -, -, hsaid⟩
  rcases hsaid _ _ hvalue with ⟨hdimensions, hpositions, hindex⟩
  -- The dimension in front of the negative one is a side, so the negative one is the first to
  -- fail.
  have hside : List.Forall₂ Value.IsSide [.int 2] [2] :=
    .cons ⟨.int 2, 2, rfl, by decide, rfl, by decide⟩ .nil
  refine ⟨hvalue, ?_, ?_, ?_⟩
  · rw [← htext]
    exact hdimensions [.int 2] [] [2] (by decide) hside (by decide)
  · exact hpositions ⟨1⟩ [.int 0] [] [0] ⟨0⟩ (by decide +kernel) (by decide +kernel)
      (by decide +kernel)
  · exact hindex (.text "ab") 2 (by decide +kernel) (by decide)

/-- The float nearest to `10 ^ 20` is this integer, and each of the three checks says of it that
    it is none: it does not fit into 64 bits. -/
theorem great_integers_are_refused_as_fractions :
    (Number.float 1e20).value? = some ((10 ^ 20 : Int) : ℚ) ∧
    nestedHeap.dimensions [.float 1e20] = .error (.dimensionNotWhole "1e+20") ∧
    nestedHeap.positions ⟨1⟩ [.float 1e20] = .error (.positionNotWhole "1e+20") ∧
    nestedHeap.index (.text "ab") (.float 1e20) = .error (.indexNotWhole "1e+20") := by
  refine ⟨?_, by decide +kernel, by decide +kernel, by decide +kernel⟩
  exact Number.value?_of_whole (d := ⟨false, 6103515625000000, 14⟩) (by decide +kernel)
    (by decide +kernel)

end TreeScript
