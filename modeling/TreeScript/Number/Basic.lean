import TreeScript.Number.FloatText

/-!
# Numbers

A number is a 64-bit integer or a float. The two kinds mix: where they meet,
the integer counts as the float nearest to it. Two integers are compared
exactly.

## Main definitions

* `Number`: An integer or a float.
* `int64?`: The integer of 64 bits with a given value.
* `Number.toFloat`, `Number.whole?`: A number as a float, and as an integer.
* `Number.eq`, `Number.compare`: Numeric equality and order.
* `Number.text`: How a number is written.

## Theorems

* `int64?_isSome_iff`: Which values 64 bits can hold.
* `toInt_of_int64?`: The integer has the value that it was made for.
* `int64?_eq_some_iff`: What is made for a value.
-/

namespace TreeScript

/-- The integer of 64 bits with this value, if there is one. -/
def int64? (n : Int) : Option Int64 :=
  if Int64.minValue.toInt ≤ n && n ≤ Int64.maxValue.toInt then some (Int64.ofInt n) else none

/-- There is such an integer exactly for the values between the bounds. -/
theorem int64?_isSome_iff {n : Int} :
    (int64? n).isSome ↔ Int64.minValue.toInt ≤ n ∧ n ≤ Int64.maxValue.toInt := by
  unfold int64?
  split <;> simp_all

/-- The integer has the value that it was made for. -/
theorem toInt_of_int64? {n : Int} {m : Int64} (h : int64? n = some m) : m.toInt = n := by
  have hn := int64?_isSome_iff.1 (Option.isSome_of_eq_some h)
  have hmin : Int64.minValue.toInt = -9223372036854775808 := by decide
  have hmax : Int64.maxValue.toInt = 9223372036854775807 := by decide
  have hm : Int64.ofInt n = m := by
    unfold int64? at h
    split at h <;> simp_all
  rw [← hm]
  exact Int64.toInt_ofInt_of_le (by omega) (by omega)

/-- An integer fits exactly when it is the value of a word. -/
theorem int64?_eq_some_iff {n : Int} {m : Int64} : int64? n = some m ↔ m.toInt = n := by
  constructor
  · exact toInt_of_int64?
  · rintro rfl
    have hsome := int64?_isSome_iff.mpr ⟨m.minValue_le_toInt, m.toInt_le⟩
    rcases Option.isSome_iff_exists.mp hsome with ⟨k, hk⟩
    rw [hk, Int64.toInt_inj.mp (toInt_of_int64? hk)]

/-- A number. -/
inductive Number where
  | int (n : Int64)
  | float (x : Float)
  deriving DecidableEq, Inhabited

namespace Number

/-- The number as a float, the nearest one if it is an integer. -/
def toFloat : Number → Float
  | .int n => Float.ofInt n.toInt
  | .float x => x

/-- The number as an integer of 64 bits, if it is whole and lies in their
    range. -/
def whole? : Number → Option Int64
  | .int n => some n
  | .float x => match FloatView.of x with
    | .finite d => d.whole?.bind int64?
    | _ => none

/-- Whether the number is zero. -/
def isZero : Number → Bool
  | .int n => n == 0
  | .float x => x == 0.0

/-- Whether the number lies below zero. -/
def isNegative : Number → Bool
  | .int n => n < 0
  | .float x => x < 0.0

/-- Whether two numbers are equal as numbers. A float that is undefined equals
    nothing. -/
def eq : Number → Number → Bool
  | .int m, .int n => m == n
  | a, b => a.toFloat == b.toFloat

/-- The order of two numbers. An undefined float has no place in it. -/
def compare : Number → Number → Option Ordering
  | .int m, .int n => some (Ord.compare m.toInt n.toInt)
  | a, b => a.toFloat.toModel.compare b.toFloat.toModel

/-- The opposite number, unless it is an integer that has none. -/
def neg? : Number → Option Number
  | .int n => (int64? (-n.toInt)).map .int
  | .float x => some (.float (-x))

/-- The characters of an integer. -/
def intChars (n : Int) : List Char :=
  withSign (decide (n < 0)) (Nat.toDigits 10 n.natAbs)

/-- The characters of a number. -/
def chars : Number → List Char
  | .int n => intChars n.toInt
  | .float x => floatChars x

/-- The text of a number. -/
def text (n : Number) : String := String.ofList n.chars

end Number

end TreeScript
