import TreeScript.Number.Decimal

/-!
# Finite Floats as Exact Numbers

A finite float is a whole number of units, the unit being a power of two, with
a sign that zero also has. On this view whole numbers are recognised, exact
decimals are found and remainders are taken without rounding.

## Main definitions

* `Dyadic`: A sign, a mantissa and a binary exponent.
* `FloatView`: What a float is: undefined, infinite or an exact number.
* `FloatView.of`: The view of a float.
* `Dyadic.toFloat`: The nearest float.
* `Dyadic.whole?`: The value as an integer, if it is one.
* `Dyadic.decimal`: The magnitude in decimal, exactly.
* `Dyadic.remainder`: The remainder of a division that is cut off.
* `remainder`: The same on floats, with its values at the edges.
-/

namespace TreeScript

/-- A binary number with a sign: `mantissa` times two to the power
    `exponent`. -/
structure Dyadic where
  negative : Bool
  mantissa : Nat
  exponent : Int
  deriving DecidableEq, Inhabited

/-- What a float is. -/
inductive FloatView where
  /-- No number. -/
  | undefined
  /-- Beyond all numbers, on one side. -/
  | infinite (negative : Bool)
  /-- An exact number. -/
  | finite (d : Dyadic)
  deriving DecidableEq, Inhabited

/-- The view of a float. -/
def FloatView.of (x : Float) : FloatView :=
  match x.toModel.unpack with
  | .notANumber => .undefined
  | .infinity s => .infinite (s == .negative)
  | .zero s => .finite ⟨s == .negative, 0, 0⟩
  | .finite s m e _ => .finite ⟨s == .negative, m, e⟩

namespace Dyadic

/-- The float nearest to the number; of two that are equally near, the one with
    the even significand. -/
def toFloat (d : Dyadic) : Float :=
  Float.ofModel (.pack (.round Float.Model.Format.binary64
    (if d.negative then .negative else .positive) d.mantissa d.exponent))

/-- An integer with the sign of the number. -/
def signed (d : Dyadic) (n : Nat) : Int :=
  if d.negative then -(n : Int) else n

/-- The number as an integer, if it has no fractional part. -/
def whole? (d : Dyadic) : Option Int :=
  if 0 ≤ d.exponent then some (d.signed (d.mantissa * Nat.pow 2 d.exponent.toNat))
  else
    let unit := Nat.pow 2 (-d.exponent).toNat
    if d.mantissa % unit = 0 then some (d.signed (d.mantissa / unit)) else none

/-- The magnitude of the number in decimal, exactly: a negative power of two is
    the same power of five in units of a power of ten. -/
def decimal (d : Dyadic) : Decimal :=
  if 0 ≤ d.exponent then ⟨d.mantissa * Nat.pow 2 d.exponent.toNat, 0⟩
  else ⟨d.mantissa * Nat.pow 5 (-d.exponent).toNat, d.exponent⟩

/-- The mantissa in units of a smaller power of two. -/
def unitsOf (d : Dyadic) (exponent : Int) : Nat :=
  d.mantissa * Nat.pow 2 (d.exponent - exponent).toNat

/-- The remainder of the division whose quotient is cut off towards zero. It is
    smaller than the divisor and has the sign of the dividend. -/
def remainder (d divisor : Dyadic) : Dyadic :=
  -- Both are whole numbers of the smaller unit, so the remainder is exact.
  let exponent := min d.exponent divisor.exponent
  ⟨d.negative, d.unitsOf exponent % divisor.unitsOf exponent, exponent⟩

end Dyadic

/-- The float that is no number. -/
def undefinedFloat : Float := 0.0 / 0.0

/-- The remainder of two floats. It is undefined for an infinite dividend and
    for the divisor zero; a finite dividend is its own remainder by an infinite
    divisor. -/
def remainder (x y : Float) : Float :=
  match FloatView.of x, FloatView.of y with
  | .undefined, _ => undefinedFloat
  | _, .undefined => undefinedFloat
  | .infinite _, _ => undefinedFloat
  | .finite _, .infinite _ => x
  | .finite d, .finite divisor =>
    if divisor.mantissa = 0 then undefinedFloat else (d.remainder divisor).toFloat

end TreeScript
