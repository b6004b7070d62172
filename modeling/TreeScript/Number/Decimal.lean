/-!
# Decimals

Decimal numbers that are not negative: a whole number of units, the unit being
a power of ten. A decimal can be written in many ways; its normal form has no
zero at its end. The float nearest to a decimal is taken of the normal form, so
it depends only on the number and not on how it is written.

Sign and size are kept apart: a decimal is the magnitude of a float, and whoever writes or
reads one puts the sign in front of it.

## Main definitions

* `Decimal`: A number of units of a power of ten.
* `Decimal.normal`: The same number without zeros at its end.
* `Decimal.toFloat`: The nearest float.
* `Decimal.truncate`: The number without its last digits.
-/

namespace TreeScript

/-- A decimal number: `digits` times ten to the power `exponent`. -/
structure Decimal where
  digits : Nat
  exponent : Int
  deriving DecidableEq, Inhabited

namespace Decimal

/-- Moves zeros from the end of a positive number into the exponent. -/
def strip (digits : Nat) (exponent : Int) : Decimal :=
  if h : 0 < digits ∧ digits % 10 = 0 then strip (digits / 10) (exponent + 1)
  else ⟨digits, exponent⟩
termination_by digits
decreasing_by exact Nat.div_lt_self h.1 (by decide)

/-- The same number with as few digits as possible. Zero has the exponent
    zero. -/
def normal (d : Decimal) : Decimal :=
  if d.digits = 0 then ⟨0, 0⟩ else strip d.digits d.exponent

/-- The float nearest to the number; of two that are equally near, the one with
    the even significand. -/
def toFloat (d : Decimal) : Float :=
  Float.ofModel (Float.Model.ofScientific d.normal.digits d.normal.exponent)

/-- The digits, most significant first. -/
def digitChars (d : Decimal) : List Char :=
  Nat.toDigits 10 d.digits

/-- The exponent of the first digit. -/
def leading (d : Decimal) : Int :=
  d.exponent + d.digitChars.length - 1

/-- The number without its last digits, rounded down. -/
def truncate (d : Decimal) (dropped : Nat) : Decimal :=
  ⟨d.digits / Nat.pow 10 dropped, d.exponent + dropped⟩

/-- The number with one more unit in its last place. -/
def succ (d : Decimal) : Decimal :=
  ⟨d.digits + 1, d.exponent⟩

end Decimal

end TreeScript
