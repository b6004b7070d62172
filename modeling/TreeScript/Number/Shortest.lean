import TreeScript.Number.Dyadic

/-!
# Shortest Decimals

The decimal that stands for a float: of all decimals that read back as the
float, one with the fewest digits, and of those the nearest. On the grid of
decimals with a given number of digits only the two neighbours of the exact
value need to be tried. Seventeen digits are always enough.

The decimals tried are those above and below the exact value, which is a decimal itself.
They have one digit more each time, and the first number of digits for which one of them
reads back is taken. That none is found is not excluded by the definition, and then the
exact decimal stands for the float.

## Main definitions

* `Decimal.rounded?`: A decimal with fewer digits that reads back.
* `Dyadic.shortest`: The decimal that stands for a float.
-/

namespace TreeScript

/-- The exact value of a float without its last digits, rounded to one side or
    the other so that it reads back as the float, if that is possible. If both
    sides do, the nearer one is taken, and the greater one if both are equally
    near. -/
def Decimal.rounded? (exact : Decimal) (x : Float) (dropped : Nat) : Option Decimal :=
  let below := exact.truncate dropped
  let above := below.succ
  let unit := Nat.pow 10 dropped
  match below.toFloat == x, above.toFloat == x with
  | true, true => some (if unit ≤ 2 * (exact.digits % unit) then above else below)
  | true, false => some below
  | false, true => some above
  | false, false => none

/-- The number of digits that tells any two floats apart. -/
def maxDigits : Nat := 17

namespace Dyadic

/-- The float with the magnitude of the number. -/
def magnitude (d : Dyadic) : Float :=
  toFloat { d with negative := false }

/-- The shortest decimal that reads back as the magnitude. -/
def shortest (d : Dyadic) : Decimal :=
  let exact := d.decimal
  let length := exact.digitChars.length
  let found := (List.range maxDigits).findSome? fun n =>
    exact.rounded? d.magnitude (length - (n + 1))
  -- Seventeen digits are enough, so the exact number is not needed in the end.
  (found.getD exact).normal

end Dyadic

end TreeScript
