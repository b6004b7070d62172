import TreeScript.Number.Shortest

/-!
# The Text of a Float

How a float is written: so that it reads back, and so that it cannot be taken
for an integer. Numbers from a ten-thousandth up to, but not including, ten
million billion are written with a point, and whole ones keep a zero behind it;
all others are written with one digit before the point and an exponent of at
least two digits with its sign.

The shortest decimal is found elsewhere. Here its digits are only set out, and the place
of the point is counted from the exponent of the first digit, whatever the number of
digits is.

## Main definitions

* `Decimal.positional`, `Decimal.scientific`: The two notations.
* `Decimal.written`: The notation that the size of the number asks for.
* `floatText`: The text of a float.
-/

namespace TreeScript

namespace Decimal

/-- The exponents of the first digit with which a number is written without an
    exponent. -/
def isPositional (leading : Int) : Bool :=
  -4 ≤ leading && leading < 16

/-- The digits with a point at their place. -/
def positional (d : Decimal) : List Char :=
  let ds := d.digitChars
  if 0 ≤ d.exponent then ds ++ List.replicate d.exponent.toNat '0' ++ ['.', '0']
  else if 0 ≤ d.leading then
    let whole := d.leading.toNat + 1
    ds.take whole ++ '.' :: ds.drop whole
  else ['0', '.'] ++ List.replicate (-d.leading - 1).toNat '0' ++ ds

/-- A number with two digits at least. -/
def twoDigits (n : Nat) : List Char :=
  let ds := Nat.toDigits 10 n
  List.replicate (2 - ds.length) '0' ++ ds

/-- The digits behind the first one, after a point if there are any. -/
def fraction : List Char → List Char
  | [] => []
  | ds => '.' :: ds

/-- One digit, the others behind a point, and the exponent. -/
def scientific (d : Decimal) : List Char :=
  let ds := d.digitChars
  ds.take 1 ++ fraction (ds.drop 1) ++ ['e', if d.leading < 0 then '-' else '+']
    ++ twoDigits d.leading.natAbs

/-- The number in the notation that its size asks for. -/
def written (d : Decimal) : List Char :=
  if isPositional d.leading then d.positional else d.scientific

end Decimal

/-- A minus sign before the text of a negative number. -/
def withSign (negative : Bool) (cs : List Char) : List Char :=
  if negative then '-' :: cs else cs

/-- The characters of a float. -/
def floatChars (x : Float) : List Char :=
  match FloatView.of x with
  | .undefined => ['n', 'a', 'n']
  | .infinite negative => withSign negative ['i', 'n', 'f']
  | .finite d => withSign d.negative d.shortest.written

/-- The text of a float. -/
def floatText (x : Float) : String := String.ofList (floatChars x)

end TreeScript
