import TreeScript.Fault
import TreeScript.Number.Basic

/-!
# Arithmetic

The operators on two numbers. Two integers give an integer, exactly, or fail
because it does not fit; only division always gives a float. As soon as one
operand is a float the other one counts as a float too. A remainder has the
sign of its dividend.

A power of two integers is an integer unless the exponent is negative. Zero, one
and minus one have few different powers, and an exponent can be any integer for
them. For any other base an exponent of more than 32 bits is too great, and the
power is found by squaring, until a product does not fit.

Integers are computed without bounds and brought back into a word by one function, which
is where an overflow is noticed. So the exact result is there in the definition itself,
except for powers, where it could be too large to be computed; there the product is
checked after each step.

## Main definitions

* `intRemainder?`: The remainder of two integers, if their quotient fits.
* `timesPower?`: A product with a power, found by squaring.
* `intPower?`: The power of an integer, if it fits.
* `Number.arith`: The operators on two numbers.
-/

namespace TreeScript

/-- The remainder of two integers; it counts as out of range where the quotient
    is. -/
def intRemainder? (a b : Int) : Option Int64 :=
  (int64? (a.tdiv b)).bind fun _ => int64? (a.tmod b)

/-- The product of two integers, if it fits. -/
def intProduct? (a b : Int64) : Option Int64 := int64? (a.toInt * b.toInt)

/-- An integer times a power of another one, if it fits. The factors are multiplied into it
    that belong to the binary digits of the exponent, and each of them is the square of the
    one before. The last one is not squared. -/
def timesPower? (acc base : Int64) (e : Nat) : Option Int64 :=
  (if e % 2 = 1 then intProduct? acc base else some acc).bind fun acc =>
    -- The base is not squared once more at the end, where that could overflow for nothing.
    if e ≤ 1 then some acc
    else (intProduct? base base).bind fun square => timesPower? acc square (e / 2)

/-- The greatest exponent with which the power of a base other than zero, one and minus one is
    tried: a word of 32 bits. -/
def maxExponent : Nat := Nat.pow 2 32 - 1

/-- The power of an integer, if it fits into 64 bits. -/
def intPower? (base : Int64) (e : Nat) : Option Int64 :=
  -- With these three bases every exponent is fine, so they come before the bound on it.
  if base = 0 then some (if e = 0 then 1 else 0)
  else if base = 1 then some 1
  else if base = -1 then some (if e % 2 = 0 then 1 else -1)
  else if maxExponent < e then none
  else timesPower? 1 base e

namespace Number

/-- An integer, or the fault that the result of the operator does not fit. -/
def orOverflow (op : ArithOp) : Option Int64 → Except Fault Number
  | some n => .ok (.int n)
  | none => .error (.overflow op)

/-- The quotient of two numbers, always a float. -/
def div (a b : Number) : Except Fault Number :=
  if b.isZero then .error .divisionByZero
  else .ok (.float (a.toFloat / b.toFloat))

/-- The remainder of two numbers. -/
def mod (a b : Number) : Except Fault Number :=
  if b.isZero then .error .divisionByZero
  else match a, b with
    | .int m, .int n => orOverflow .mod (intRemainder? m.toInt n.toInt)
    | a, b => .ok (.float (remainder a.toFloat b.toFloat))

/-- The power of two numbers. -/
def pow (a b : Number) : Except Fault Number :=
  if a.isZero && b.isNegative then .error .divisionByZero
  -- A negative exponent leaves the integers, so it is no overflow.
  else match a, b with
    | .int m, .int n =>
      if 0 ≤ n.toInt then orOverflow .pow (intPower? m n.toInt.toNat)
      else .ok (.float (a.toFloat.pow b.toFloat))
    | a, b => .ok (.float (a.toFloat.pow b.toFloat))

/-- Applies an operator to two numbers. -/
def arith (op : ArithOp) (a b : Number) : Except Fault Number :=
  match op with
  | .add => match a, b with
    | .int m, .int n => orOverflow .add (int64? (m.toInt + n.toInt))
    | a, b => .ok (.float (a.toFloat + b.toFloat))
  | .sub => match a, b with
    | .int m, .int n => orOverflow .sub (int64? (m.toInt - n.toInt))
    | a, b => .ok (.float (a.toFloat - b.toFloat))
  | .mul => match a, b with
    | .int m, .int n => orOverflow .mul (int64? (m.toInt * n.toInt))
    | a, b => .ok (.float (a.toFloat * b.toFloat))
  | .div => a.div b
  | .mod => a.mod b
  | .pow => a.pow b

end Number

end TreeScript
