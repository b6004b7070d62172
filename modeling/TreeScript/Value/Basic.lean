import TreeScript.Fault
import TreeScript.Number.Basic

/-!
# Values

What an evaluated tree can yield. Numbers and texts are data; an array is a
reference to storage that several values may share. The two last values are
marks: one says that a loop is to be left, the other that there is no value.

Marks are values so that they can be passed on like other values by the forms that pass
values on. Where data is wanted, they are refused by the evaluator, and the functions on
values give them a type and a text like any other value.

## Main definitions

* `ArrayId`: The identity of an array.
* `Value`: The values.
* `Value.type`: The type of a value.
-/

namespace TreeScript

/-- The identity of an array: the place of its storage. -/
structure ArrayId where
  index : Nat
  deriving DecidableEq, Inhabited

/-- A value. -/
inductive Value where
  | number (n : Number)
  | text (s : String)
  | array (id : ArrayId)
  /-- The mark that the innermost loop is to be left. -/
  | breakMark
  /-- The mark that there is no value. -/
  | absent
  deriving DecidableEq, Inhabited

/-- The type of a number. -/
def Number.type : Number → ValueType
  | .int _ => .int
  | .float _ => .float

namespace Value

/-- An integer as a value. -/
def int (n : Int64) : Value := .number (.int n)

/-- A float as a value. -/
def float (x : Float) : Value := .number (.float x)

/-- A truth value: one or zero. -/
def ofBool (b : Bool) : Value := .int (if b then 1 else 0)

/-- The type of a value. -/
def type : Value → ValueType
  | .number n => n.type
  | .text _ => .text
  | .array _ => .array
  | .breakMark => .breakMark
  | .absent => .absent

/-- Whether the value is the mark that a loop is to be left. -/
def isBreak : Value → Bool
  | .breakMark => true
  | _ => false

/-- Whether the value is the mark that there is none. -/
def isAbsent : Value → Bool
  | .absent => true
  | _ => false

/-- Whether the value is an array. -/
def isArray : Value → Bool
  | .array _ => true
  | _ => false

/-- The integer that a value is, if it is a whole number. -/
def whole? : Value → Option Int64
  | .number n => n.whole?
  | _ => none

end Value

end TreeScript
