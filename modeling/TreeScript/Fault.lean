import TreeScript.Tree.Operator

/-!
# Faults of a Running Program

What can go wrong in a program whose trees are well formed. A fault never ends
a program: the statement in which it arises is given up, a line of output tells
what happened, and the program goes on.

A fault carries what its wording needs and nothing else. Values stand in it as their text,
so it is understood without the machine on which it arose.

## Main definitions

* `ValueType`: The types of values, as diagnostics name them.
* `Fault`: The causes.
* `Fault.message`: The wording.
-/

namespace TreeScript

/-- The type of a value. -/
inductive ValueType where
  | int
  | float
  | text
  | array
  | breakMark
  | absent
  deriving DecidableEq, Inhabited

/-- The name of a type in diagnostics. -/
def ValueType.name : ValueType → String
  | .int => "int"
  | .float => "float"
  | .text => "text"
  | .array => "array"
  | .breakMark => "break"
  | .absent => "none"

/-- Why a statement fails. -/
inductive Fault where
  /-- A name has no value. -/
  | undefinedName (name : String)
  /-- A name that should hold an array has no value. -/
  | undefinedArray (name : String)
  /-- A name that should hold an array holds something else. -/
  | notAnArray (name : String) (found : ValueType)
  /-- A binary operator has no meaning for its operands. -/
  | mismatch (op : BinaryOp) (left right : ValueType)
  /-- A unary operator has no meaning for its operand. -/
  | unaryMismatch (op : UnaryOp) (operand : ValueType)
  /-- An index lies beyond both ends of a sequence. -/
  | indexOutOfRange (index : Int)
  /-- Something other than a sequence is indexed. -/
  | notIndexable (found : ValueType)
  /-- The index of a sequence is no integer. -/
  | indexNotWhole (index : String)
  /-- A dimension is negative or no number. -/
  | dimensionNotPositive (dim : String)
  /-- A dimension is no integer. -/
  | dimensionNotWhole (dim : String)
  /-- A position in an array is no integer. -/
  | positionNotWhole (index : String)
  /-- A position lies outside its dimension. -/
  | positionOutOfBounds (index : Int) (dimension : Nat)
  /-- There are more positions than dimensions. -/
  | tooManyPositions (dimension : Nat)
  /-- There are too few positions to reach an element. -/
  | tooFewPositions (dimension : Nat)
  /-- An array is assigned to an element. -/
  | nestedElement (name : String)
  /-- A value would have too many elements. -/
  | tooLarge (requested limit : Nat)
  /-- An array would be nested too deeply. -/
  | tooDeep (max : Nat)
  /-- A number is divided by zero. -/
  | divisionByZero
  /-- The result of an operator on integers is out of range. -/
  | overflow (op : ArithOp)
  /-- The opposite of an integer is out of range. -/
  | negateOverflow
  /-- An expression that should have a value has none. -/
  | noValue
  /-- There is no more input. -/
  | inputClosed
  /-- Trees are nested too deeply to be evaluated. -/
  | depthExceeded (max : Nat)
  deriving DecidableEq, Inhabited

/-- The wording of a fault. -/
def Fault.message : Fault → String
  | .undefinedName name => s!"{name} hasn't been defined!"
  | .undefinedArray name => s!"Array '{name}' hasn't been defined!"
  | .notAnArray name found =>
    s!"'{name}' is not an array, it holds a value of type '{found.name}'!"
  | .mismatch op left right =>
    s!"You can't use '{op.symbol}' with types '{left.name}' and '{right.name}'!"
  | .unaryMismatch op operand => s!"You can't use '{op.symbol}' with type '{operand.name}'!"
  | .indexOutOfRange index => s!"Index {index} is out of range!"
  | .notIndexable found => s!"Only arrays and text can be indexed, not '{found.name}'!"
  | .indexNotWhole index => s!"Sequence index must be an integer, got {index}"
  | .dimensionNotPositive dim => s!"Array dimension must be a positive number, got {dim}"
  | .dimensionNotWhole dim => s!"Array dimension must be an integer, got {dim}"
  | .positionNotWhole index => s!"Array index must be an integer, got {index}"
  | .positionOutOfBounds index dimension =>
    s!"Index {index} is out of range for dimension {dimension}"
  | .tooManyPositions dimension => s!"Too many indices for array dimension {dimension}"
  | .tooFewPositions dimension => s!"Too few indices: dimension {dimension} is an array"
  | .nestedElement name =>
    s!"Array elements can't hold arrays, assign numbers or text to '{name}'"
  | .tooLarge requested limit =>
    s!"Can't build a value with {requested} elements, the limit is {limit}!"
  | .tooDeep max => s!"Arrays can't be nested more than {max} levels deep!"
  | .divisionByZero => "Division by zero!"
  | .overflow op => s!"Integer overflow in '{op.symbol}'!"
  | .negateOverflow => s!"Integer overflow in '{UnaryOp.negate.symbol}'!"
  | .noValue => "Expression produced no value!"
  | .inputClosed => "Input stream closed!"
  | .depthExceeded max => s!"Maximum nesting depth of {max} exceeded!"

end TreeScript
