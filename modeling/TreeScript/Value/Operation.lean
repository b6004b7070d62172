import TreeScript.Number.Arithmetic
import TreeScript.Value.Sequence

/-!
# Operators on Values

The operators of a program, applied to values that have been evaluated.
Arithmetic may fail; comparison and logic never do and yield one or zero.

An operator does not touch the storage. What it makes is `Produced`, a value or the
elements of an array that is still to be stored, and storing it is left to the evaluator.

## Main definitions

* `Heap.comparison`, `Heap.logic`, `Heap.arith`, `negate`: The families of
  operators.
* `Heap.binary`: A binary operator.
* `foldResults`: The value of a sequence of statements.
-/

namespace TreeScript

namespace Heap

/-- Applies a comparison. -/
def holds (h : Heap) (op : CompareOp) (left right : Value) : Bool :=
  match op with
  | .equal => h.eq left right
  | .notEqual => !h.eq left right
  | .greater => h.compare left right == some .gt
  | .greaterEqual => (h.compare left right).any Ordering.isGE
  | .less => h.compare left right == some .lt
  | .lessEqual => (h.compare left right).any Ordering.isLE

/-- The value of a comparison: whether it holds. -/
def comparison (h : Heap) (op : CompareOp) (left right : Value) : Value :=
  .ofBool (h.holds op left right)

/-- The value of a logical operator on values that count as true or false. -/
def logic (h : Heap) (op : LogicOp) (left right : Value) : Value :=
  match op with
  | .conj => .ofBool (h.isTrue left && h.isTrue right)
  | .disj => .ofBool (h.isTrue left || h.isTrue right)

/-- Applies an arithmetic operator to two values. -/
def arith (h : Heap) (op : ArithOp) (left right : Value) : Except Fault Produced :=
  match left, right with
  | .number a, .number b => (Number.arith op a b).map fun n => .value (.number n)
  | left, right => h.sequence op left right

/-- Applies a binary operator to two values. -/
def binary (h : Heap) (op : BinaryOp) (left right : Value) : Except Fault Produced :=
  match op with
  | .arith op => h.arith op left right
  | .compare op => .ok (.value (h.comparison op left right))
  | .logic op => .ok (.value (h.logic op left right))

end Heap

/-- The opposite of a number. -/
def negate : Value → Except Fault Value
  | .number n => match n.neg? with
    | some m => .ok (.number m)
    | none => .error .negateOverflow
  | v => .error (.unaryMismatch .negate v.type)

/-- The value of a sequence of statements: the mark of a loop that is to be left
    if one of them yields it, else what the last one yields. -/
def foldResults (results : List Value) : Value :=
  if results.any Value.isBreak then .breakMark else results.getLast?.getD .absent

end TreeScript
