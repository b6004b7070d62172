import TreeScript.Eval.Basic
import TreeScript.Number.Literal
import TreeScript.Value.Grid
import TreeScript.Value.Operation

/-!
# Expressions and Assignments

The forms that compute values, and those that bind names and write elements.
Operands are evaluated from left to right. An assignment changes something only
after everything has been evaluated and checked, so one that fails changes
nothing itself.

The number of operands of an array form depends on the rank that its tag spells,
and the forms that use an element have one or two besides. The sum is taken as it
is, so with the greatest ranks there is none, and the run is given up.

A form checks the number of its operands first, and each operand just before it is needed.
So a malformed operand may only be noticed after others have been evaluated, and what
these have done stays done.

## Main definitions

* `evalNumber`, `evalText`, `evalName`, `evalList`, `evalIndex`: Literals and
  references.
* `evalBinary`, `evalUnary`: Operators.
* `evalAssign`: Binding a name.
* `evalArrayNew`, `evalArrayAccess`, `evalArrayAssign`: Arrays in several
  dimensions.
-/

namespace TreeScript

/-- Gives storage to what an operator has produced. -/
def settle (p : Produced) : Action Value := changeHeap (·.settle p)

/-- The only operand of a tree. -/
def evalWrapped (eval : Evaluator) (t : Tree) : Action Value := do
  t.expectArity 1
  eval (← t.child 0)

/-- A numeric literal. -/
def evalNumber (t : Tree) : Action Value := do
  t.expectArity 1
  let word ← t.token 0
  -- A wrong literal refuses the node. It is no fault, so it cannot be reported and passed.
  match readNumber? word.toList with
  | some n => pure (.number n)
  | none => throw (.malformed (.literal t.tag word))

/-- A text literal. -/
def evalText (t : Tree) : Action Value := do
  t.expectArity 1
  return .text (← t.token 0)

/-- The value of a name. -/
def evalName (t : Tree) : Action Value := do
  t.expectArity 1
  let name ← t.token 0
  match ← lookup name with
  | some v => pure v
  | none => fail (.undefinedName name)

/-- A new array with elements that are evaluated in order. -/
def evalList (eval : Evaluator) (t : Tree) : Action Value := do
  t.expectArity 1
  let elements ← (← t.children 0).mapM eval.present
  let items := elements.toArray
  -- The depth is known before there is an array, so one that is too deep is never made.
  checkDepth ((← heap).depthWith items)
  settle (.fresh items)

/-- An element of a sequence. -/
def evalIndex (eval : Evaluator) (t : Tree) : Action Value := do
  t.expectArity 2
  let base ← eval.operand (← t.child 0)
  -- The index is evaluated even if the base has no elements.
  let i ← eval.operand (← t.child 1)
  (← heap).index base i

/-- A binary operator on two operands. Both are always evaluated. -/
def evalBinary (eval : Evaluator) (op : BinaryOp) (t : Tree) : Action Value := do
  t.expectArity 2
  let left ← eval.operand (← t.child 0)
  let right ← eval.operand (← t.child 1)
  settle (← (← heap).binary op left right)

/-- Adds one to a variable, or subtracts it. -/
def evalStep (op : ArithOp) (name : String) : Action Value := do
  match ← lookup name with
  | none => fail (.undefinedName name)
  | some current =>
    let v ← settle (← (← heap).arith op current (.int 1))
    -- A step that fails has left the old value, since nothing is bound before this.
    assign name v
    pure v

/-- A unary operator. -/
def evalUnary (eval : Evaluator) (op : UnaryOp) (t : Tree) : Action Value := do
  t.expectArity 1
  match op with
  | .negate =>
    let v ← eval.operand (← t.child 0)
    negate v
  | .increment => evalStep .add (← t.token 0)
  | .decrement => evalStep .sub (← t.token 0)

/-- Binds a name to a value. -/
def evalAssign (eval : Evaluator) (t : Tree) : Action Value := do
  t.expectArity 2
  let name ← t.token 0
  let v ← eval.present (← t.child 1)
  assign name v
  pure v

/-- The array that a name is bound to. -/
def namedArray (name : String) : Action ArrayId := do
  match ← lookup name with
  | some (.array id) => pure id
  | some v => fail (.notAnArray name v.type)
  -- A name that is missing has a wording of its own here.
  | none => fail (.undefinedArray name)

/-- A new block of zeros. -/
def evalArrayNew (eval : Evaluator) (rank : Nat) (t : Tree) : Action Value := do
  t.expectArity rank
  let dims ← eval.children t 0 rank
  -- Not even the outermost array is made before all sides have been checked.
  let sides ← (← heap).dimensions dims
  let id ← changeHeap (Heap.zeroed sides)
  pure (.array id)

/-- The element of an array at some positions. -/
def evalArrayAccess (eval : Evaluator) (rank : Nat) (t : Tree) : Action Value := do
  t.expectArity (← addSizes rank 1)
  let id ← namedArray (← t.token 0)
  let indices ← eval.children t 1 rank
  -- Evaluating the coordinates may have written elements, so the heap is read after it.
  let h ← heap
  let positions ← h.positions id indices
  return (h.elementAt id positions).getD .absent

/-- Writes the element of an array at some positions. -/
def evalArrayAssign (eval : Evaluator) (rank : Nat) (t : Tree) : Action Value := do
  t.expectArity (← addSizes rank 2)
  let name ← t.token 0
  -- The name has to be an array already when the coordinates are evaluated.
  let id ← namedArray name
  let indices ← eval.children t 1 rank
  let v ← eval.present (← t.child (← addSizes rank 1))
  let positions ← (← heap).positions id indices
  let slot ← (← heap).slot id positions v name
  -- Everything has been checked, so a write that fails has changed nothing.
  changeHeap fun h => ((), h.write slot v)
  pure v

end TreeScript
