import TreeScript.Machine.Basic

/-!
# Evaluators

The parts that the forms of program are evaluated with. Each of them is given
the evaluator that is to be used for the trees inside, so that how deep trees
may be nested is decided in one place only.

The mark of a loop that is to be left travels through statements. As an operand
it is a missing value, and so it never becomes data.

These parts differ in what they refuse. An operand is no mark of a loop; a value that is
kept has to be present besides; a condition is guarded, and a fault in it counts as false.
Trees inside are found by their position, and a position that holds none is an error of
the shape, which no part takes for a fault.

## Main definitions

* `Evaluator`: What evaluates a tree.
* `Evaluator.operand`, `Evaluator.present`: Evaluation where the mark of a loop,
  or any mark, will not do.
* `Evaluator.condition`: Evaluation for a truth value.
* `Evaluator.inOrder`, `Evaluator.children`: Evaluation of operands in order.
-/

namespace TreeScript

/-- What evaluates a tree. -/
abbrev Evaluator := Tree → Action Value

namespace Evaluator

/-- Evaluates an operand of an operator. It may have no value, which the
    operator can name in a fault, but it must not leave a loop. -/
def operand (eval : Evaluator) (t : Tree) : Action Value := do
  let v ← eval t
  if v.isBreak then fail .noValue else pure v

/-- Evaluates a tree that has to have a value. -/
def present (eval : Evaluator) (t : Tree) : Action Value := do
  let v ← eval.operand t
  if v.isAbsent then fail .noValue else pure v

/-- Evaluates a condition. One that fails is reported and does not hold. -/
def condition (eval : Evaluator) (t : Tree) : Action Bool := do
  let v ← guarded (eval t)
  return (← heap).isTrue v

/-- Evaluates so many operands of a tree in order, from a place on. -/
def inOrder (eval : Evaluator) (t : Tree) (first count : Nat) : Action (List Value) :=
  (List.range count).mapM fun i => do
    eval (← t.child (first + i))

/-- The same as far as sizes go: there is to be room for the values, and the place
    behind the last operand is a sum. -/
def children (eval : Evaluator) (t : Tree) (first count : Nat) : Action (List Value) := do
  reserve count
  let last ← addSizes first count
  eval.inOrder t first (last - first)

end Evaluator

end TreeScript
