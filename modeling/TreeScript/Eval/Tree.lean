import TreeScript.Eval.Expression
import TreeScript.Eval.Statement
import TreeScript.Tree.Form

/-!
# Evaluation of Trees

The evaluator proper. A tree is evaluated by the rule of the form that its tag
names; a tree whose tag names none has no value and does nothing. Trees may be
nested only so deep: the machine counts the levels, and a tree that finds no
level left is a fault.

The rule of a form evaluates trees inside only, so the recursion goes down the
height of the tree. It is not the bound on the levels that ends it: that bound
concerns the machine, and is found to be reached or not at each level anew.

Which rule is run is a question about the tag only, and every rule has its own function.
The only thing that they share is the evaluator for the trees inside, which `evalUpTo`
hands to them.

## Main definitions

* `Limits`: How deep trees may be nested, and how long loops may run.
* `evalForm`: The rule of each form.
* `dispatch`: The rule of the form that a tag names.
* `evalTree`: Evaluation of a tree, one level deeper.
* `evaluate`: Evaluation of a tree that stands alone.
-/

namespace TreeScript

/-- The bounds of an evaluation. -/
structure Limits where
  /-- How deep trees may be nested. -/
  depth : Nat
  /-- How many rounds a loop may run. -/
  rounds : Nat
  deriving DecidableEq, Inhabited

/-- How deep trees may be nested unless something else is asked for. -/
def defaultDepth : Nat := 128

/-- Evaluates a tree by the rule of its form. -/
def evalForm (eval : Evaluator) (allowed : Nat) (t : Tree) : Form → Action Value
  | .main => evalMain eval t
  | .statements => evalStatements eval t
  | .statementExpr => evalWrapped eval t
  | .paren => evalWrapped eval t
  | .assign => evalAssign eval t
  | .name => evalName t
  | .number => evalNumber t
  | .text => evalText t
  | .list => evalList eval t
  | .index => evalIndex eval t
  | .binary op => evalBinary eval op t
  | .unary op => evalUnary eval op t
  | .pass => evalMark .absent t
  | .leave => evalMark .breakMark t
  | .print => evalPrint eval t
  | .input => evalInput eval t
  | .choice => evalChoice eval t
  | .loop => evalLoop eval allowed t
  | .arrayNew rank => evalArrayNew eval rank t
  | .arrayAccess rank => evalArrayAccess eval rank t
  | .arrayAssign rank => evalArrayAssign eval rank t

/-- Evaluates a tree by the rule of the form that its tag names, if it names one. -/
def dispatch (eval : Evaluator) (allowed : Nat) (t : Tree) : Action Value :=
  match Form.ofTag? t.tag with
  | some form => evalForm eval allowed t form
  | none => pure .absent

/-- Does something one level deeper, or something else where no level is left. -/
def nested (levels : Nat) (beyond a : Action Value) : Action Value := do
  if levels ≤ (← currentDepth) then beyond else deeper a

/-- Evaluates trees up to a height. -/
def evalUpTo (limits : Limits) : Nat → Evaluator
  | 0, _ => throw .unfinished
  -- The height says when the recursion ends, and the machine how deep it may go.
  | n + 1, t => nested limits.depth (fail (.depthExceeded limits.depth))
      (dispatch (evalUpTo limits n) limits.rounds t)

/-- Evaluates a tree, one level deeper than the one that it stands in. -/
def evalTree (limits : Limits) : Evaluator := fun t => evalUpTo limits t.height t

/-- Evaluates a tree that stands alone. A fault in it is reported. -/
def evaluate (limits : Limits) (t : Tree) : Action Value :=
  guarded (evalTree limits t)

end TreeScript
