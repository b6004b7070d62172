import TreeScript.Eval.Basic
import TreeScript.Eval.InputLine
import TreeScript.Value.Operation

/-!
# Statements

The forms that order what happens: sequences, choices, loops, and the two that
use the streams. Each statement of a sequence, each condition and each body of
a loop is guarded: its faults are reported, and the program goes on behind it.

A loop is left after the round in which its body yields the mark for that; the
statements behind the mark still run. The number of rounds is bounded from
outside, and a loop that uses them up is unfinished.

The results of all statements are collected before the value of a sequence is made of
them, as one list. So a sequence is a map over its trees and a fold over their values, and
the two can be looked at apart.

## Main definitions

* `statementResults`, `evalStatements`: Sequences of statements.
* `evalChoice`, `evalLoop`: Choices and loops.
* `evalPrint`, `evalInput`: Output and input.
-/

namespace TreeScript

/-- What the statements of a sequence yield, each of them guarded. -/
def statementResults (eval : Evaluator) (t : Tree) : Action (List Value) := do
  t.expectArity 1
  -- The statements behind a mark are run, too. The mark only counts when the values are folded.
  (← t.children 0).mapM fun statement => guarded (eval statement)

/-- A sequence of statements. -/
def evalStatements (eval : Evaluator) (t : Tree) : Action Value :=
  return foldResults (← statementResults eval t)

/-- A program. It yields no value. -/
def evalMain (eval : Evaluator) (t : Tree) : Action Value := do
  t.expectArity 1
  discard (eval (← t.child 0))
  pure .absent

/-- A tree that may be missing; there is no value then. -/
def evalOptional (eval : Evaluator) : Option Tree → Action Value
  | some t => eval t
  | none => pure .absent

/-- The condition of a branch that may be missing; it does not hold then. -/
def optionalCondition (eval : Evaluator) : Option Tree → Action Bool
  | some t => eval.condition t
  | none => pure false

/-- A choice between two branches with conditions and one without. The second
    condition is evaluated only where the first does not hold. -/
def evalChoice (eval : Evaluator) (t : Tree) : Action Value := do
  t.expectArity 5
  -- The operands are looked at only when they are needed, so the shape of a branch that is not
  -- taken is not checked.
  if ← eval.condition (← t.child 0) then
    eval (← t.child 1)
  else if ← optionalCondition eval (← t.child? 2) then
    eval (← t.child 3)
  else
    evalOptional eval (← t.child? 4)

/-- Runs a body while a condition holds and the body does not yield the mark of
    a loop that is to be left. -/
def rounds (eval : Evaluator) (test body : Tree) : Nat → Action Value
  | 0 => throw .unfinished
  | n + 1 => do
    if ← eval.condition test then
      let v ← guarded (eval body)
      -- The mark ends the loop and goes no further.
      if v.isBreak then pure .absent else rounds eval test body n
    else pure .absent

/-- A loop of at most so many rounds. It yields no value. -/
def evalLoop (eval : Evaluator) (allowed : Nat) (t : Tree) : Action Value := do
  t.expectArity 2
  let test ← t.child 0
  let body ← t.child 1
  rounds eval test body allowed

/-- A form without operands that always yields the same value. -/
def evalMark (v : Value) (t : Tree) : Action Value := do
  t.expectArity 0
  pure v

/-- Writes a value on a line of its own, and yields it. -/
def evalPrint (eval : Evaluator) (t : Tree) : Action Value := do
  t.expectArity 1
  let v ← eval.operand (← t.child 0)
  write ((← heap).textOf v ++ "\n")
  pure v

/-- Writes the prompt, if there is one. -/
def writePrompt (eval : Evaluator) : Option Tree → Action Unit
  | some t => do
    let v ← eval.operand t
    write ((← heap).textOf v)
  | none => pure ()

/-- Reads a line of input, after writing a prompt. -/
def evalInput (eval : Evaluator) (t : Tree) : Action Value := do
  t.expectArity 1
  writePrompt eval (← t.child? 0)
  match ← readLine with
  | some line => pure (inputValue line)
  | none => fail .inputClosed

end TreeScript
