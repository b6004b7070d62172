import TreeScript.Eval.Tree
import TreeScript.Tree.Read

/-!
# Programs and Sessions

Two ways to run trees on a machine. A program is a text: nothing runs unless all
of it can be read, and its trees are evaluated in order until one is malformed or
a stream fails. A session takes the input of the machine itself, line by line:
each line is one tree, evaluated at once, and whatever is wrong with a line is
told and passed over. Only a stream that fails ends a session early.

A tree may read lines of the same input that the session reads its trees from.

That a session comes to an end has to be seen in its definition. Each line takes at least
one byte of the input, so there are no more lines than bytes, and one round more is enough
to notice the end.

## Main definitions

* `runTrees`, `runSource`: A list of trees, and a text that holds some.
* `respond`: The answer to one line of a session.
* `session`: A whole session.
-/

namespace TreeScript

/-- Why a program is not run to its end. -/
inductive ProgramError where
  /-- Its text holds something other than trees. -/
  | unreadable (e : ReadError)
  /-- One of its trees fails. -/
  | failed (f : Failure)
  deriving DecidableEq, Inhabited

/-- The wording of an error. -/
def ProgramError.message : ProgramError → String
  | .unreadable e => e.message
  | .failed f => f.message

/-- Evaluates trees in order. -/
def runTrees (limits : Limits) (trees : List Tree) : Action Unit :=
  trees.forM fun t => discard (evaluate limits t)

/-- Evaluates the trees of a text in order. -/
def runSource (limits : Limits) (source : String) : EStateM ProgramError Machine Unit :=
  -- The whole text is read before any of it is run.
  match readTrees source with
  | .error e => throw (.unreadable e)
  | .ok trees => (runTrees limits trees).adaptExcept .failed

/-- The first line of a session. -/
def banner : String := "aslang 0.1.0\n"

/-- What a session writes before it reads a line. -/
def prompt : String := "as > "

/-- Whether a line holds nothing. -/
def isBlankLine (line : String) : Bool :=
  line.toList.all Text.isBlank

/-- Evaluates a tree. A tree that is malformed is reported. -/
def evaluateReporting (limits : Limits) (t : Tree) : Action Unit :=
  recover (discard (evaluate limits t)) fun
    -- A refusal ends a program, but not a session.
    | .malformed e => some (report (Failure.malformed e).message)
    | _ => none

/-- Answers a line of a session. -/
def respond (limits : Limits) (line : String) : Action Unit :=
  -- A blank line is answered by the next prompt alone.
  if isBlankLine line then pure ()
  else match readTree line with
    | .error e => report e.message
    | .ok t => evaluateReporting limits t

/-- Answers up to so many lines, until the input ends. -/
def answerLines (limits : Limits) : Nat → Action Unit
  | 0 => throw .unfinished
  | n + 1 => do
    write prompt
    match ← readLine with
    | none => pure ()
    | some line =>
      respond limits line
      answerLines limits n

/-- Runs a session. Each line takes a byte of the input at least, so there are
    no more lines than bytes. -/
def session (limits : Limits) : Action Unit := do
  write banner
  let lines := (← get).input.length
  answerLines limits (lines + 1)

end TreeScript
