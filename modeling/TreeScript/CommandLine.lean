import TreeScript.Number.Literal
import TreeScript.Number.Size
import TreeScript.Session

/-!
# The Command Line

What the command line asks for, and what comes of it. With a file the program
in it is run; without one there is a session. The depth of nesting can be set
with `--max-depth`. Anything else among the arguments is an error of usage.

The arguments are read from the left, by recursion on the list. An option takes its value
from the next argument or from behind an equals sign, and a double hyphen makes a file of
everything that follows. What a run leaves behind is computed and not done: `Exit` has
what goes to the two outputs and the code, and the program itself only has to write them.
A panic has a code of its own, as nothing is told of it on the machine.

## Main definitions

* `Invocation`: What the arguments ask for.
* `Invocation.ofArgs?`: The reading of the arguments.
* `Invocation.run`: What comes of it.
-/

namespace TreeScript

/-- What the arguments ask for. -/
structure Invocation where
  /-- The file that holds the program. -/
  file : Option String
  /-- How deep trees may be nested, if the arguments say so. -/
  depth : Option Nat
  deriving DecidableEq, Inhabited

/-- What a run leaves behind. -/
structure Exit where
  stdout : ByteArray
  stderr : String
  code : Nat
  deriving Inhabited

/-- The size that the value of an option spells. -/
def readSize? (word : String) : Option Nat := do
  let n ← match word.toList with
    | '+' :: cs => readNat? cs
    | cs => readNat? cs
  if n ≤ maxSize then some n else none

namespace Invocation

/-- The invocation with a file. There can be only one, and it has a name. -/
def withFile? (inv : Invocation) (file : String) : Option Invocation :=
  if inv.file.isSome || file.isEmpty then none else some { inv with file := some file }

/-- The invocation with a depth. It can be given only once. -/
def withDepth? (inv : Invocation) (word : String) : Option Invocation := do
  let depth ← readSize? word
  if inv.depth.isSome then none else some { inv with depth := some depth }

/-- The name of the option for the depth. -/
def depthOption : String := "--max-depth"

/-- What follows the option for the depth in the same argument, behind an
    equals sign. -/
def inlineDepth? (arg : String) : Option String := do
  let rest ← (depthOption ++ "=").toList.isPrefixOf? arg.toList
  pure (String.ofList rest)

/-- Whether an argument is an option: it begins with a hyphen and has more
    characters. -/
def isOption (arg : String) : Bool :=
  match arg.toList with
  | '-' :: _ :: _ => true
  | _ => false

/-- Reads the arguments behind those that the invocation has been read from. -/
def readArgs? (inv : Invocation) : List String → Option Invocation
  | [] => some inv
  -- Behind this everything is a file, also if it looks like an option.
  | "--" :: files => files.foldlM withFile? inv
  | [arg] => match inlineDepth? arg with
    | some word => inv.withDepth? word
    | none => if isOption arg then none else inv.withFile? arg
  | arg :: next :: rest =>
    -- The value may be the next argument or stand in the same one.
    if arg = depthOption then
      if isOption next then none
      else do (← inv.withDepth? next).readArgs? rest
    else match inlineDepth? arg with
      | some word => do (← inv.withDepth? word).readArgs? (next :: rest)
      | none =>
        if isOption arg then none
        else do (← inv.withFile? arg).readArgs? (next :: rest)

/-- What the arguments ask for, or nothing if they are an error of usage. -/
def ofArgs? (args : List String) : Option Invocation :=
  readArgs? ⟨none, none⟩ args

/-- The bounds of the evaluation. -/
def limits (inv : Invocation) (rounds : Nat) : Limits :=
  ⟨inv.depth.getD defaultDepth, rounds⟩

/-- The wording of a failure that ends a session. -/
def sessionMessage : Failure → String
  | .stream e => e.message
  | f => f.message

/-- The code of the exit behind a failure. That of a panic is another one. -/
def failureCode : Failure → Nat
  | .panicked _ => 101
  | _ => 1

/-- The code of the exit behind an error of a program. -/
def errorCode : ProgramError → Nat
  | .unreadable _ => 1
  | .failed f => failureCode f

/-- What comes of an action. -/
def exitOf (message : ε → String) (code : ε → Nat) : EStateM.Result ε Machine Unit → Exit
  | .ok _ m => ⟨m.output.written, "", 0⟩
  | .error e m => ⟨m.output.written, message e ++ "\n", code e⟩

/-- What comes of a file that cannot be read. -/
def unreadableFile (file : String) : Exit :=
  ⟨ByteArray.empty,
    s!"Failed to read the input file '{file}'. Perhaps this file does not exist?\n", 1⟩

/-- Runs what the arguments ask for. `source` is what the file holds, if there is
    a file and it can be read. -/
def run (inv : Invocation) (rounds : Nat) (source : Option String) (stdin : List UInt8) : Exit :=
  let limits := inv.limits rounds
  let machine := Machine.start stdin none
  match inv.file, source with
  | none, _ => exitOf sessionMessage failureCode ((session limits).run machine)
  | some _, some text => exitOf ProgramError.message errorCode ((runSource limits text).run machine)
  | some file, none => unreadableFile file

end Invocation

end TreeScript
