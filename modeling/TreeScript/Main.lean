import TreeScript.CommandLine

/-!
# The Program

Reads the arguments, the file and the input, and writes what comes of them. The
input is read whole before anything runs.
-/

namespace TreeScript

/-- The rounds that a loop may run, more than any machine can. -/
def endlessRounds : Nat := Nat.pow 2 62

/-- What is written when the arguments are wrong. -/
def usage : String := "usage: [--max-depth N] [FILE]"

/-- All bytes of a stream. -/
partial def readAll (stream : IO.FS.Stream) (read : ByteArray) : IO ByteArray := do
  let bytes ← stream.read 65536
  if bytes.isEmpty then pure read else readAll stream (read ++ bytes)

/-- The text of a file, if it can be read. -/
def readSource (file : Option String) : IO (Option String) := do
  match file with
  | none => pure none
  | some path => try some <$> IO.FS.readFile path catch _ => pure none

end TreeScript

/-- Runs the command line. -/
def main (args : List String) : IO UInt32 := do
  match TreeScript.Invocation.ofArgs? args with
  | none =>
    IO.eprintln TreeScript.usage
    pure 2
  | some inv =>
    let source ← TreeScript.readSource inv.file
    let input ← TreeScript.readAll (← IO.getStdin) ByteArray.empty
    let exit := inv.run TreeScript.endlessRounds source input.toList
    (← IO.getStdout).write exit.stdout
    IO.eprint exit.stderr
    pure exit.code.toUInt32
