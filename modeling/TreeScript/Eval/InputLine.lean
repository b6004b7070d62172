import TreeScript.Number.Literal
import TreeScript.Value.Basic

/-!
# Lines of Input

The value of a line that a program reads. A line that is a float but for blanks
around it is that float; underscores may separate its digits. Every other line
is a text, unchanged except that it lacks the line break.

Only what is read of a line is trimmed, and not the line: where there is no number, the
text has the blanks that it came with. A carriage return belongs to the line break if a
line feed follows it, and else to the text.

## Main definitions

* `lineBody`: A line without its line break.
* `inputValue`: The value of a line.
-/

namespace TreeScript

/-- A line without the line break that may end it. -/
def lineBody (cs : List Char) : List Char :=
  match cs.reverse with
  -- The carriage return belongs to the line ending only in front of a line feed.
  | '\n' :: '\r' :: rest => rest.reverse
  | '\n' :: rest => rest.reverse
  | _ => cs

/-- The value of a line of input. -/
def inputValue (line : String) : Value :=
  let body := lineBody line.toList
  match readSeparated? (Text.trim body) with
  | some x => .float x
  -- The text keeps its blanks. They are trimmed for the number only.
  | none => .text (String.ofList body)

end TreeScript
