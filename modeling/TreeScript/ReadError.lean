import TreeScript.Token.Basic

/-!
# Errors in Tree Text

What can be wrong with a text that should hold trees. Each error knows its
line.

## Main definitions

* `ReadError`: A cause, with what a reader of the message needs to find it.
* `ReadError.message`: The wording.
-/

namespace TreeScript

/-- Why a text is not tree text. -/
inductive ReadError where
  /-- A stretch of text that is no token. -/
  | unreadable (text : String) (line : Nat)
  /-- A string that is still open at the end of its line. -/
  | unterminated (line : Nat)
  /-- A token where no tree or operand can begin or end with it. -/
  | unexpected (token : Token) (line : Nat)
  /-- The text ends inside a tree, or before the only tree. -/
  | unexpectedEnd (line : Nat)
  /-- A tree that does not begin with its tag. -/
  | tagExpected (found : Token) (line : Nat)
  /-- A bracket inside as many open brackets as are allowed. -/
  | tooDeep (max : Nat) (line : Nat)
  /-- A token behind the only tree. -/
  | trailing (token : Token) (line : Nat)
  deriving DecidableEq, Inhabited

namespace ReadError

/-- The line on which the text goes wrong. -/
def line : ReadError → Nat
  | .unreadable _ n => n
  | .unterminated n => n
  | .unexpected _ n => n
  | .unexpectedEnd n => n
  | .tagExpected _ n => n
  | .tooDeep _ n => n
  | .trailing _ n => n

/-- What is wrong, without the line. -/
def complaint : ReadError → String
  | .unreadable t _ => s!"Unexpected token: {t}."
  | .unterminated _ => "Unterminated string literal."
  | .unexpected t _ => s!"Unexpected token: {t.shown}."
  | .unexpectedEnd _ => "Unexpected end of input."
  | .tagExpected t _ => s!"Expected a node kind after '(', found {t.shown}."
  | .tooDeep m _ => s!"Nesting deeper than {m} levels."
  | .trailing t _ => s!"Extra tokens after the tree: {t.shown}."

/-- The message for people: the line and what is wrong there. -/
def message (e : ReadError) : String :=
  s!"Error on line {e.line}: {e.complaint}"

end ReadError

end TreeScript
