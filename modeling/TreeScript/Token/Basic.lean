import TreeScript.Text.Shown

/-!
# Tokens of Tree Text

Tree text is made of brackets, the mark for an empty slot, and words. A word
is bare or quoted; the two differ in how they are written and shown, not in
what they say. A placed token also knows the line it ends on, which is all a
diagnostic needs to point at it.

What a token is shown as is meant for a reader of the diagnostic and is not read back: a
bare word stands as it is, and a quoted one with all of its characters made visible.

## Main definitions

* `Token`: A token of tree text.
* `Token.word?`: The word that a token says, if it says one.
* `Token.shown`: A token as diagnostics show it.
* `Placed`: A token together with its line.
-/

namespace TreeScript

/-- A token of tree text. -/
inductive Token where
  /-- The bracket that opens a tree. -/
  | openParen
  /-- The bracket that closes a tree. -/
  | closeParen
  /-- The bracket that opens a sequence. -/
  | openBracket
  /-- The bracket that closes a sequence. -/
  | closeBracket
  /-- The mark for an empty slot. -/
  | nil
  /-- A word between double quotes, its escapes resolved. -/
  | quoted (word : String)
  /-- A bare word. -/
  | atom (word : String)
  deriving DecidableEq, Inhabited

namespace Token

/-- The word that a token says, whether it is bare or quoted. -/
def word? : Token → Option String
  | .quoted w => some w
  | .atom w => some w
  | _ => none

/-- A token as diagnostics show it. -/
def shown : Token → String
  | .openParen => "("
  | .closeParen => ")"
  | .openBracket => "["
  | .closeBracket => "]"
  | .nil => "~"
  | .quoted w => String.ofList (Text.shown w.toList)
  | .atom w => w

end Token

/-- A token and the number of its line. Lines are counted from one. -/
structure Placed where
  token : Token
  line : Nat
  deriving DecidableEq, Inhabited

end TreeScript
