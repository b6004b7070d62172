import TreeScript.Text.Visible

/-!
# Texts in Diagnostics

How a diagnostic quotes a text, so that every character of it can be seen. The
form is richer than the quoted form of tree text: what is not visible on its
own appears as its code point.

## Main definitions

* `shown`: The text as a diagnostic quotes it.
-/

namespace TreeScript

namespace Text

/-- A code point between braces, in hexadecimal without leading zeros. -/
def codePoint (c : Char) : List Char :=
  ['\\', 'u', Char.ofNat 0x7B] ++ Nat.toDigits 16 c.toNat ++ [Char.ofNat 0x7D]

/-- One character of a text that a diagnostic quotes. -/
def shownChar (c : Char) : List Char :=
  if c = Char.ofNat 0 then ['\\', '0']
  else match c with
    | '\t' => ['\\', 't']
    | '\r' => ['\\', 'r']
    | '\n' => ['\\', 'n']
    | '\\' => ['\\', '\\']
    | '"' => ['\\', '"']
    | c => if isVisible c then [c] else codePoint c

/-- The text as a diagnostic quotes it. -/
def shown (cs : List Char) : List Char :=
  '"' :: (cs.flatMap shownChar ++ ['"'])

end Text

end TreeScript
