import TreeScript.Text.Quoted
import TreeScript.Tree.Basic

/-!
# Printing Trees

The text of a tree, on one line: its tag and its operands between parentheses,
one space between any two neighbours. Sequences stand between brackets, an
empty slot is a tilde, and words are bare or quoted as they need to be. Reading
the text gives the tree back.

Characters are put together as lists and made into a string at the end, so the text of a
tree is built of the texts of its operands and nothing is appended to a string on the way.

## Main definitions

* `Operand.written`: The characters of an operand.
* `Tree.written`, `Tree.text`: The characters of a tree, and its text.
-/

namespace TreeScript

/-- Pieces of text with one space between any two neighbours. -/
def spaced (pieces : List (List Char)) : List Char :=
  [' '].intercalate pieces

mutual

/-- The characters of an operand. -/
def Operand.written : Operand → List Char
  | .tree tag os => '(' :: (spaced (Text.word tag.toList :: Operand.writtenEach os) ++ [')'])
  | .token w => Text.word w.toList
  | .seq os => '[' :: (spaced (Operand.writtenEach os) ++ [']'])
  | .nil => ['~']

/-- The characters of each operand of a list. -/
def Operand.writtenEach : List Operand → List (List Char)
  | [] => []
  | o :: os => o.written :: Operand.writtenEach os

end

/-- The text of an operand. -/
def Operand.text (o : Operand) : String := String.ofList o.written

namespace Tree

/-- The characters of a tree. -/
def written (t : Tree) : List Char := t.toOperand.written

/-- The text of a tree. -/
def text (t : Tree) : String := String.ofList t.written

end Tree

end TreeScript
