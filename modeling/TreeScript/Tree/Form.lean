import TreeScript.Tree.Operator

/-!
# Forms of Program

What a tag makes of its tree. Most forms have one fixed tag. The three array
forms have one tag for each rank, which the tag spells in decimal between a
stem and the letter `d`: `array2d`, `array_access3d`, `array_assign1d`.

A tag that names no form is no error, and neither is one that looks like an array tag with
a rank that is zero, too great or not made of digits. Those name no form either. The
tables below are lists of tags with what they name, and a tag is looked up in them from
the front.

## Main definitions

* `Form`: The forms of program.
* `rank?`: The rank at the end of an array tag.
* `Form.ofTag?`: The form that a tag names, if it names one.
-/

namespace TreeScript

/-- A form of program. -/
inductive Form where
  /-- A program: a sequence of statements that is run for its effects. -/
  | main
  /-- A sequence of statements. -/
  | statements
  /-- An expression in the place of a statement. -/
  | statementExpr
  /-- An expression between parentheses. -/
  | paren
  /-- Binds a name to a value. -/
  | assign
  /-- The value of a name. -/
  | name
  /-- A numeric literal. -/
  | number
  /-- A text literal. -/
  | text
  /-- An array with given elements. -/
  | list
  /-- An element of an array or a character of a text. -/
  | index
  /-- A binary operator on two operands. -/
  | binary (op : BinaryOp)
  /-- A unary operator on one operand. -/
  | unary (op : UnaryOp)
  /-- Does nothing. -/
  | pass
  /-- Leaves the innermost loop after the current round. -/
  | leave
  /-- Writes a value. -/
  | print
  /-- Reads a line. -/
  | input
  /-- Chooses between branches. -/
  | choice
  /-- Repeats while a condition holds. -/
  | loop
  /-- An array of zeros with the given number of dimensions. -/
  | arrayNew (rank : Nat)
  /-- The element of an array at as many positions. -/
  | arrayAccess (rank : Nat)
  /-- Writes the element of an array at as many positions. -/
  | arrayAssign (rank : Nat)
  deriving DecidableEq, Inhabited

/-- The greatest rank that a tag may spell. -/
def maxRank : Nat := Nat.pow 2 64 - 1

/-- The rank that the end of an array tag spells: decimal digits before a `d`,
    at least one of them not zero. -/
def rank? (suffix : List Char) : Option Nat :=
  match suffix.reverse with
  | 'd' :: digits =>
    if digits.isEmpty then none
    else if digits.all Char.isDigit then
      let rank := Nat.ofDigitChars 10 digits.reverse 0
      if 0 < rank && rank ≤ maxRank then some rank else none
    else none
  | _ => none

namespace Form

/-- The forms with one fixed tag. -/
def tags : List (String × Form) :=
  [("main", .main), ("statements", .statements), ("statement-expr", .statementExpr),
   ("paren", .paren), ("assign", .assign), ("name", .name), ("number", .number),
   ("string", .text), ("list", .list), ("index", .index), ("pass", .pass),
   ("break", .leave), ("print", .print), ("input", .input),
   ("if-elif-else", .choice), ("while", .loop)]

/-- The stems of the array tags. -/
def stems : List (String × (Nat → Form)) :=
  [("array_access", .arrayAccess), ("array_assign", .arrayAssign), ("array", .arrayNew)]

/-- The form that a stem and a rank name, if the tag is made of them. -/
def ofStem? (tag : String) (stem : String × (Nat → Form)) : Option Form := do
  let suffix ← stem.1.toList.isPrefixOf? tag.toList
  let rank ← rank? suffix
  pure (stem.2 rank)

/-- The form that a tag names. -/
def ofTag? (tag : String) : Option Form :=
  -- The fixed tags come first. None of them is an array tag, so the order does not matter.
  ((BinaryOp.ofTag? tag).map .binary)
    <|> ((UnaryOp.ofTag? tag).map .unary)
    <|> tags.lookup tag
    <|> stems.findSome? (ofStem? tag)

end Form

end TreeScript
