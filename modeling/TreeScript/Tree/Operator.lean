/-!
# Operators

The operators that tags name: how a tag spells them and how diagnostics do.
Binary operators come in three families that are evaluated in different ways:
arithmetic, comparison and logic.

Each family has the symbols by which diagnostics name its operators, and the tags stand in
one table for all of them. The two are different words for most operators.

## Main definitions

* `ArithOp`, `CompareOp`, `LogicOp`: The three families.
* `BinaryOp`: An operator of any family.
* `UnaryOp`: Negation and the two steps of a variable.
-/

namespace TreeScript

/-- An operator on numbers; some of them also join and repeat sequences. -/
inductive ArithOp where
  | add
  | sub
  | mul
  | div
  | mod
  | pow
  deriving DecidableEq, Inhabited

/-- The operator as diagnostics write it. -/
def ArithOp.symbol : ArithOp → String
  | .add => "+"
  | .sub => "-"
  | .mul => "*"
  | .div => "/"
  | .mod => "%"
  | .pow => "^"

/-- An operator that compares two values. -/
inductive CompareOp where
  | equal
  | notEqual
  | greater
  | greaterEqual
  | less
  | lessEqual
  deriving DecidableEq, Inhabited

/-- The operator as diagnostics write it. -/
def CompareOp.symbol : CompareOp → String
  | .equal => "=="
  | .notEqual => "!="
  | .greater => ">"
  | .greaterEqual => ">="
  | .less => "<"
  | .lessEqual => "<="

/-- An operator on truth values. -/
inductive LogicOp where
  | conj
  | disj
  deriving DecidableEq, Inhabited

/-- The operator as diagnostics write it. -/
def LogicOp.symbol : LogicOp → String
  | .conj => "and"
  | .disj => "or"

/-- A binary operator. -/
inductive BinaryOp where
  | arith (op : ArithOp)
  | compare (op : CompareOp)
  | logic (op : LogicOp)
  deriving DecidableEq, Inhabited

/-- A unary operator. -/
inductive UnaryOp where
  /-- The negative of a number. -/
  | negate
  /-- One more, in a variable. -/
  | increment
  /-- One less, in a variable. -/
  | decrement
  deriving DecidableEq, Inhabited

namespace BinaryOp

/-- The operator as diagnostics write it. -/
def symbol : BinaryOp → String
  | .arith op => op.symbol
  | .compare op => op.symbol
  | .logic op => op.symbol

/-- The tags of the binary operators. -/
def tags : List (String × BinaryOp) :=
  [("plus", .arith .add), ("minus", .arith .sub), ("times", .arith .mul),
   ("divide", .arith .div), ("mod", .arith .mod), ("pow", .arith .pow),
   ("equals", .compare .equal), ("ne", .compare .notEqual),
   ("gt", .compare .greater), ("gte", .compare .greaterEqual),
   ("lt", .compare .less), ("lte", .compare .lessEqual),
   ("and", .logic .conj), ("or", .logic .disj)]

/-- The operator that a tag names. -/
def ofTag? (tag : String) : Option BinaryOp := tags.lookup tag

end BinaryOp

namespace UnaryOp

/-- The operator as diagnostics write it. -/
def symbol : UnaryOp → String
  | .negate => "-"
  | .increment => "++"
  | .decrement => "--"

/-- The tags of the unary operators. -/
def tags : List (String × UnaryOp) :=
  [("uminus", .negate), ("inc", .increment), ("dec", .decrement)]

/-- The operator that a tag names. -/
def ofTag? (tag : String) : Option UnaryOp := tags.lookup tag

end UnaryOp

end TreeScript
