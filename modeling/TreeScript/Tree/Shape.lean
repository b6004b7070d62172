import TreeScript.Tree.Basic

/-!
# Shapes of Operands

Access to the operands of a tree by position and expected shape. A tree whose
operands do not fit the form that its tag names is malformed; the errors here
say where.

The access functions take what a form wants from a place, and no form looks at its
operands in another way. They stop at the first thing that is wrong, and in a sequence of
trees that is the first item that is no tree.

## Main definitions

* `Shape`: The four shapes of operands.
* `ShapeError`: How a tree can be malformed.
* `Tree.expectArity`, `Tree.operand`, `Tree.child`, `Tree.child?`, `Tree.token`,
  `Tree.children`: Access to operands.
-/

namespace TreeScript

/-- The shape of an operand. -/
inductive Shape where
  | node
  | token
  | sequence
  | nil
  deriving DecidableEq, Inhabited

/-- The name of a shape. -/
def Shape.name : Shape → String
  | .node => "node"
  | .token => "token"
  | .sequence => "sequence"
  | .nil => "nil"

/-- The shape of an operand. -/
def Operand.shape : Operand → Shape
  | .tree _ _ => .node
  | .token _ => .token
  | .seq _ => .sequence
  | .nil => .nil

/-- What a place of a tree can ask for. -/
inductive Expected where
  /-- A tree. -/
  | node
  /-- A tree or an empty slot. -/
  | nodeOrNil
  /-- A word. -/
  | token
  /-- A sequence. -/
  | sequence
  /-- A sequence that holds trees only. -/
  | nodes
  deriving DecidableEq, Inhabited

/-- The wording of what a place asks for. -/
def Expected.name : Expected → String
  | .node => "node"
  | .nodeOrNil => "node or nil"
  | .token => "token"
  | .sequence => "sequence"
  | .nodes => "sequence of nodes"

/-- How a tree can fail to fit its tag. -/
inductive ShapeError where
  /-- The number of operands is not the one that the form has. -/
  | arity (tag : String) (expected found : Nat)
  /-- There is no operand at a place that needs one. -/
  | missing (tag : String) (index : Nat)
  /-- The operand at a place has another shape than it needs. -/
  | unexpected (tag : String) (index : Nat) (expected : Expected) (found : Shape)
  /-- A word is no literal of the form. -/
  | literal (tag word : String)
  deriving DecidableEq, Inhabited

/-- The wording of an error. -/
def ShapeError.message : ShapeError → String
  | .arity tag expected found => s!"node '{tag}' expects {expected} operands, found {found}"
  | .missing tag index => s!"node '{tag}' is missing operand {index}"
  | .unexpected tag index expected found =>
    s!"node '{tag}' expects a {expected.name} at operand {index}, found a {found.name}"
  | .literal tag word => s!"node '{tag}' carries an invalid literal '{word}'"

namespace Tree

/-- Checks that a tree has this many operands. -/
def expectArity (t : Tree) (n : Nat) : Except ShapeError Unit :=
  if t.operands.length = n then .ok ()
  else .error (.arity t.tag n t.operands.length)

/-- The operand at a place. -/
def operand (t : Tree) (i : Nat) : Except ShapeError Operand :=
  match t.operands[i]? with
  | some o => .ok o
  | none => .error (.missing t.tag i)

/-- The error of finding an operand where something else is expected. -/
def unexpected (t : Tree) (i : Nat) (e : Expected) (o : Operand) : ShapeError :=
  .unexpected t.tag i e o.shape

/-- The tree at a place. -/
def child (t : Tree) (i : Nat) : Except ShapeError Tree := do
  match ← t.operand i with
  | .tree tag os => .ok ⟨tag, os⟩
  | o => .error (t.unexpected i .node o)

/-- The tree at a place that may also be empty or lie beyond the last
    operand. -/
def child? (t : Tree) (i : Nat) : Except ShapeError (Option Tree) :=
  match t.operands[i]? with
  -- A place behind the last operand counts as empty.
  | none => .ok none
  | some .nil => .ok none
  | some (.tree tag os) => .ok (some ⟨tag, os⟩)
  | some o => .error (t.unexpected i .nodeOrNil o)

/-- The word at a place. -/
def token (t : Tree) (i : Nat) : Except ShapeError String := do
  match ← t.operand i with
  | .token w => .ok w
  | o => .error (t.unexpected i .token o)

/-- The trees of the sequence at a place. -/
def children (t : Tree) (i : Nat) : Except ShapeError (List Tree) := do
  match ← t.operand i with
  | .seq items => items.mapM fun
    | .tree tag os => .ok ⟨tag, os⟩
    | o => .error (t.unexpected i .nodes o)
  | o => .error (t.unexpected i .sequence o)

end Tree

end TreeScript
