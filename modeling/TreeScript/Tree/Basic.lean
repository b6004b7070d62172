/-!
# Syntax Trees

A tree is a tag and a list of operands. The tag says what form of program the
tree is, but any tag may stand over any operands: whether they fit together is
decided where the tree is used.

Operands are nested in lists, so equality and height are defined by recursion on operands
and on lists of them together. A tree is a structure of its own, since most of a program
is about trees: an operand that is a tree has the same two parts, and `Tree.toOperand`
puts them in.

## Main definitions

* `Operand`: A nested tree, a word, a sequence or an empty slot.
* `Tree`: A tag and its operands.
* `Tree.height`: How deep trees are nested in a tree, with sequences not counted.
-/

namespace TreeScript

/-- An operand of a tree. -/
inductive Operand where
  /-- A nested tree. -/
  | tree (tag : String) (operands : List Operand)
  /-- A word. -/
  | token (word : String)
  /-- A sequence of operands. -/
  | seq (items : List Operand)
  /-- An empty slot. -/
  | nil
  deriving Inhabited

mutual

/-- Whether two operands are the same. -/
def Operand.decEq : (a b : Operand) → Decidable (a = b)
  | .tree s os, .tree t ps =>
    if h : s = t then
      match Operand.decEqList os ps with
      | isTrue k => isTrue (by rw [h, k])
      | isFalse k => isFalse fun e => k (Operand.tree.inj e).2
    else isFalse fun e => h (Operand.tree.inj e).1
  | .token v, .token w =>
    if h : v = w then isTrue (by rw [h]) else isFalse fun e => h (Operand.token.inj e)
  | .seq os, .seq ps =>
    match Operand.decEqList os ps with
    | isTrue k => isTrue (by rw [k])
    | isFalse k => isFalse fun e => k (Operand.seq.inj e)
  | .nil, .nil => isTrue rfl
  | .tree _ _, .token _ | .tree _ _, .seq _ | .tree _ _, .nil
  | .token _, .tree _ _ | .token _, .seq _ | .token _, .nil
  | .seq _, .tree _ _ | .seq _, .token _ | .seq _, .nil
  | .nil, .tree _ _ | .nil, .token _ | .nil, .seq _ => isFalse (by simp)

/-- Whether two lists of operands are the same. -/
def Operand.decEqList : (as bs : List Operand) → Decidable (as = bs)
  | [], [] => isTrue rfl
  | [], _ :: _ | _ :: _, [] => isFalse (by simp)
  | a :: as, b :: bs =>
    match Operand.decEq a b, Operand.decEqList as bs with
    | isTrue h, isTrue k => isTrue (by rw [h, k])
    | isFalse h, _ => isFalse fun e => h (List.cons.inj e).1
    | _, isFalse k => isFalse fun e => k (List.cons.inj e).2

end

instance : DecidableEq Operand := Operand.decEq

/-- A syntax tree: a tag and its operands. -/
structure Tree where
  tag : String
  operands : List Operand
  deriving DecidableEq, Inhabited

/-- A tree as an operand of another one. -/
def Tree.toOperand (t : Tree) : Operand := .tree t.tag t.operands

mutual

/-- How deep trees are nested in an operand. Sequences are not counted. -/
def Operand.height : Operand → Nat
  | .tree _ os => Operand.heightEach os + 1
  | .token _ => 0
  | .seq os => Operand.heightEach os
  | .nil => 0

/-- The same for operands that stand in a row. -/
def Operand.heightEach : List Operand → Nat
  | [] => 0
  | o :: os => max o.height (Operand.heightEach os)

end

/-- How deep trees are nested in a tree, the tree itself included. -/
def Tree.height (t : Tree) : Nat := Operand.heightEach t.operands + 1

end TreeScript
