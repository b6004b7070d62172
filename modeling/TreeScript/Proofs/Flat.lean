import TreeScript.Token.Basic
import TreeScript.Tree.Basic

/-!
# Flattened Trees

The two measures by which trees are compared with the tokens that spell them.
`flat` is the tree written out as tokens, all words bare: what is left of a
token list once lines and quotes are forgotten. `nesting` is the largest number
of brackets that are open at once when a tree is written out.

A token list spells a tree if both flatten to the same list. Whether a word is
bare or quoted is not part of the tree, which is why tokens are compared through
`plain` and never directly.

Both measures go through operands and rows of operands by mutual recursion, as operands
are defined. The laws that a reader or a printer needs are those of rows, since both of
them go through a row from left to right, the reader with a row of what it has read so far
in reverse; this is why the nesting of a reversed row has a lemma and its tokens have
none.

## Main definitions

* `Token.plain`: A token without the distinction of bare and quoted words.
* `Operand.flat`, `Tree.flat`: The plain tokens of an operand and of a tree.
* `Operand.nesting`, `Tree.nesting`: How many trees and sequences lie on a path.
* `onLine`: Tokens that all stand on one line.

## Theorems

* `Token.plain_eq_atom_iff`: What flattens to a bare word is a word.
* `Operand.flatEach_append`, `Operand.nestingEach_append`: Both measures of a
  list of operands that is put together.
* `Token.eq_of_plain_eq`: Only words change when the distinction is forgotten.
* `Operand.nestingEach_reverse`: The nesting of a row that is read backwards.
* `bracketed_of_map`: A list that is mapped to a bracketed one is bracketed itself.
-/

namespace TreeScript

namespace Token

/-- The token, with quoted words taken for bare ones. -/
def plain : Token → Token
  | .quoted w => .atom w
  | t => t

theorem plain_eq_atom_iff {t : Token} {w : String} : t.plain = .atom w ↔ t.word? = some w := by
  cases t <;> simp [plain, word?]

/-- Only words change when the distinction is forgotten. -/
theorem eq_of_plain_eq {t u : Token} (h : t.plain = u) (hu : u.word? = none) : t = u := by
  subst h
  cases t <;> simp [plain, word?] at hu ⊢

end Token

namespace Operand

mutual

/-- The plain tokens of an operand. -/
def flat : Operand → List Token
  | .tree tag os => .openParen :: .atom tag :: (flatEach os ++ [.closeParen])
  | .token w => [.atom w]
  | .seq os => .openBracket :: (flatEach os ++ [.closeBracket])
  | .nil => [.nil]

/-- The plain tokens of operands that stand in a row. -/
def flatEach : List Operand → List Token
  | [] => []
  | o :: os => o.flat ++ flatEach os

end

mutual

/-- The largest number of trees and sequences on a path into an operand. -/
def nesting : Operand → Nat
  | .tree _ os => nestingEach os + 1
  | .token _ => 0
  | .seq os => nestingEach os + 1
  | .nil => 0

/-- The same for operands that stand in a row. -/
def nestingEach : List Operand → Nat
  | [] => 0
  | o :: os => max o.nesting (nestingEach os)

end

/-- The operands of two rows are spelled one after another. -/
theorem flatEach_append (os ps : List Operand) :
    flatEach (os ++ ps) = flatEach os ++ flatEach ps := by
  induction os with
  | nil => rfl
  | cons o os ih => simp only [List.cons_append, flatEach, ih, List.append_assoc]

theorem nestingEach_append (os ps : List Operand) :
    nestingEach (os ++ ps) = max (nestingEach os) (nestingEach ps) := by
  induction os with
  | nil => simp only [List.nil_append, nestingEach, Nat.zero_max]
  | cons o os ih => simp only [List.cons_append, nestingEach, ih, Nat.max_assoc]

/-- The nesting does not depend on the order of the operands. -/
theorem nestingEach_reverse (os : List Operand) :
    nestingEach os.reverse = nestingEach os := by
  induction os with
  | nil => rfl
  | cons o os ih =>
      rw [List.reverse_cons, nestingEach_append, ih, Nat.max_comm]
      simp only [nestingEach, Nat.max_zero]

end Operand

namespace Tree

/-- The plain tokens of a tree. -/
def flat (t : Tree) : List Token := t.toOperand.flat

/-- The largest number of trees and sequences on a path from the root. -/
def nesting (t : Tree) : Nat := t.toOperand.nesting

end Tree

/-- The tokens, all of them on one line. -/
def onLine (n : Nat) (ts : List Token) : List Placed := ts.map fun k => ⟨k, n⟩

@[simp]
theorem onLine_tokens (n : Nat) (ts : List Token) : (onLine n ts).map Placed.token = ts := by
  rw [onLine, List.map_map]
  exact List.map_id ts

/-- Forgetting the lines commutes with forgetting how an atom was spelled. -/
theorem map_token_plain (ps : List Placed) :
    ps.map (·.token.plain) = (ps.map Placed.token).map Token.plain := by
  rw [List.map_map]
  rfl

/-- A list that is mapped to a bracketed one is bracketed itself. -/
theorem bracketed_of_map {α : Type} {f : α → Token} {as : List α} {a b : Token}
    {mid : List Token} (h : as.map f = a :: (mid ++ [b])) :
    ∃ p inner c, as = p :: (inner ++ [c]) ∧ f p = a ∧ f c = b ∧ inner.map f = mid := by
  rcases List.map_eq_cons_iff.mp h with ⟨p, rest, rfl, hp, hrest⟩
  rcases List.map_eq_append_iff.mp hrest with ⟨inner, last, rfl, hinner, hlast⟩
  rcases List.map_eq_singleton_iff.mp hlast with ⟨c, rfl, hc⟩
  exact ⟨p, inner, c, rfl, hp, hc, hinner⟩

end TreeScript
