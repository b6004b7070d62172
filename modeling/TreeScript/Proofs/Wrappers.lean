import TreeScript.Proofs.Allowance

/-!
# Wrappers

Two forms stand around another tree and do nothing of their own: parentheses, and an
expression in the place of a statement. Taking them away everywhere in a tree makes no
difference to its evaluation, wherever they stood: as operands, conditions, bodies, prompts
or statements.

A wrapper does use up one level, so without it the tree inside is evaluated at another one.
That is where it helps to have the allowance as an argument: the tree inside has one unit
more, which is no difference for a tree that is not higher than the allowance, and it is the
only place where the height comes in. All else is the congruence of forms: the rule of a form
does not look at the trees inside, so they may be unwrapped one level at a time.

A form that checks its operands goes by their shape, and an unwrapped tree is still a tree.
So a tree that is refused is refused with the same error. A wrapper around something else
than one tree is an error itself, and it is left in its place.

## Main definitions

* `Tree.wrapped?`: The tree that a wrapper stands around.
* `Tree.unwrapped`: A tree without wrappers.
* `ComesTo`: The end of an evaluation whose loops may run as long as they need to.

## Theorems

* `Tree.every_unwrapped`: No wrapper around a tree is left.
* `Operand.height_unwrapped_le`: A tree does not get higher.
* `evalWithin_unwrapped`: Unwrapping makes no difference within an allowance.
* `wrappers_are_transparent`: Nor to a tree that stands alone.
-/

namespace TreeScript

namespace Tree

/-- The only operand of a wrapper, if that is a tree. -/
def wrapped? (t : Tree) : Option Tree :=
  if t.tag = "paren" ∨ t.tag = "statement-expr" then
    match t.operands with
    | [.tree tag os] => some ⟨tag, os⟩
    | _ => none
  else none

/-- A tree without the wrapper at its root, if there is one. -/
def peeled (t : Tree) : Tree := t.wrapped?.getD t

end Tree

namespace Operand

mutual

/-- An operand with all wrappers in it taken away. -/
def unwrapped : Operand → Operand
  | .tree tag os => (Tree.peeled ⟨tag, unwrappedEach os⟩).toOperand
  | .token w => .token w
  | .seq os => .seq (unwrappedEach os)
  | .nil => .nil

/-- The same for operands that stand in a row. -/
def unwrappedEach : List Operand → List Operand
  | [] => []
  | o :: os => o.unwrapped :: unwrappedEach os

end

theorem unwrappedEach_eq_map (os : List Operand) : unwrappedEach os = os.map unwrapped := by
  induction os with
  | nil => rfl
  | cons o os ih => rw [unwrappedEach, List.map_cons, ih]

end Operand

namespace Tree

/-- A tree whose operands have no wrappers in them. -/
def unwrappedInside (t : Tree) : Tree := ⟨t.tag, Operand.unwrappedEach t.operands⟩

/-- A tree with all wrappers taken away, its own included. -/
def unwrapped (t : Tree) : Tree := t.unwrappedInside.peeled

variable {t c : Tree}

theorem operands_of_wrapped? (h : t.wrapped? = some c) : t.operands = [c.toOperand] := by
  unfold wrapped? at h
  split at h
  · split at h
    · rename_i hos
      cases h
      exact hos
    · cases h
  · cases h

/-- There are two wrappers. -/
theorem form_of_wrapped? (h : t.wrapped? = some c) :
    Form.ofTag? t.tag = some .paren ∨ Form.ofTag? t.tag = some .statementExpr := by
  unfold wrapped? at h
  split at h
  · rename_i htag
    rcases htag with htag | htag <;> rw [htag]
    · exact .inl rfl
    · exact .inr rfl
  · cases h

theorem peeled_of_wrapped? (h : t.wrapped? = some c) : t.peeled = c := by
  rw [peeled, h, Option.getD_some]

theorem peeled_of_none (h : t.wrapped? = none) : t.peeled = t := by
  rw [peeled, h, Option.getD_none]

/-- Whether nothing is to be taken away at the root of a tree. -/
def isPeeled (t : Tree) : Bool := t.wrapped?.isNone

/-- Below a wrapper there is the tree inside it, in which all wrappers are gone already. -/
theorem every_peeled (h : Operand.everyEach isPeeled t.operands = true) :
    t.peeled.every isPeeled = true := by
  cases hw : t.wrapped? with
  | none =>
      have hself : t.isPeeled = true := by rw [isPeeled, hw, Option.isNone_none]
      rw [peeled_of_none hw, every, hself, h, Bool.and_self]
  | some c =>
      rw [operands_of_wrapped? hw, Operand.everyEach, Operand.everyEach, Bool.and_true] at h
      rw [peeled_of_wrapped? hw]
      exact h

end Tree

namespace Operand

mutual

/-- After unwrapping no node is a wrapper. -/
theorem every_unwrapped : ∀ o : Operand, o.unwrapped.every Tree.isPeeled = true
  | .tree tag os => by
      rw [unwrapped]
      exact Tree.every_peeled (everyEach_unwrapped os)
  | .token w => by rw [unwrapped, every]
  | .seq os => by
      rw [unwrapped, every]
      exact everyEach_unwrapped os
  | .nil => by rw [unwrapped, every]

theorem everyEach_unwrapped :
    ∀ os : List Operand, everyEach Tree.isPeeled (unwrappedEach os) = true
  | [] => by rw [unwrappedEach, everyEach]
  | o :: os => by
      rw [unwrappedEach, everyEach, every_unwrapped o, everyEach_unwrapped os, Bool.and_self]

end

end Operand

namespace Tree

variable {t c : Tree} {n : Nat}

/-- No wrapper around a tree is left, at no place. -/
theorem every_unwrapped (t : Tree) : t.unwrapped.every isPeeled = true :=
  every_peeled (Operand.everyEach_unwrapped t.operands)

theorem height_of_wrapped? (h : t.wrapped? = some c) : t.height = c.height + 1 := by
  rw [height, operands_of_wrapped? h]
  exact congrArg (· + 1) (Nat.max_zero c.height)

theorem height_peeled_le (t : Tree) : t.peeled.height ≤ t.height := by
  cases hw : t.wrapped? with
  | none => exact Nat.le_of_eq (congrArg height (peeled_of_none hw))
  | some c =>
      rw [peeled_of_wrapped? hw, height_of_wrapped? hw]
      exact Nat.le_succ c.height

end Tree

namespace Operand

mutual

/-- Unwrapping makes no tree higher. -/
theorem height_unwrapped_le : ∀ o : Operand, o.unwrapped.height ≤ o.height
  | .tree tag os => by
      rw [unwrapped]
      exact Nat.le_trans (Tree.height_peeled_le _) (Nat.succ_le_succ (heightEach_unwrapped_le os))
  | .token w => Nat.le_refl 0
  | .seq os => by
      rw [unwrapped]
      exact heightEach_unwrapped_le os
  | .nil => Nat.le_refl 0

theorem heightEach_unwrapped_le :
    ∀ os : List Operand, heightEach (unwrappedEach os) ≤ heightEach os
  | [] => Nat.le_refl 0
  | o :: os => by
      have ho := height_unwrapped_le o
      have hos := heightEach_unwrapped_le os
      simp only [unwrappedEach, heightEach]
      omega

end

end Operand

namespace Tree

theorem height_unwrappedInside_le (t : Tree) : t.unwrappedInside.height ≤ t.height :=
  Nat.succ_le_succ (Operand.heightEach_unwrapped_le t.operands)

theorem maps_unwrapped : Operand.Maps unwrapped Operand.unwrapped where
  tree _ _ := by rw [Operand.unwrapped]; rfl
  token _ := by rw [Operand.unwrapped]
  seq _ := by rw [Operand.unwrapped, Operand.unwrappedEach_eq_map]
  nil := by rw [Operand.unwrapped]

/-- A tree is unwrapped inside by unwrapping the trees directly inside it, which are less
    high. -/
theorem alike_unwrappedInside (t : Tree) :
    t.unwrappedInside.Alike (fun c' c => c' = c.unwrapped ∧ c.height < t.height) t := by
  rw [unwrappedInside, Operand.unwrappedEach_eq_map]
  exact alike_map maps_unwrapped fun _ _ hc => ⟨rfl, height_inside hc⟩

end Tree

variable {limits : Limits} {t c : Tree} {n : Nat}

/-- A wrapper is evaluated as the tree inside it, with one unit of the allowance less. -/
theorem evalWithin_wrapper (h : t.wrapped? = some c) :
    evalWithin limits (n + 1) t = evalWithin limits n c := by
  have hos := t.operands_of_wrapped? h
  have harity : t.expectArity 1 = .ok () := Tree.expectArity_eq (by rw [hos]; rfl)
  have hchild : t.child 0 = .ok c := child_eq (by rw [hos]; rfl)
  rcases t.form_of_wrapped? h with hform | hform
  · simp only [evalWithin, dispatch_of_form hform, evalForm, wrapped_eq harity hchild]
  · simp only [evalWithin, dispatch_of_form hform, evalForm, wrapped_eq harity hchild]

/-- The wrapper at the root of a tree makes no difference. -/
theorem evalWithin_peeled (h : t.height ≤ n + 1) :
    evalWithin limits (n + 1) t.peeled = evalWithin limits (n + 1) t := by
  cases hw : t.wrapped? with
  | none => rw [Tree.peeled_of_none hw]
  | some c =>
      rw [Tree.height_of_wrapped? hw] at h
      rw [Tree.peeled_of_wrapped? hw, evalWithin_wrapper hw]
      -- The tree inside is within what the wrapper leaves of the allowance, so one unit more
      -- makes no difference to it.
      exact evalWithin_of_height_le (by omega) (by omega)

/-- Wrappers make no difference to a tree that is not higher than the allowance. -/
theorem evalWithin_unwrapped (h : t.height ≤ n) :
    evalWithin limits n t.unwrapped = evalWithin limits n t := by
  -- The trees inside are unwrapped first, with what the root leaves of the allowance.
  induction n generalizing t with
  | zero => exact absurd h (Nat.not_succ_le_zero _)
  | succ n ih =>
      have hinside : evalWithin limits (n + 1) t.unwrappedInside = evalWithin limits (n + 1) t := by
        refine evalWithin_alike t.alike_unwrappedInside fun c' c hc => ?_
        rcases hc with ⟨rfl, hlt⟩
        exact ih (by omega)
      rw [← hinside]
      exact evalWithin_peeled (Nat.le_trans t.height_unwrappedInside_le h)

variable {m : Machine}

/-- Nor do they on a machine with as many levels left. -/
theorem evalTree_unwrapped (h : m.depth + t.height ≤ limits.depth) :
    evalTree limits t.unwrapped m = evalTree limits t m :=
  evalTree_eq_of_evalWithin (evalWithin_unwrapped (by omega))

/-- A tree and the tree without its wrappers do the same, where the allowance is enough for the
    higher one. -/
theorem evaluate_unwrapped (h : m.depth + t.height ≤ limits.depth) :
    evaluate limits t.unwrapped m = evaluate limits t m :=
  guarded_eq (evalTree_unwrapped h)

/-- The evaluation of a tree that stands alone comes to this end. It does so under some bound
    on the rounds of loops, and not because of that bound. -/
def ComesTo (depth : Nat) (t : Tree) (m : Machine) (r : EStateM.Result Failure Machine Value) :
    Prop :=
  ∃ rounds, evaluate ⟨depth, rounds⟩ t m = r ∧ ∀ m', r ≠ .error .unfinished m'

/-- A tree and the tree without wrappers, in which there is indeed no wrapper around a tree,
    come to the same ends on every machine, if the tree is not higher than the levels that are
    left there: either of them comes to an end if the other one does, with the same value
    or the same failure, and on the same machine, to which the output belongs. That is so
    inside of other trees as well, and under every bound on the rounds of loops. -/
theorem wrappers_are_transparent (t : Tree) :
    t.unwrapped.every Tree.isPeeled = true ∧
    (∀ depth m r, m.depth + t.height ≤ depth →
      (ComesTo depth t.unwrapped m r ↔ ComesTo depth t m r)) ∧
    (∀ limits m, m.depth + t.height ≤ limits.depth →
      evaluate limits t.unwrapped m = evaluate limits t m) ∧
    ∀ limits m, m.depth + t.height ≤ limits.depth →
      evalTree limits t.unwrapped m = evalTree limits t m := by
  refine ⟨t.every_unwrapped, fun depth m r h => ?_, fun limits m h => evaluate_unwrapped h,
    fun limits m h => evalTree_unwrapped h⟩
  have hsame : ∀ rounds, evaluate ⟨depth, rounds⟩ t.unwrapped m = evaluate ⟨depth, rounds⟩ t m :=
    fun rounds => evaluate_unwrapped h
  simp only [ComesTo, hsame]

/-- A statement that has a fault, a loop that is left, and a pair of parentheses with nothing
    in it. -/
def bareStatements : Tree :=
  ⟨"statements", [.seq [
    .tree "name" [.token "x"],
    .tree "while" [.tree "number" [.token "1"], .tree "statements" [.seq [
      .tree "print" [.tree "string" [.token "a"]], .tree "break" []]]],
    .tree "paren" []]]⟩

/-- The same with wrappers around operands, a condition, a body and statements. -/
def wrappedStatements : Tree :=
  ⟨"statements", [.seq [
    .tree "statement-expr" [.tree "paren" [.tree "name" [.token "x"]]],
    .tree "while" [.tree "paren" [.tree "number" [.token "1"]],
      .tree "paren" [.tree "statements" [.seq [
        .tree "print" [.tree "paren" [.tree "string" [.token "a"]]],
        .tree "statement-expr" [.tree "break" []]]]]],
    .tree "statement-expr" [.tree "paren" []]]]⟩

/-- The parentheses with nothing in them are refused in both, behind the same output. -/
theorem wrappers_are_transparent_refused :
    wrappedStatements.unwrapped = bareStatements ∧ wrappedStatements.height ≤ 7 ∧
      bareStatements.height = 5 ∧
      ComesTo 7 wrappedStatements (.start [] none) (.error (.malformed (.arity "paren" 1 0))
        ⟨.empty, .empty, [], ⟨"as says: x hasn't been defined!\na\n".toUTF8, none⟩, 0⟩) := by
  have hbare : wrappedStatements.unwrapped = bareStatements := by decide
  have hheight : wrappedStatements.height ≤ 7 := by decide
  refine ⟨hbare, hheight, by decide, ?_⟩
  -- One round is enough, since it leaves the loop.
  have hfits : (Machine.start [] none).depth + wrappedStatements.height ≤ 7 := hheight
  rw [← (wrappers_are_transparent wrappedStatements).2.1 7 _ _ hfits, hbare]
  exact ⟨1, rfl, nofun⟩

end TreeScript
