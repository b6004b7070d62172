import TreeScript.Proofs.Fold
import TreeScript.Tree.Shape

/-!
# Places in Trees

Where a tree stands inside another one. A step leads from a tree to one of its
operands, or to an item of an operand that is a sequence, and a place is a list
of steps from the root. What the accessors find is found at a place of one step.

A property of trees may be asked of a tree and of all that stand in it, at any
depth. `Tree.every` computes that, and whoever goes down a tree with it only
needs to know that it is inherited. The trees directly inside a tree are less
high than the tree, which is what an induction down a tree rests on.

Steps go to operands by number and not by what the tree is for, so a place means the same
in every form. What a form takes for a child, an optional child or a list of children is
in each case one step, and the lemmas on accessors say which one; a proof about evaluation
then speaks of steps only. A sequence is no tree, which is why an item takes one step and
not two.

## Main definitions

* `Step`, `Tree.inside?`: One step into a tree, and what is found there.
* `Tree.at?`: The tree at a place.
* `Tree.every`: A property of a tree and of all trees in it.

## Theorems

* `Tree.inside?_of_child`, `Tree.inside?_of_children`: What accessors find.
* `Tree.every_inside`: The property is inherited.
* `Tree.height_inside`: The trees in a tree are less high.
* `Tree.inside_induction`: Induction down a tree.
* `Tree.at?_cons`: A place is a step and a place from there.
* `Tree.inside?_of_child?`: What is found where a child is optional.
* `Tree.operand_of_child`, `Tree.operand_eq_ok_iff`: The operand that a child is made of.
* `Tree.expectArity_eq`, `Tree.length_of_expectArity`: The number of operands that is
  expected.
-/

namespace TreeScript

/-- A step from a tree into it. -/
inductive Step where
  /-- To an operand. -/
  | operand (i : Nat)
  /-- To an item of an operand that is a sequence. -/
  | item (i j : Nat)
  deriving DecidableEq, Inhabited

namespace Operand

/-- The tree that an operand is. -/
def tree? : Operand → Option Tree
  | .tree tag os => some ⟨tag, os⟩
  | _ => none

/-- The items of the sequence that an operand is, none if it is no sequence. -/
def items : Operand → List Operand
  | .seq os => os
  | _ => []

mutual

/-- Whether all trees in an operand have a property. -/
def every (P : Tree → Bool) : Operand → Bool
  | .tree tag os => P ⟨tag, os⟩ && everyEach P os
  | .token _ => true
  | .seq os => everyEach P os
  | .nil => true

/-- Whether all trees in a list of operands have a property. -/
def everyEach (P : Tree → Bool) : List Operand → Bool
  | [] => true
  | o :: os => every P o && everyEach P os

end

variable {P : Tree → Bool} {o : Operand} {os : List Operand}

theorem every_of_mem (h : everyEach P os = true) (ho : o ∈ os) : every P o = true := by
  induction os with
  | nil => cases ho
  | cons a as ih =>
      simp only [everyEach, Bool.and_eq_true] at h
      rcases List.mem_cons.mp ho with rfl | ho
      · exact h.1
      · exact ih h.2 ho

theorem everyEach_items (h : every P o = true) : everyEach P o.items = true := by
  cases o with
  | seq os => exact h
  | _ => rfl

/-- No operand in a row is higher than the row. -/
theorem height_le_of_mem (ho : o ∈ os) : o.height ≤ heightEach os := by
  induction os with
  | nil => cases ho
  | cons a os ih =>
      rcases List.mem_cons.mp ho with rfl | ho
      · exact Nat.le_max_left _ _
      · exact Nat.le_trans (ih ho) (Nat.le_max_right _ _)

theorem heightEach_items (o : Operand) : heightEach o.items ≤ o.height := by
  cases o with
  | seq os => exact Nat.le_refl _
  | _ => exact Nat.zero_le _

end Operand

namespace Tree

variable {t c : Tree} {cs : List Tree} {s : Step} {i j : Nat} {P : Tree → Bool}

/-- The operand or the item that a step leads to. -/
def operandAt? (t : Tree) : Step → Option Operand
  | .operand i => t.operands[i]?
  | .item i j => t.operands[i]?.bind fun o => o.items[j]?

/-- The tree that a step leads to. -/
def inside? (t : Tree) (s : Step) : Option Tree :=
  (t.operandAt? s).bind Operand.tree?

/-- The tree at a place. -/
def at? (t : Tree) (place : List Step) : Option Tree :=
  place.foldlM inside? t

theorem at?_cons (t : Tree) (s : Step) (place : List Step) :
    t.at? (s :: place) = (t.inside? s).bind fun c => c.at? place := rfl

theorem toOperand_inj {a b : Tree} (h : a.toOperand = b.toOperand) : a = b := by
  cases a
  cases b
  cases h
  rfl

/-- A number of operands that is the one expected passes the check, and no other does. -/
theorem expectArity_eq (h : t.operands.length = i) : t.expectArity i = .ok () :=
  if_pos h

theorem length_of_expectArity (h : t.expectArity i = .ok ()) : t.operands.length = i := by
  unfold expectArity at h
  split at h
  · assumption
  · cases h

theorem operand_eq_ok_iff {o : Operand} : t.operand i = .ok o ↔ t.operands[i]? = some o := by
  unfold operand
  cases t.operands[i]? <;> simp

theorem operand_of_child (h : t.child i = .ok c) : t.operands[i]? = some c.toOperand := by
  unfold child at h
  rcases exists_of_bind h with ⟨o, ho, htree⟩
  cases o with
  | tree tag os =>
      cases htree
      exact operand_eq_ok_iff.mp ho
  | _ => cases htree

theorem inside?_of_child (h : t.child i = .ok c) : t.inside? (.operand i) = some c := by
  simp only [inside?, operandAt?, operand_of_child h, Option.bind_some]
  rfl

/-- An optional child that is there is a tree inside. -/
theorem inside?_of_child? (h : t.child? i = .ok (some c)) : t.inside? (.operand i) = some c := by
  unfold child? at h
  cases hi : t.operands[i]? with
  | none => simp [hi] at h
  | some o =>
      cases o <;> simp [hi] at h
      rw [← h]
      simp [inside?, operandAt?, hi, Operand.tree?]

/-- A tree inside another at an operand is one of its operands. -/
theorem mem_operands_of_inside? (h : t.inside? (.operand i) = some c) :
    c.toOperand ∈ t.operands := by
  rcases Option.bind_eq_some_iff.mp h with ⟨o, ho, htree⟩
  cases o with
  | tree tag os =>
      cases htree
      exact List.mem_of_getElem? ho
  | _ => cases htree

/-- The trees of a sequence are its items, in order. -/
theorem inside?_of_children (h : t.children i = .ok cs) (hj : cs[j]? = some c) :
    t.inside? (.item i j) = some c := by
  unfold children at h
  rcases exists_of_bind h with ⟨o, ho, hitems⟩
  have hi := operand_eq_ok_iff.mp ho
  cases o with
  | seq items =>
      rcases exists_of_mapM hitems hj with ⟨item, hitem, hc⟩
      -- A child of a sequence is one of its items that is a tree.
      cases item with
      | tree tag os =>
          cases hc
          simp [inside?, operandAt?, hi, Operand.items, hitem, Operand.tree?]
      | _ => cases hc
  | _ => cases hitems

/-- Whether a tree and all trees in it have a property. -/
def every (P : Tree → Bool) (t : Tree) : Bool :=
  P t && Operand.everyEach P t.operands

theorem every_self (h : t.every P = true) : P t = true := by
  simp only [every, Bool.and_eq_true] at h
  exact h.1

/-- What holds at every node of a tree holds at every node of an operand. -/
theorem every_operandAt? {o : Operand} (h : t.every P = true) (ho : t.operandAt? s = some o) :
    o.every P = true := by
  simp only [every, Bool.and_eq_true] at h
  cases s with
  | operand i => exact Operand.every_of_mem h.2 (List.mem_of_getElem? ho)
  | item i j =>
      rcases Option.bind_eq_some_iff.mp ho with ⟨row, hrow, hitem⟩
      have hall := Operand.every_of_mem h.2 (List.mem_of_getElem? hrow)
      exact Operand.every_of_mem (Operand.everyEach_items hall) (List.mem_of_getElem? hitem)

/-- What all trees have, a tree among the operands has, and all trees in it do. -/
theorem every_of_mem_operands (h : t.every P = true) (hc : c.toOperand ∈ t.operands) :
    c.every P = true := by
  simp only [every, Bool.and_eq_true] at h
  exact Operand.every_of_mem h.2 hc

/-- The same of a tree inside, be it an operand or an item of one. -/
theorem every_inside (h : t.every P = true) (hc : t.inside? s = some c) : c.every P = true := by
  rcases Option.bind_eq_some_iff.mp hc with ⟨o, ho, htree⟩
  have hall := every_operandAt? h ho
  cases o with
  | tree tag os =>
      cases htree
      exact hall
  | _ => cases htree

/-- An operand is no higher than the operands of its tree. -/
theorem height_operandAt? {o : Operand} (ho : t.operandAt? s = some o) :
    o.height ≤ Operand.heightEach t.operands := by
  cases s with
  | operand i => exact Operand.height_le_of_mem (List.mem_of_getElem? ho)
  | item i j =>
      rcases Option.bind_eq_some_iff.mp ho with ⟨row, hrow, hitem⟩
      calc o.height ≤ Operand.heightEach row.items :=
            Operand.height_le_of_mem (List.mem_of_getElem? hitem)
        _ ≤ row.height := Operand.heightEach_items row
        _ ≤ Operand.heightEach t.operands := Operand.height_le_of_mem (List.mem_of_getElem? hrow)

/-- The trees in a tree are less high. -/
theorem height_inside (hc : t.inside? s = some c) : c.height < t.height := by
  rcases Option.bind_eq_some_iff.mp hc with ⟨o, ho, htree⟩
  have hle := height_operandAt? ho
  cases o with
  | tree tag os =>
      cases htree
      exact Nat.lt_succ_of_le hle
  | _ => cases htree

/-- What holds of a tree if it holds of all trees directly inside it holds of every tree. -/
@[elab_as_elim]
theorem inside_induction {motive : Tree → Prop}
    (step : ∀ t, (∀ s c, t.inside? s = some c → motive c) → motive t) (t : Tree) : motive t := by
  induction hn : t.height using Nat.strongRecOn generalizing t with
  | ind n ih =>
      subst hn
      exact step t fun s c hc => ih c.height (height_inside hc) c rfl

end Tree

end TreeScript
