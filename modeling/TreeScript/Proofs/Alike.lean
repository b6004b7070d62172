import Mathlib.Data.List.Forall2
import Mathlib.Data.Option.Basic
import TreeScript.Eval.Tree
import TreeScript.Proofs.Places

/-!
# Trees That Are Evaluated Alike

When two trees are evaluated alike. The rule of a form looks at the tag of a tree,
at its words, and at the shapes of its operands; of the trees inside it only knows
what their evaluators make of them. So two trees that differ in nothing else than the
trees directly inside them are evaluated alike if those are, maybe by two evaluators.

This is a statement about two runs, but no run is looked at: the actions themselves
are equal, and every rule is gone through once, in the order in which it is written.
A check of one tree refuses where the check of the other does, with the same error,
because an error tells the tag and the shape of an operand and nothing of the trees
in it. Sizes are taken from the tag alone, so they agree without a word.

Everything that says that a change of a tree makes no difference rests on this: the
change has to be one of the trees inside only, which is what `Operand.Maps` says of a
function on operands. A function that leaves every tree as it is is one of these, so a
tree is also like itself, with a relation that may say more of the trees inside.

## Main definitions

* `Found`: Two checks that find related things or refuse in the same way.
* `Tree.Alike`: Two trees that differ in the trees directly inside them only.
* `Operand.Maps`: A change of operands that changes nothing but the trees in them.

## Theorems

* `Tree.Alike.child`, `Tree.Alike.child?`, `Tree.Alike.children`: The accessors find
  related trees.
* `evalForm_alike`: The rule of a form does the same on both.
* `dispatch_alike`: So does the rule that the tag names.
* `Tree.alike_self`: A tree is like itself.
* `Tree.alike_map`: A tree is like what it is mapped to, as far as the trees inside it are
  related.
-/

namespace TreeScript

/-- Two checks of a tree that find related things, or refuse with the same error. -/
inductive Found {α β : Type} (S : α → β → Prop) : Except ShapeError α → Except ShapeError β → Prop
  where
  | ok {a : α} {b : β} : S a b → Found S (.ok a) (.ok b)
  | error {e e' : ShapeError} : e = e' → Found S (.error e) (.error e')

/-- Two items of sequences are alike if they are related trees, or no trees at all and of
    one shape. -/
inductive Operand.ItemAlike (R : Tree → Tree → Prop) : Operand → Operand → Prop where
  | tree {tag tag' : String} {os os' : List Operand} : R ⟨tag, os⟩ ⟨tag', os'⟩ →
      ItemAlike R (.tree tag os) (.tree tag' os')
  | other {o o' : Operand} : o.tree? = none → o'.tree? = none → o.shape = o'.shape →
      ItemAlike R o o'

/-- Two operands are alike if they are of one shape, hold the same word, and the trees that
    they are or have as items are related. -/
inductive Operand.Alike (R : Tree → Tree → Prop) : Operand → Operand → Prop where
  | tree {tag tag' : String} {os os' : List Operand} : R ⟨tag, os⟩ ⟨tag', os'⟩ →
      Alike R (.tree tag os) (.tree tag' os')
  | token (word : String) : Alike R (.token word) (.token word)
  | seq {items items' : List Operand} : List.Forall₂ (ItemAlike R) items items' →
      Alike R (.seq items) (.seq items')
  | nil : Alike R .nil .nil

/-- Two trees are alike if they differ in nothing but related trees directly inside them. -/
structure Tree.Alike (R : Tree → Tree → Prop) (t t' : Tree) : Prop where
  tag : t.tag = t'.tag
  operands : List.Forall₂ (Operand.Alike R) t.operands t'.operands

variable {α β γ : Type} {R : Tree → Tree → Prop} {t t' : Tree} {eval eval' : Evaluator} {i n : Nat}

/-- Operands that are alike have one shape, so an error tells the same of them. -/
theorem Operand.Alike.shape {o o' : Operand} (h : o.Alike R o') : o.shape = o'.shape := by
  cases h <;> rfl

/-- What goes on alike from related things goes on alike from both checks. -/
theorem Found.bind {S : α → β → Prop} {x : Except ShapeError α} {y : Except ShapeError β}
    {f : α → Action γ} {g : β → Action γ} (h : Found S x y) (hf : ∀ a b, S a b → f a = g b) :
    (liftM x >>= f) = (liftM y >>= g) := by
  cases h with
  | ok hab => exact hf _ _ hab
  | error he => rw [he]; rfl

/-- Checks of related items, one after the other. -/
theorem Found.mapM {S : α → β → Prop} {T : Operand → Operand → Prop} {as bs : List Operand}
    {f : Operand → Except ShapeError α} {g : Operand → Except ShapeError β}
    (h : List.Forall₂ T as bs) (hf : ∀ a b, T a b → Found S (f a) (g b)) :
    Found (List.Forall₂ S) (as.mapM f) (bs.mapM g) := by
  induction h with
  | nil => exact .ok .nil
  | @cons a b as bs hab _ ih =>
      rw [List.mapM_cons, List.mapM_cons]
      have hfirst := hf a b hab
      generalize f a = x at hfirst ⊢
      generalize g b = y at hfirst ⊢
      generalize as.mapM f = xs at ih ⊢
      generalize bs.mapM g = ys at ih ⊢
      -- The first check that refuses decides, and it is the same one on both sides.
      cases hfirst with
      | error he => exact .error he
      | ok hv =>
          cases ih with
          | error he => exact .error he
          | ok hvs => exact .ok (.cons hv hvs)

namespace Tree.Alike

variable (h : t.Alike R t')

include h

/-- They have as many operands. -/
theorem length_eq : t.operands.length = t'.operands.length := h.operands.length_eq

/-- The same number of operands is found, and told. -/
theorem expectArity (n : Nat) : t.expectArity n = t'.expectArity n := by
  unfold Tree.expectArity
  rw [h.length_eq, h.tag]

/-- There are operands at the same places, and those at one place are alike. -/
theorem getElem? (i : Nat) : Option.Rel (Operand.Alike R) t.operands[i]? t'.operands[i]? := by
  -- Both trees have as many operands, so a place lies in both or beyond both.
  rcases Nat.lt_or_ge i t.operands.length with hi | hi
  · have hi' : i < t'.operands.length := by rwa [← h.length_eq]
    rw [List.getElem?_eq_getElem hi, List.getElem?_eq_getElem hi']
    exact .some (h.operands.get hi hi')
  · have hi' : t'.operands.length ≤ i := by rwa [← h.length_eq]
    rw [List.getElem?_eq_none hi, List.getElem?_eq_none hi']
    exact .none

/-- At a place there are operands that are alike, or none in both. -/
theorem operand (i : Nat) : Found (Operand.Alike R) (t.operand i) (t'.operand i) := by
  unfold Tree.operand
  have hi := h.getElem? i
  generalize t.operands[i]? = o? at hi ⊢
  generalize t'.operands[i]? = o?' at hi ⊢
  cases hi with
  | some ho => exact .ok ho
  | none => exact .error (by rw [h.tag])

/-- An error tells the shape of an operand only. -/
theorem unexpected {o o' : Operand} (ho : o.shape = o'.shape) (e : Expected) :
    t.unexpected i e o = t'.unexpected i e o' := by
  unfold Tree.unexpected
  rw [h.tag, ho]

/-- Where one of them has a tree, the other has one that is related to it. -/
theorem child (i : Nat) : Found R (t.child i) (t'.child i) := by
  unfold Tree.child
  have hi := h.operand i
  generalize t.operand i = x at hi ⊢
  generalize t'.operand i = x' at hi ⊢
  cases hi with
  | error he => exact .error he
  | ok ho =>
      -- A refusal tells the shape of the operand, which is the same.
      cases ho with
      | tree hr => exact .ok hr
      | token _ => exact .error (h.unexpected rfl _)
      | seq _ => exact .error (h.unexpected rfl _)
      | nil => exact .error (h.unexpected rfl _)

/-- The same of a place that may be empty. -/
theorem child? (i : Nat) : Found (Option.Rel R) (t.child? i) (t'.child? i) := by
  unfold Tree.child?
  have hi := h.getElem? i
  generalize t.operands[i]? = o? at hi ⊢
  generalize t'.operands[i]? = o?' at hi ⊢
  cases hi with
  | none => exact .ok .none
  | some ho =>
      -- Only the empty slot and a tree are accepted, on both sides.
      cases ho with
      | tree hr => exact .ok (.some hr)
      | token _ => exact .error (h.unexpected rfl _)
      | seq _ => exact .error (h.unexpected rfl _)
      | nil => exact .ok .none

/-- Words are the same. -/
theorem token (i : Nat) : Found Eq (t.token i) (t'.token i) := by
  unfold Tree.token
  have hi := h.operand i
  generalize t.operand i = x at hi ⊢
  generalize t'.operand i = x' at hi ⊢
  cases hi with
  | error he => exact .error he
  | ok ho =>
      cases ho with
      | token _ => exact .ok rfl
      | tree _ => exact .error (h.unexpected rfl _)
      | seq _ => exact .error (h.unexpected rfl _)
      | nil => exact .error (h.unexpected rfl _)

/-- Sequences have related trees, or an item that is none at the same place. -/
theorem children (i : Nat) : Found (List.Forall₂ R) (t.children i) (t'.children i) := by
  unfold Tree.children
  have hi := h.operand i
  generalize t.operand i = x at hi ⊢
  generalize t'.operand i = x' at hi ⊢
  cases hi with
  | error he => exact .error he
  | ok ho =>
      cases ho with
      | seq hitems =>
          refine Found.mapM hitems fun a b hab => ?_
          cases hab with
          | tree hr => exact .ok hr
          | other ha hb hshape =>
              -- Neither item is a tree, and the error tells no more than its shape.
              cases a <;> cases b <;> cases ha <;> cases hb <;>
                exact .error (h.unexpected hshape _)
      | tree _ => exact .error (h.unexpected rfl _)
      | token _ => exact .error (h.unexpected rfl _)
      | nil => exact .error (h.unexpected rfl _)

end Tree.Alike

section evaluators

variable {c c' : Tree} (hc : eval c = eval' c')

include hc

/-- Operands have the same values if the trees do. -/
theorem operand_congr : eval.operand c = eval'.operand c' := by
  unfold Evaluator.operand
  rw [hc]

theorem present_congr : eval.present c = eval'.present c' := by
  unfold Evaluator.present
  rw [operand_congr hc]

theorem condition_congr : eval.condition c = eval'.condition c' := by
  unfold Evaluator.condition
  rw [hc]

/-- Every round of a loop does the same, and so does the loop with any number of rounds. -/
theorem rounds_congr {body body' : Tree} (hb : eval body = eval' body') (n : Nat) :
    rounds eval c body n = rounds eval' c' body' n := by
  induction n with
  | zero => rfl
  | succ n ih =>
      unfold rounds
      rw [condition_congr hc, hb, ih]

end evaluators

/-- Related trees that are treated alike are treated alike one after the other. -/
theorem mapM_congr_forall₂ {f g : Tree → Action α} {cs cs' : List Tree}
    (h : List.Forall₂ R cs cs') (hf : ∀ c c', R c c' → f c = g c') : cs.mapM f = cs'.mapM g := by
  induction h with
  | nil => rfl
  | cons hc _ ih => rw [List.mapM_cons, List.mapM_cons, hf _ _ hc, ih]

section slots

variable (he : ∀ c c', R c c' → eval c = eval' c')

include he

/-- A tree that may be left out is left out in both. -/
theorem optional_congr {c? c?' : Option Tree} (hc : Option.Rel R c? c?') :
    evalOptional eval c? = evalOptional eval' c?' := by
  cases hc with
  | none => rfl
  | some hc => exact he _ _ hc

theorem optionalCondition_congr {c? c?' : Option Tree} (hc : Option.Rel R c? c?') :
    optionalCondition eval c? = optionalCondition eval' c?' := by
  cases hc with
  | none => rfl
  | some hc => exact condition_congr (he _ _ hc)

/-- So is a prompt. -/
theorem writePrompt_congr {c? c?' : Option Tree} (hc : Option.Rel R c? c?') :
    writePrompt eval c? = writePrompt eval' c?' := by
  cases hc with
  | none => rfl
  | some hc =>
      simp only [writePrompt]
      rw [operand_congr (he _ _ hc)]

end slots

section forms

variable (h : t.Alike R t') (he : ∀ c c', R c c' → eval c = eval' c')

include h he

/-- The operands of a tree are evaluated alike one by one. -/
theorem inOrder_congr (first count : Nat) :
    eval.inOrder t first count = eval'.inOrder t' first count := by
  unfold Evaluator.inOrder
  -- The loop goes over the same places, and what it does at each of them is the same.
  have hf : (fun i => liftM (t.child (first + i)) >>= eval) =
      fun i => liftM (t'.child (first + i)) >>= eval' :=
    funext fun i => (h.child (first + i)).bind he
  exact congrArg (fun f : Nat → Action Value => (List.range count).mapM f) hf

/-- Sizes do not depend on what the trees inside are. -/
theorem children_congr (first count : Nat) :
    eval.children t first count = eval'.children t' first count := by
  unfold Evaluator.children
  exact bind_congr fun _ => bind_congr fun last => inOrder_congr h he first (last - first)

/-- A form around a tree does what the tree does. -/
theorem wrapped_congr : evalWrapped eval t = evalWrapped eval' t' := by
  unfold evalWrapped
  rw [h.expectArity]
  exact bind_congr fun _ => (h.child 0).bind he

theorem main_congr : evalMain eval t = evalMain eval' t' := by
  unfold evalMain
  rw [h.expectArity]
  refine bind_congr fun _ => (h.child 0).bind fun c c' hc => ?_
  rw [he c c' hc]

/-- Statements are guarded one by one, and each of them does the same. -/
theorem statements_congr : evalStatements eval t = evalStatements eval' t' := by
  unfold evalStatements statementResults
  rw [h.expectArity]
  refine congrArg (· >>= _) (bind_congr fun _ => (h.children 0).bind fun cs cs' hcs => ?_)
  exact mapM_congr_forall₂ hcs fun c c' hc => congrArg guarded (he c c' hc)

omit he in
/-- A number looks at a word only, which the trees have in common. -/
theorem number_congr : evalNumber t = evalNumber t' := by
  unfold evalNumber
  rw [h.expectArity, h.tag]
  refine bind_congr fun _ => (h.token 0).bind fun w w' hw => ?_
  rw [hw]

omit he in
theorem text_congr : evalText t = evalText t' := by
  unfold evalText
  rw [h.expectArity]
  exact bind_congr fun _ => (h.token 0).bind fun w w' hw => by rw [hw]

omit he in
theorem name_congr : evalName t = evalName t' := by
  unfold evalName
  rw [h.expectArity]
  exact bind_congr fun _ => (h.token 0).bind fun w w' hw => by rw [hw]

omit he in
theorem mark_congr (v : Value) : evalMark v t = evalMark v t' := by
  unfold evalMark
  rw [h.expectArity]

/-- The elements of a list are the trees of a sequence. -/
theorem list_congr : evalList eval t = evalList eval' t' := by
  unfold evalList
  rw [h.expectArity]
  refine bind_congr fun _ => (h.children 0).bind fun cs cs' hcs => ?_
  rw [mapM_congr_forall₂ hcs fun c c' hc => present_congr (he c c' hc)]

/-- The operands are evaluated in the same order, on the same machines. -/
theorem index_congr : evalIndex eval t = evalIndex eval' t' := by
  unfold evalIndex
  rw [h.expectArity]
  refine bind_congr fun _ => (h.child 0).bind fun a a' ha => ?_
  rw [operand_congr (he a a' ha)]
  refine bind_congr fun base => (h.child 1).bind fun b b' hb => ?_
  rw [operand_congr (he b b' hb)]

theorem binary_congr (op : BinaryOp) : evalBinary eval op t = evalBinary eval' op t' := by
  unfold evalBinary
  rw [h.expectArity]
  refine bind_congr fun _ => (h.child 0).bind fun a a' ha => ?_
  rw [operand_congr (he a a' ha)]
  refine bind_congr fun left => (h.child 1).bind fun b b' hb => ?_
  rw [operand_congr (he b b' hb)]

/-- Steps of a variable evaluate nothing and look at a word only. -/
theorem unary_congr (op : UnaryOp) : evalUnary eval op t = evalUnary eval' op t' := by
  unfold evalUnary
  rw [h.expectArity]
  refine bind_congr fun _ => ?_
  cases op with
  | negate =>
      refine (h.child 0).bind fun c c' hc => ?_
      rw [operand_congr (he c c' hc)]
  | increment => exact (h.token 0).bind fun w w' hw => congrArg _ hw
  | decrement => exact (h.token 0).bind fun w w' hw => congrArg _ hw

theorem assign_congr : evalAssign eval t = evalAssign eval' t' := by
  unfold evalAssign
  rw [h.expectArity]
  refine bind_congr fun _ => (h.token 0).bind fun w w' hw => (h.child 1).bind fun c c' hc => ?_
  rw [hw, present_congr (he c c' hc)]

theorem print_congr : evalPrint eval t = evalPrint eval' t' := by
  unfold evalPrint
  rw [h.expectArity]
  refine bind_congr fun _ => (h.child 0).bind fun c c' hc => ?_
  rw [operand_congr (he c c' hc)]

/-- The prompt is the only tree in an input. -/
theorem input_congr : evalInput eval t = evalInput eval' t' := by
  unfold evalInput
  rw [h.expectArity]
  refine bind_congr fun _ => (h.child? 0).bind fun c? c?' hc => ?_
  rw [writePrompt_congr he hc]

/-- A choice takes the same branch on both, since its conditions do the same. -/
theorem choice_congr : evalChoice eval t = evalChoice eval' t' := by
  unfold evalChoice
  rw [h.expectArity]
  refine bind_congr fun _ => (h.child 0).bind fun test test' htest => ?_
  rw [condition_congr (he test test' htest)]
  refine bind_congr fun holds => ?_
  -- The second condition is only looked for when the first one does not hold.
  split
  · exact (h.child 1).bind he
  · refine (h.child? 2).bind fun test? test?' htest? => ?_
    rw [optionalCondition_congr he htest?]
    refine bind_congr fun holds' => ?_
    split
    · exact (h.child 3).bind he
    · exact (h.child? 4).bind fun c? c?' hc => optional_congr he hc

/-- A loop runs the same rounds on both. -/
theorem loop_congr (allowed : Nat) : evalLoop eval allowed t = evalLoop eval' allowed t' := by
  unfold evalLoop
  rw [h.expectArity]
  refine bind_congr fun _ => (h.child 0).bind fun test test' htest => ?_
  refine (h.child 1).bind fun body body' hbody => ?_
  exact rounds_congr (he test test' htest) (he body body' hbody) allowed

/-- A new array is made of the values of its operands. -/
theorem arrayNew_congr (rank : Nat) : evalArrayNew eval rank t = evalArrayNew eval' rank t' := by
  unfold evalArrayNew
  rw [h.expectArity, children_congr h he]

/-- The number of operands is a matter of the rank, which the tag spells. -/
theorem arrayAccess_congr (rank : Nat) :
    evalArrayAccess eval rank t = evalArrayAccess eval' rank t' := by
  unfold evalArrayAccess
  refine bind_congr fun arity => ?_
  rw [h.expectArity, children_congr h he]
  exact bind_congr fun _ => (h.token 0).bind fun w w' hw => by rw [hw]

/-- The place of the value is a sum of sizes as well. -/
theorem arrayAssign_congr (rank : Nat) :
    evalArrayAssign eval rank t = evalArrayAssign eval' rank t' := by
  unfold evalArrayAssign
  refine bind_congr fun arity => ?_
  rw [h.expectArity, children_congr h he]
  refine bind_congr fun _ => (h.token 0).bind fun w w' hw => ?_
  rw [hw]
  refine bind_congr fun id => bind_congr fun indices => bind_congr fun place => ?_
  refine (h.child place).bind fun c c' hc => ?_
  rw [present_congr (he c c' hc)]

/-- The rule of a form does the same on two trees that are alike, if the trees inside are
    evaluated alike. -/
theorem evalForm_alike (allowed : Nat) (form : Form) :
    evalForm eval allowed t form = evalForm eval' allowed t' form := by
  -- One lemma for each form, with the same order of evaluation on both sides.
  cases form with
  | main => exact main_congr h he
  | statements => exact statements_congr h he
  | statementExpr => exact wrapped_congr h he
  | paren => exact wrapped_congr h he
  | assign => exact assign_congr h he
  | name => exact name_congr h
  | number => exact number_congr h
  | text => exact text_congr h
  | list => exact list_congr h he
  | index => exact index_congr h he
  | binary op => exact binary_congr h he op
  | unary op => exact unary_congr h he op
  | pass => exact mark_congr h _
  | leave => exact mark_congr h _
  | print => exact print_congr h he
  | input => exact input_congr h he
  | choice => exact choice_congr h he
  | loop => exact loop_congr h he allowed
  | arrayNew rank => exact arrayNew_congr h he rank
  | arrayAccess rank => exact arrayAccess_congr h he rank
  | arrayAssign rank => exact arrayAssign_congr h he rank

end forms

/-- So does the rule that the tag names, which is the same tag on both. -/
theorem dispatch_alike (h : t.Alike R t') (he : ∀ c c', R c c' → eval c = eval' c')
    (allowed : Nat) : dispatch eval allowed t = dispatch eval' allowed t' := by
  unfold dispatch
  rw [h.tag]
  split
  · exact evalForm_alike h he allowed _
  · rfl

/-- A change of operands that changes the trees among them and in their sequences by a
    function, and nothing else. -/
structure Operand.Maps (f : Tree → Tree) (g : Operand → Operand) : Prop where
  tree : ∀ tag os, g (.tree tag os) = (f ⟨tag, os⟩).toOperand
  token : ∀ word, g (.token word) = .token word
  seq : ∀ items, g (.seq items) = .seq (items.map g)
  nil : g .nil = .nil

section maps

variable {f : Tree → Tree} {g : Operand → Operand} (hg : Operand.Maps f g)

include hg

/-- What a function makes of an item is like the item if it is related to it as a tree. -/
theorem Operand.itemAlike_map {o : Operand} (h : ∀ c, o.tree? = some c → R (f c) c) :
    (g o).ItemAlike R o := by
  cases o with
  | tree tag os =>
      rw [hg.tree]
      exact .tree (h _ rfl)
  | token w =>
      rw [hg.token]
      exact .other rfl rfl rfl
  | seq items =>
      rw [hg.seq]
      exact .other rfl rfl rfl
  | nil =>
      rw [hg.nil]
      exact .other rfl rfl rfl

/-- The same of an operand, whose items are trees inside as well. -/
theorem Operand.alike_map {o : Operand} (h : ∀ c, o.tree? = some c → R (f c) c)
    (hitems : ∀ item ∈ o.items, ∀ c, item.tree? = some c → R (f c) c) : (g o).Alike R o := by
  cases o with
  | tree tag os =>
      rw [hg.tree]
      exact .tree (h _ rfl)
  | token w =>
      rw [hg.token]
      exact .token w
  -- The trees of a sequence stand one level further in, so they are a hypothesis of their own.
  | seq items =>
      rw [hg.seq]
      refine .seq (List.forall₂_map_left_iff.mpr (List.forall₂_same.mpr fun item hi => ?_))
      exact itemAlike_map hg (hitems item hi)
  | nil =>
      rw [hg.nil]
      exact .nil

/-- A tree whose operands are mapped is like the tree, if the trees directly inside it are
    related to what they are mapped to. -/
theorem Tree.alike_map (h : ∀ s c, t.inside? s = some c → R (f c) c) :
    Tree.Alike R ⟨t.tag, t.operands.map g⟩ t := by
  refine ⟨rfl, List.forall₂_map_left_iff.mpr (List.forall₂_same.mpr fun o ho => ?_)⟩
  rcases List.mem_iff_getElem?.mp ho with ⟨i, hi⟩
  refine Operand.alike_map hg (fun c hc => h (.operand i) c ?_) fun item hitem c hc => ?_
  · simp only [Tree.inside?, Tree.operandAt?, hi, Option.bind_some, hc]
  · rcases List.mem_iff_getElem?.mp hitem with ⟨j, hj⟩
    refine h (.item i j) c ?_
    simp only [Tree.inside?, Tree.operandAt?, hi, Option.bind_some, hj, hc]

end maps

/-- A tree is like itself if the trees directly inside it are related to themselves. -/
theorem Tree.alike_self (h : ∀ s c, t.inside? s = some c → R c c) : t.Alike R t := by
  have hid : Operand.Maps id id :=
    ⟨fun _ _ => rfl, fun _ => rfl, fun items => by rw [List.map_id]; rfl, rfl⟩
  have hmap : Tree.Alike R ⟨t.tag, t.operands.map id⟩ t := Tree.alike_map hid h
  rwa [List.map_id] at hmap

end TreeScript
