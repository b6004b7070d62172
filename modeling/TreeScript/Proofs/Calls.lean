import TreeScript.Proofs.WellFormed

/-!
# What a Form Calls For

The rule of a form evaluates trees inside the tree, some of them under conditions, and
those of a loop many times. `Calls` says which ones and on which machine, with a rule for
each place in a form where that happens. What is said of a call is about the machine at
that moment: the operands before it have been evaluated, or so many rounds of the loop have
been run, and all checks of sizes and shapes that come first have been passed.

Calls are told apart by the step that leads to the tree, since the same tree may stand at
several places.

That these calls are really made shows where one of them fails: a failure that no guard
takes is the end of the form. So whatever is done with the values of the calls before it,
and however many rounds of a loop they belong to, the form has come as far as this one.
That there are no other calls is shown in the next module.

A rule of `Calls` repeats the guards of the form in the order in which they stand there,
with the results that they had. It says nothing of what the call yields, so that a call
can be the last thing that a form does. Two rules for operands of one kind are kept apart
if the second operand sees another machine than the first one.

## Main definitions

* `Rounds`: So many rounds of a loop.
* `Calls`: The trees that a form calls for.

## Theorems

* `Calls.inside?`: What is called for stands inside the tree.
* `children_eq_inOrder`: Operands where all sizes are small.
* `rounds_of_rounds`: A loop that has run for some rounds has the others left.
* `Calls.fails`: A call that fails, and not with a fault, is the end of the form.
* `inOrder_of_error`, `operand_of_error`, `present_of_error`, `condition_of_error`: Failures
  of a call, where its value would be looked at.
* `wrapped_eq`, `choice_eq_branch`, `choice_eq_otherwise`: The value of a call that becomes
  the value of the form.
-/

namespace TreeScript

/-- Whether the failure is a fault of the program. -/
def Failure.isFault : Failure → Bool
  | .fault _ => true
  | _ => false

/-- A loop that has run so many rounds since it was on the first machine is on the second
    one now. The condition held each time, and no round was one that leaves the loop. Whether
    a round does may depend on the machine before the body is run, and on its value. -/
inductive Rounds (eval : Evaluator) (test body : Tree) (leaves : Machine → Value → Prop) :
    Nat → Machine → Machine → Prop where
  | none (m : Machine) : Rounds eval test body leaves 0 m m
  | more {k : Nat} {m m₁ m₂ m' : Machine} {v : Value} : eval.condition test m = .ok true m₁ →
      guarded (eval body) m₁ = .ok v m₂ → ¬ leaves m₁ v → Rounds eval test body leaves k m₂ m' →
      Rounds eval test body leaves (k + 1) m m'

/-- A round leaves the loop if the value of the body is the mark for that. -/
def YieldsBreak (_ : Machine) (v : Value) : Prop := v = .breakMark

/-- A form of a tree that is evaluated on a machine calls for the tree at a step, on the
    machine that has been made of the first one by then. -/
inductive Calls (eval : Evaluator) (allowed : Nat) (t : Tree) (m : Machine) :
    Form → Step → Tree → Machine → Prop where
  /-- The only operand. -/
  | only {form : Form} {c : Tree} : form.wraps = true → t.expectArity 1 = .ok () →
      t.child 0 = .ok c → Calls eval allowed t m form (.operand 0) c m
  /-- The operand of an operator or an index, on the left. -/
  | left {form : Form} {a : Tree} : form = .index ∨ (∃ op, form = .binary op) →
      t.expectArity 2 = .ok () → t.child 0 = .ok a → Calls eval allowed t m form (.operand 0) a m
  | right {form : Form} {a b : Tree} {v : Value} {m₁ : Machine} :
      form = .index ∨ (∃ op, form = .binary op) → t.expectArity 2 = .ok () → t.child 0 = .ok a →
      eval.operand a m = .ok v m₁ → t.child 1 = .ok b →
      Calls eval allowed t m form (.operand 1) b m₁
  | assigned {name : String} {c : Tree} : t.expectArity 2 = .ok () → t.token 0 = .ok name →
      t.child 1 = .ok c → Calls eval allowed t m .assign (.operand 1) c m
  | element {trees : List Tree} {j : Nat} {c : Tree} {vs : List Value} {m₁ : Machine} :
      t.expectArity 1 = .ok () → t.children 0 = .ok trees →
      (trees.take j).mapM eval.present m = .ok vs m₁ → trees[j]? = some c →
      Calls eval allowed t m .list (.item 0 j) c m₁
  | statement {trees : List Tree} {j : Nat} {c : Tree} {vs : List Value} {m₁ : Machine} :
      t.expectArity 1 = .ok () → t.children 0 = .ok trees →
      (trees.take j).mapM (fun s => guarded (eval s)) m = .ok vs m₁ → trees[j]? = some c →
      Calls eval allowed t m .statements (.item 0 j) c m₁
  | prompt {c : Tree} : t.expectArity 1 = .ok () → t.child? 0 = .ok (some c) →
      Calls eval allowed t m .input (.operand 0) c m
  | dimension {rank i : Nat} {c : Tree} {vs : List Value} {m₁ : Machine} :
      t.expectArity rank = .ok () → rank ≤ maxRoom → i < rank →
      eval.inOrder t 0 i m = .ok vs m₁ → t.child i = .ok c →
      Calls eval allowed t m (.arrayNew rank) (.operand i) c m₁
  /-- An index of an array that has a name. -/
  | position {form : Form} {rank arity i : Nat} {name : String} {id : ArrayId} {c : Tree}
      {vs : List Value} {m₁ : Machine} :
      (form = .arrayAccess rank ∧ arity = rank + 1) ∨
        (form = .arrayAssign rank ∧ arity = rank + 2) →
      arity ≤ maxSize → rank ≤ maxRoom → t.expectArity arity = .ok () → t.token 0 = .ok name →
      namedArray name m = .ok id m → i < rank → eval.inOrder t 1 i m = .ok vs m₁ →
      t.child (1 + i) = .ok c → Calls eval allowed t m form (.operand (1 + i)) c m₁
  /-- The value for an element. -/
  | value {rank : Nat} {name : String} {id : ArrayId} {c : Tree} {vs : List Value} {m₁ : Machine} :
      rank + 2 ≤ maxSize → rank ≤ maxRoom → t.expectArity (rank + 2) = .ok () →
      t.token 0 = .ok name → namedArray name m = .ok id m →
      eval.inOrder t 1 rank m = .ok vs m₁ → t.child (rank + 1) = .ok c →
      Calls eval allowed t m (.arrayAssign rank) (.operand (rank + 1)) c m₁
  /-- The conditions of a choice, and its branches. -/
  | test {c : Tree} : t.expectArity 5 = .ok () → t.child 0 = .ok c →
      Calls eval allowed t m .choice (.operand 0) c m
  | branch {test c : Tree} {m₁ : Machine} : t.expectArity 5 = .ok () → t.child 0 = .ok test →
      eval.condition test m = .ok true m₁ → t.child 1 = .ok c →
      Calls eval allowed t m .choice (.operand 1) c m₁
  | test' {test c : Tree} {m₁ : Machine} : t.expectArity 5 = .ok () → t.child 0 = .ok test →
      eval.condition test m = .ok false m₁ → t.child? 2 = .ok (some c) →
      Calls eval allowed t m .choice (.operand 2) c m₁
  | branch' {test c : Tree} {test? : Option Tree} {m₁ m₂ : Machine} : t.expectArity 5 = .ok () →
      t.child 0 = .ok test → eval.condition test m = .ok false m₁ → t.child? 2 = .ok test? →
      optionalCondition eval test? m₁ = .ok true m₂ → t.child 3 = .ok c →
      Calls eval allowed t m .choice (.operand 3) c m₂
  | otherwise {test c : Tree} {test? : Option Tree} {m₁ m₂ : Machine} : t.expectArity 5 = .ok () →
      t.child 0 = .ok test → eval.condition test m = .ok false m₁ → t.child? 2 = .ok test? →
      optionalCondition eval test? m₁ = .ok false m₂ → t.child? 4 = .ok (some c) →
      Calls eval allowed t m .choice (.operand 4) c m₂
  /-- The condition of a loop, and its body, after some rounds. -/
  | again {test body : Tree} {k : Nat} {m₁ : Machine} : t.expectArity 2 = .ok () →
      t.child 0 = .ok test → t.child 1 = .ok body → k < allowed →
      Rounds eval test body YieldsBreak k m m₁ → Calls eval allowed t m .loop (.operand 0) test m₁
  | body {test body : Tree} {k : Nat} {m₁ m₂ : Machine} : t.expectArity 2 = .ok () →
      t.child 0 = .ok test → t.child 1 = .ok body → k < allowed →
      Rounds eval test body YieldsBreak k m m₁ → eval.condition test m₁ = .ok true m₂ →
      Calls eval allowed t m .loop (.operand 1) body m₂

variable {α β : Type} {eval : Evaluator} {allowed : Nat} {t c : Tree} {m m₁ m₂ m' : Machine}
  {form : Form} {s : Step} {e : Failure} {trees : List Tree} {j k : Nat}

/-- What is called for stands inside the tree. -/
theorem Calls.inside? (h : Calls eval allowed t m form s c m₁) : t.inside? s = some c := by
  -- Every call is for a child of the tree, or for one in a row of children.
  cases h with
  | only _ _ hc => exact Tree.inside?_of_child hc
  | left _ _ hc => exact Tree.inside?_of_child hc
  | right _ _ _ _ hc => exact Tree.inside?_of_child hc
  | assigned _ _ hc => exact Tree.inside?_of_child hc
  | element _ htrees _ hj => exact Tree.inside?_of_children htrees hj
  | statement _ htrees _ hj => exact Tree.inside?_of_children htrees hj
  | prompt _ hc => exact Tree.inside?_of_child? hc
  | dimension _ _ _ _ hc => exact Tree.inside?_of_child hc
  | position _ _ _ _ _ _ _ _ hc => exact Tree.inside?_of_child hc
  | value _ _ _ _ _ _ hc => exact Tree.inside?_of_child hc
  | test _ hc => exact Tree.inside?_of_child hc
  | branch _ _ _ hc => exact Tree.inside?_of_child hc
  | test' _ _ _ hc => exact Tree.inside?_of_child? hc
  | branch' _ _ _ _ _ hc => exact Tree.inside?_of_child hc
  | otherwise _ _ _ _ _ hc => exact Tree.inside?_of_child? hc
  | again _ hc _ _ _ => exact Tree.inside?_of_child hc
  | body _ _ hc _ _ _ => exact Tree.inside?_of_child hc

/-- A failure other than a fault goes through a guard. -/
theorem guarded_of_failure {a : Action Value} (h : a m = .error e m') (he : e.isFault = false) :
    guarded a m = .error e m' := by
  refine recover_of_error h ?_
  cases e with
  | fault f => cases he
  | _ => rfl

/-- Where the sizes are small, operands are evaluated in order and nothing else is done. -/
theorem children_eq_inOrder (first : Nat) {count : Nat} (hsum : first + count ≤ maxSize)
    (hroom : count ≤ maxRoom) : eval.children t first count = eval.inOrder t first count := by
  rw [Evaluator.children, bind_of_size (reserve_eq_ok_iff.mpr hroom),
    bind_of_size (addSizes_of_le hsum), Nat.add_sub_cancel_left]

/-- The operands before one that fails have been evaluated. -/
theorem inOrder_of_error {first count i : Nat} {vs : List Value} (hi : i < count)
    (hvs : eval.inOrder t first i m = .ok vs m₁) (hc : t.child (first + i) = .ok c)
    (he : eval c m₁ = .error e m₂) : eval.inOrder t first count m = .error e m₂ := by
  have htake : (List.range count).take i = List.range i := by
    rw [List.take_range, Nat.min_eq_left (Nat.le_of_lt hi)]
  unfold Evaluator.inOrder at hvs
  rw [← htake] at hvs
  refine mapM_of_error hvs (List.getElem?_range hi) ?_
  rw [bind_of_shape hc]
  exact he

/-- A failure of a tree is one of the operand. -/
theorem operand_of_error (he : eval c m = .error e m') : eval.operand c m = .error e m' :=
  bind_of_error he

theorem present_of_error (he : eval c m = .error e m') : eval.present c m = .error e m' :=
  bind_of_error (operand_of_error he)

/-- A condition fails with every failure that is no fault. -/
theorem condition_of_error (he : eval c m = .error e m') (hf : e.isFault = false) :
    eval.condition c m = .error e m' :=
  bind_of_error (guarded_of_failure he hf)

theorem isBreak_iff {v : Value} : v.isBreak = true ↔ v = .breakMark := by
  cases v <;> simp [Value.isBreak]

/-- A loop that has gone on for some rounds has the others left. -/
theorem rounds_of_rounds {test body : Tree} (h : Rounds eval test body YieldsBreak k m m')
    (n : Nat) : rounds eval test body (k + n) m = rounds eval test body n m' := by
  induction h with
  | none m => rw [Nat.zero_add]
  | @more k m m₁ m₂ m' v htest hbody hv _ ih =>
      have hgoes : ¬ v.isBreak = true := fun hb => hv (isBreak_iff.mp hb)
      rw [Nat.add_right_comm, rounds, bind_of_ok htest, if_pos rfl, bind_of_ok hbody, if_neg hgoes]
      exact ih

/-- One of the rounds that the loop may run is left to it. -/
theorem rounds_of_lt {test body : Tree} (h : Rounds eval test body YieldsBreak k m m')
    (hk : k < allowed) :
    ∃ n, rounds eval test body allowed m = rounds eval test body (n + 1) m' := by
  have hleft : allowed = k + (allowed - (k + 1) + 1) := by omega
  rw [hleft]
  exact ⟨_, rounds_of_rounds h _⟩

/-- A form around a tree does what the tree does. -/
theorem wrapped_eq (harity : t.expectArity 1 = .ok ()) (hc : t.child 0 = .ok c) :
    evalWrapped eval t = eval c := by
  rw [evalWrapped, bind_of_shape harity, bind_of_shape hc]

section choice

variable {test : Tree} {test? : Option Tree} (harity : t.expectArity 5 = .ok ())
  (htest : t.child 0 = .ok test)

include harity htest

/-- Where the first condition holds, the first branch is what the choice does. -/
theorem choice_eq_branch (hholds : eval.condition test m = .ok true m₁) (hc : t.child 1 = .ok c) :
    evalChoice eval t m = eval c m₁ := by
  simp only [evalChoice, bind_of_shape harity, bind_of_shape htest, bind_of_ok hholds, if_true,
    bind_of_shape hc]

/-- Where only the second one holds, it is the second branch. -/
theorem choice_eq_branch' (hholds : eval.condition test m = .ok false m₁)
    (htest' : t.child? 2 = .ok test?) (hholds' : optionalCondition eval test? m₁ = .ok true m₂)
    (hc : t.child 3 = .ok c) : evalChoice eval t m = eval c m₂ := by
  simp only [evalChoice, bind_of_shape harity, bind_of_shape htest, bind_of_ok hholds,
    Bool.false_eq_true, if_false, bind_of_shape htest', bind_of_ok hholds', if_true,
    bind_of_shape hc]

/-- Where none holds, it is the tree behind both, if there is one. -/
theorem choice_eq_otherwise (hholds : eval.condition test m = .ok false m₁)
    (htest' : t.child? 2 = .ok test?) (hholds' : optionalCondition eval test? m₁ = .ok false m₂)
    (hc : t.child? 4 = .ok (some c)) : evalChoice eval t m = eval c m₂ := by
  simp only [evalChoice, bind_of_shape harity, bind_of_shape htest, bind_of_ok hholds,
    Bool.false_eq_true, if_false, bind_of_shape htest', bind_of_ok hholds', bind_of_shape hc,
    evalOptional]

end choice

/-- A form with one operand fails with it, whatever it does with the value. -/
theorem only_of_error (hw : form.wraps = true) (harity : t.expectArity 1 = .ok ())
    (hc : t.child 0 = .ok c) (he : eval c m = .error e m') :
    evalForm eval allowed t form m = .error e m' := by
  cases form with
  | main =>
      -- The failure passes through what is done with the value, in each of these forms.
      simp only [evalForm, evalMain, bind_of_shape harity, bind_of_shape hc]
      exact bind_of_error (bind_of_error he)
  | paren => exact (congrFun (wrapped_eq harity hc) m).trans he
  | statementExpr => exact (congrFun (wrapped_eq harity hc) m).trans he
  | print =>
      simp only [evalForm, evalPrint, bind_of_shape harity, bind_of_shape hc]
      exact bind_of_error (operand_of_error he)
  | unary op =>
      cases op with
      | negate =>
          simp only [evalForm, evalUnary, bind_of_shape harity, bind_of_shape hc]
          exact bind_of_error (operand_of_error he)
      | _ => cases hw
  | _ => cases hw

/-- A call that fails, and not with a fault, is the end of the form. -/
theorem Calls.fails (h : Calls eval allowed t m form s c m₁) (he : eval c m₁ = .error e m₂)
    (hf : e.isFault = false) : evalForm eval allowed t form m = .error e m₂ := by
  -- In each form, what was evaluated before the call has succeeded, so the failure is the first.
  cases h with
  | only hw harity hc => exact only_of_error hw harity hc he
  | left hform harity ha =>
      rcases hform with rfl | ⟨op, rfl⟩
      · simp only [evalForm, evalIndex, bind_of_shape harity, bind_of_shape ha]
        exact bind_of_error (operand_of_error he)
      · simp only [evalForm, evalBinary, bind_of_shape harity, bind_of_shape ha]
        exact bind_of_error (operand_of_error he)
  | right hform harity ha hv hb =>
      rcases hform with rfl | ⟨op, rfl⟩
      · simp only [evalForm, evalIndex, bind_of_shape harity, bind_of_shape ha, bind_of_ok hv,
          bind_of_shape hb]
        exact bind_of_error (operand_of_error he)
      · simp only [evalForm, evalBinary, bind_of_shape harity, bind_of_shape ha, bind_of_ok hv,
          bind_of_shape hb]
        exact bind_of_error (operand_of_error he)
  | assigned harity hname hc =>
      simp only [evalForm, evalAssign, bind_of_shape harity, bind_of_shape hname, bind_of_shape hc]
      exact bind_of_error (present_of_error he)
  | element harity htrees hvs hj =>
      simp only [evalForm, evalList, bind_of_shape harity, bind_of_shape htrees]
      exact bind_of_error (mapM_of_error hvs hj (present_of_error he))
  | statement harity htrees hvs hj =>
      simp only [evalForm, evalStatements, statementResults, bind_of_shape harity,
        bind_of_shape htrees]
      exact bind_of_error (mapM_of_error hvs hj (guarded_of_failure he hf))
  | prompt harity hc =>
      simp only [evalForm, evalInput, bind_of_shape harity, bind_of_shape hc]
      exact bind_of_error (bind_of_error (operand_of_error he))
  | dimension harity hroom hi hvs hc =>
      have hmax := maxRoom_lt_maxSize
      simp only [evalForm, evalArrayNew, bind_of_shape harity,
        children_eq_inOrder 0 (by omega) hroom]
      refine bind_of_error (inOrder_of_error hi hvs ?_ he)
      rw [Nat.zero_add]
      exact hc
  | position hform hsum hroom harity hname hid hi hvs hc =>
      rcases hform with ⟨rfl, rfl⟩ | ⟨rfl, rfl⟩
      · simp only [evalForm, evalArrayAccess, bind_of_size (addSizes_of_le hsum),
          bind_of_shape harity, bind_of_shape hname, bind_of_ok hid,
          children_eq_inOrder 1 (by omega) hroom]
        exact bind_of_error (inOrder_of_error hi hvs hc he)
      · simp only [evalForm, evalArrayAssign, bind_of_size (addSizes_of_le hsum),
          bind_of_shape harity, bind_of_shape hname, bind_of_ok hid,
          children_eq_inOrder 1 (by omega) hroom]
        exact bind_of_error (inOrder_of_error hi hvs hc he)
  | value hsum hroom harity hname hid hvs hc =>
      simp only [evalForm, evalArrayAssign, bind_of_size (addSizes_of_le hsum),
        bind_of_shape harity, bind_of_shape hname, bind_of_ok hid,
        children_eq_inOrder 1 (by omega) hroom, bind_of_ok hvs,
        bind_of_size (addSizes_of_le (Nat.le_of_succ_le hsum)), bind_of_shape hc]
      exact bind_of_error (present_of_error he)
  | test harity hc =>
      simp only [evalForm, evalChoice, bind_of_shape harity, bind_of_shape hc]
      exact bind_of_error (condition_of_error he hf)
  | branch harity htest hholds hc => exact (choice_eq_branch harity htest hholds hc).trans he
  | test' harity htest hholds hc =>
      simp only [evalForm, evalChoice, bind_of_shape harity, bind_of_shape htest,
        bind_of_ok hholds, Bool.false_eq_true, if_false, bind_of_shape hc]
      exact bind_of_error (condition_of_error he hf)
  | branch' harity htest hholds htest' hholds' hc =>
      exact (choice_eq_branch' harity htest hholds htest' hholds' hc).trans he
  | otherwise harity htest hholds htest' hholds' hc =>
      exact (choice_eq_otherwise harity htest hholds htest' hholds' hc).trans he
  | again harity htest hbody hk hrounds =>
      simp only [evalForm, evalLoop, bind_of_shape harity, bind_of_shape htest,
        bind_of_shape hbody]
      -- The rounds before have succeeded, so the loop fails in this one.
      rcases rounds_of_lt hrounds hk with ⟨n, hn⟩
      rw [hn, rounds]
      exact bind_of_error (condition_of_error he hf)
  | body harity htest hbody hk hrounds hholds =>
      simp only [evalForm, evalLoop, bind_of_shape harity, bind_of_shape htest,
        bind_of_shape hbody]
      rcases rounds_of_lt hrounds hk with ⟨n, hn⟩
      rw [hn, rounds, bind_of_ok hholds, if_pos rfl]
      exact bind_of_error (guarded_of_failure he hf)

end TreeScript
