import TreeScript.Proofs.Alike
import TreeScript.Proofs.Outcome

/-!
# Evaluation Level by Level

The equation of evaluation. The evaluator is written as a recursion down the height
of a tree, because a rule asks for trees inside only and Lean has to see that. What
one wants to argue with is the other reading: a tree is evaluated by the rule of its
form, with evaluation itself for the trees inside, one level deeper.

That the two are the same is a fact about the rules. A rule uses the evaluator that it
is given for trees directly inside the tree and for no other, so an evaluator that is
good for all lower trees is good enough; that is what `evalForm_alike` says of a tree
and itself.

The bound on the levels plays no part in this. Whether a level is left is found out on
the machine, at each tree anew: `nested_of_lt` and `nested_of_le` are the two cases,
and all that is proved of nested trees goes through them.

Leaving undoes entering, but an action in between may leave any machine. So what holds
after an action one level deeper is what holds after the action itself, with one level
taken back.

## Theorems

* `nested_of_lt`, `nested_of_le`: With a level left, and with none.
* `deeper_eq_ok_iff`, `deeper_eq_error_iff`: How an action one level deeper ends.
* `dispatch_of_form`, `dispatch_of_none`: The rule that a tag names.
* `evalTree_eq`: Evaluation of a tree by the rule of its form.
* `evalTree_of_lt`, `evalTree_of_le`: The same on a machine.
* `ends_evalTree`, `evalTree_eq_ok_iff`: The end of a tree from the end of its rule.
* `Machine.exited_entered`: Leaving a level that has been entered.
* `evalUpTo_of_height_le`: The height that the recursion is given does not matter.
-/

namespace TreeScript

variable {α : Type} {limits : Limits} {t : Tree} {m m' : Machine} {levels n n' : Nat}
  {a beyond : Action Value} {v : Value} {e : Failure} {eval : Evaluator} {allowed : Nat}

namespace Machine

@[simp]
theorem depth_entered (m : Machine) : m.entered.depth = m.depth + 1 := rfl

@[simp]
theorem depth_exited (m : Machine) : m.exited.depth = m.depth - 1 := rfl

/-- A level that is taken back is as if it had not been there. -/
@[simp]
theorem exited_entered (m : Machine) : m.entered.exited = m := rfl

end Machine

/-- With a level left, something is done one level deeper. -/
theorem nested_of_lt (h : m.depth < levels) : nested levels beyond a m = deeper a m := by
  have hpast : ¬ levels ≤ m.depth := Nat.not_le_of_lt h
  exact (bind_of_ok rfl).trans (by rw [if_neg hpast])

/-- With none left, something else is done. -/
theorem nested_of_le (h : levels ≤ m.depth) : nested levels beyond a m = beyond m :=
  (bind_of_ok rfl).trans (by rw [if_pos h])

/-- An action one level deeper yields what it yields there, and the level is taken back. -/
theorem deeper_eq_ok_iff {a : Action α} {v : α} :
    deeper a m = .ok v m' ↔ ∃ m₁, a m.entered = .ok v m₁ ∧ m₁.exited = m' := by
  unfold deeper
  cases a m.entered <;> simp

/-- It is taken back if it fails, too. -/
theorem deeper_eq_error_iff {a : Action α} :
    deeper a m = .error e m' ↔ ∃ m₁, a m.entered = .error e m₁ ∧ m₁.exited = m' := by
  unfold deeper
  cases a m.entered <;> simp

theorem deeper_of_ok {a : Action α} {v : α} (h : a m.entered = .ok v m') :
    deeper a m = .ok v m'.exited :=
  deeper_eq_ok_iff.mpr ⟨m', h, rfl⟩

theorem deeper_of_error {a : Action α} (h : a m.entered = .error e m') :
    deeper a m = .error e m'.exited :=
  deeper_eq_error_iff.mpr ⟨m', h, rfl⟩

/-- What an action one level deeper leaves is what it leaves there, with the level taken
    back. -/
theorem after_deeper (a : Action α) (m : Machine) :
    (deeper a).after m = (a.after m.entered).exited := by
  unfold Action.after
  cases hr : a m.entered with
  | ok v m' => rw [deeper_of_ok hr]
  | error e m' => rw [deeper_of_error hr]

theorem dispatch_of_form {form : Form} (hform : Form.ofTag? t.tag = some form) :
    dispatch eval allowed t = evalForm eval allowed t form := by
  unfold dispatch
  rw [hform]

/-- A tree whose tag names no form has no value. -/
theorem dispatch_of_none (hform : Form.ofTag? t.tag = none) :
    dispatch eval allowed t = pure .absent := by
  unfold dispatch
  rw [hform]

/-- A rule is the same with two evaluators that agree on all trees directly inside. -/
theorem dispatch_congr {eval' : Evaluator} (he : ∀ s c, t.inside? s = some c → eval c = eval' c)
    (allowed : Nat) : dispatch eval allowed t = dispatch eval' allowed t := by
  have hself : t.Alike (fun c c' => c = c' ∧ eval c = eval' c) t :=
    Tree.alike_self fun s c hc => ⟨rfl, he s c hc⟩
  refine dispatch_alike hself (fun c c' hc => ?_) allowed
  rw [← hc.1]
  exact hc.2

/-- It makes no difference how much higher than a tree the trees may be that are evaluated. -/
theorem evalUpTo_of_height_le (h : t.height ≤ n) (h' : t.height ≤ n') :
    evalUpTo limits n t = evalUpTo limits n' t := by
  -- The trees inside are less high, so that what they need is left for them on both sides.
  induction n generalizing n' t with
  | zero => exact absurd h (Nat.not_succ_le_zero _)
  | succ n ih =>
      cases n' with
      | zero => exact absurd h' (Nat.not_succ_le_zero _)
      | succ n' =>
          unfold evalUpTo
          congr 1
          refine dispatch_congr (fun s c hc => ?_) limits.rounds
          have hlt := Tree.height_inside hc
          exact ih (by omega) (by omega)

/-- A tree is evaluated by the rule of its form, one level deeper. -/
theorem evalTree_eq (limits : Limits) (t : Tree) :
    evalTree limits t = nested limits.depth (fail (.depthExceeded limits.depth))
      (dispatch (evalTree limits) limits.rounds t) := by
  have hheight : t.height = t.height - 1 + 1 := rfl
  conv => lhs; unfold evalTree
  rw [hheight]
  unfold evalUpTo
  congr 1
  -- The trees inside are less high, so what is left of the height is enough for them.
  refine dispatch_congr (fun s c hc => ?_) limits.rounds
  have hlt := Tree.height_inside hc
  exact evalUpTo_of_height_le (by omega) (Nat.le_refl _)

/-- With a level left, that is what is done. -/
theorem evalTree_of_lt (h : m.depth < limits.depth) :
    evalTree limits t m = deeper (dispatch (evalTree limits) limits.rounds t) m := by
  rw [evalTree_eq, nested_of_lt h]

/-- With none left, it is a fault, and nothing else happens. -/
theorem evalTree_of_le (h : limits.depth ≤ m.depth) :
    evalTree limits t m = .error (.fault (.depthExceeded limits.depth)) m := by
  rw [evalTree_eq, nested_of_le h]
  rfl

/-- What holds of the end of a rule, one level deeper, holds of the end of the tree. -/
theorem ends_evalTree {yields : Value → Machine → Prop} {fails : Failure → Machine → Prop}
    (h : m.depth < limits.depth) :
    Ends (evalTree limits t) m yields fails ↔
      Ends (dispatch (evalTree limits) limits.rounds t) m.entered
        (fun v m' => yields v m'.exited) fun e m' => fails e m'.exited := by
  unfold Ends
  rw [evalTree_of_lt h]
  exact ends_deeper

/-- A tree that yields a value has found a level left, and its rule has yielded it there. -/
theorem evalTree_eq_ok_iff : evalTree limits t m = .ok v m' ↔ m.depth < limits.depth ∧
    ∃ m₁, dispatch (evalTree limits) limits.rounds t m.entered = .ok v m₁ ∧ m₁.exited = m' := by
  rcases Nat.lt_or_ge m.depth limits.depth with hlt | hge
  · rw [evalTree_of_lt hlt, deeper_eq_ok_iff]
    simp only [hlt, true_and]
  · rw [evalTree_of_le hge]
    simp only [Nat.not_lt_of_le hge, false_and, reduceCtorEq]

end TreeScript
