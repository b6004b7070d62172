import TreeScript.Proofs.History
import TreeScript.Proofs.Verdict
import TreeScript.Proofs.Visits

/-!
# The Allowance for Nesting

How far the bound on nesting matters. The machine counts the levels, so what is left of
them for a tree is a matter of the machine on which it is evaluated. The counter is put
back however an evaluation ends, and so it stands where it stood at the start, between any
two trees of a session, whatever they have been and whether they have failed.

A tree that is nested no deeper than what is left never finds it used up, so it makes no
difference how much more there is, nor what would become of a tree that finds none left. A
tree that is nested deeper is evaluated as if all that lies beyond were not there.

For comparing trees with one another it is a nuisance that the counter is part of the
machine, since trees that do the same need not do it at the same level. `evalWithin` has
the allowance as an argument instead, counts it down along the tree and leaves the counter
alone. It is the same evaluation for the allowance that is left on a machine
(`evalTree_eq_evalWithin`). One half of that is that the calls of a form are all made one
level deeper than the form; the other half is that an evaluation that does not ask for the
counter is blind to it.

## Main definitions

* `Tree.cut`: A tree without what is nested deeper in it.
* `evalWithin`: Evaluation with an allowance that is counted down along the tree.
* `blindDiscipline`: The actions that have nothing to do with the counter.

## Theorems

* `depth_evaluate`, `depth_of_reached`: The counter is put back, however an evaluation ends.
* `evalWithin_of_height_le`: No more than the height is ever needed.
* `evalWithin_cut`: What lies beyond the allowance is not looked at.
* `evalTree_eq_evalWithin`: Evaluation on a machine is that with what is left there.
* `nesting_limit_is_exact`: The bound on nesting, for every tree on every machine.
* `runSource_eq`, `session_eq`: Programs and sessions do not depend on a bound that
  is not less than that of the reader.
-/

namespace TreeScript

namespace Operand

mutual

/-- An operand in which trees are nested only so deep. A bare tree stands for each of
    those that are nested deeper. -/
def cut : Nat → Operand → Operand
  | 0, .tree _ _ => .tree "" []
  | n + 1, .tree tag os => .tree tag (cutEach n os)
  | _, .token w => .token w
  | n, .seq os => .seq (cutEach n os)
  | _, .nil => .nil

/-- The same for operands that stand in a row. -/
def cutEach : Nat → List Operand → List Operand
  | _, [] => []
  | n, o :: os => cut n o :: cutEach n os

end

mutual

/-- Sequences only add to the number of brackets. -/
theorem height_le_nesting : ∀ o : Operand, o.height ≤ o.nesting
  | .tree _ os => Nat.succ_le_succ (heightEach_le_nestingEach os)
  | .token _ => Nat.le_refl 0
  | .seq os => Nat.le_succ_of_le (heightEach_le_nestingEach os)
  | .nil => Nat.le_refl 0

/-- The same for operands that stand in a row. -/
theorem heightEach_le_nestingEach : ∀ os : List Operand, heightEach os ≤ nestingEach os
  | [] => Nat.le_refl 0
  | o :: os => by
      have ho := height_le_nesting o
      have hos := heightEach_le_nestingEach os
      simp only [heightEach, nestingEach]
      omega

end

mutual

/-- Nothing is cut off where nothing is nested too deep. -/
theorem cut_of_height_le : ∀ (n : Nat) (o : Operand), o.height ≤ n → o.cut n = o
  | 0, .tree _ _, h => absurd h (Nat.not_succ_le_zero _)
  | n + 1, .tree tag os, h => by
      rw [cut, cutEach_of_heightEach_le n os (Nat.le_of_succ_le_succ h)]
  | _, .token _, _ => by rw [cut]
  | n, .seq os, h => by rw [cut, cutEach_of_heightEach_le n os h]
  | _, .nil, _ => by rw [cut]

/-- The same for operands that stand in a row. -/
theorem cutEach_of_heightEach_le :
    ∀ (n : Nat) (os : List Operand), heightEach os ≤ n → cutEach n os = os
  | _, [], _ => by rw [cutEach]
  | n, o :: os, h => by
      rw [cutEach, cut_of_height_le n o (Nat.le_trans (Nat.le_max_left _ _) h),
        cutEach_of_heightEach_le n os (Nat.le_trans (Nat.le_max_right _ _) h)]

end

theorem cutEach_eq_map (n : Nat) (os : List Operand) : cutEach n os = os.map (cut n) := by
  induction os with
  | nil => rfl
  | cons o os ih => rw [cutEach, List.map_cons, ih]

end Operand

namespace Tree

/-- A tree in which trees are nested only so deep. -/
def cut : Nat → Tree → Tree
  | 0, _ => ⟨"", []⟩
  | n + 1, t => ⟨t.tag, Operand.cutEach n t.operands⟩

variable {t : Tree} {n : Nat}

/-- The nesting that the reader counts includes the sequences, and the height does not. -/
theorem height_le_nesting (t : Tree) : t.height ≤ t.nesting :=
  Nat.succ_le_succ (Operand.heightEach_le_nestingEach t.operands)

/-- A tree that is not nested deeper is left as it is. -/
theorem cut_of_height_le (h : t.height ≤ n) : t.cut n = t := by
  cases n with
  | zero => exact absurd h (Nat.not_succ_le_zero _)
  | succ n => rw [cut, Operand.cutEach_of_heightEach_le n _ (Nat.le_of_succ_le_succ h)]

/-- Cutting changes nothing but the trees in an operand. -/
theorem maps_cut (n : Nat) : Operand.Maps (cut n) (Operand.cut n) where
  tree _ _ := by cases n <;> rfl
  token _ := by rw [Operand.cut]
  seq _ := by rw [Operand.cut, Operand.cutEach_eq_map]
  nil := by rw [Operand.cut]

/-- Cutting a tree cuts the trees directly inside it one level earlier. -/
theorem alike_cut (n : Nat) (t : Tree) : (t.cut (n + 1)).Alike (fun c' c => c' = c.cut n) t := by
  rw [cut, Operand.cutEach_eq_map]
  exact alike_map (maps_cut n) fun _ _ _ => rfl

end Tree

/-- Evaluation with an allowance for nesting that is counted down along the tree. -/
def evalWithin (limits : Limits) : Nat → Evaluator
  | 0, _ => fail (.depthExceeded limits.depth)
  | n + 1, t => dispatch (evalWithin limits n) limits.rounds t

variable {α : Type} {R : Tree → Tree → Prop} {limits : Limits} {t t' : Tree} {m : Machine}
  {n n' : Nat} {a : Action α}

/-- Trees that are alike are evaluated alike, if the trees inside are with what is left of the
    allowances. -/
theorem evalWithin_alike (h : t.Alike R t')
    (he : ∀ c c', R c c' → evalWithin limits n c = evalWithin limits n' c') :
    evalWithin limits (n + 1) t = evalWithin limits (n' + 1) t' :=
  dispatch_alike h he limits.rounds

/-- A tree that is not higher than two allowances is evaluated alike with both. -/
theorem evalWithin_of_height_le (h : t.height ≤ n) (h' : t.height ≤ n') :
    evalWithin limits n t = evalWithin limits n' t := by
  -- One unit goes with the root, and the trees inside it are less high.
  induction n generalizing n' t with
  | zero => exact absurd h (Nat.not_succ_le_zero _)
  | succ n ih =>
      cases n' with
      | zero => exact absurd h' (Nat.not_succ_le_zero _)
      | succ n' =>
          refine dispatch_congr (fun s c hc => ?_) limits.rounds
          have hlt := Tree.height_inside hc
          exact ih (by omega) (by omega)

/-- What lies beyond the allowance is not looked at. -/
theorem evalWithin_cut (limits : Limits) (n : Nat) (t : Tree) :
    evalWithin limits n (t.cut n) = evalWithin limits n t := by
  induction n generalizing t with
  | zero => rfl
  | succ n ih =>
      refine evalWithin_alike (Tree.alike_cut n t) fun c' c hc => ?_
      rw [hc]
      exact ih c

/-- The machine with another level. -/
def Machine.atDepth (m : Machine) (depth : Nat) : Machine := { m with depth := depth }

/-- The result on a machine with another level. -/
def withDepth (depth : Nat) : EStateM.Result Failure Machine α → EStateM.Result Failure Machine α
  | .ok v m => .ok v (m.atDepth depth)
  | .error e m => .error e (m.atDepth depth)

/-- Two actions in a row are blind if both are. -/
theorem blind_bind {f : α → Action β} (ha : ∀ m depth, a (m.atDepth depth) = withDepth depth (a m))
    (hf : ∀ v m depth, f v (m.atDepth depth) = withDepth depth (f v m)) (m : Machine)
    (depth : Nat) : (a >>= f) (m.atDepth depth) = withDepth depth ((a >>= f) m) := by
  have hfirst := ha m depth
  cases hr : a m with
  | ok v m₁ =>
      rw [hr] at hfirst
      rw [bind_of_ok hfirst, bind_of_ok hr, hf]
  | error e m₁ =>
      rw [hr] at hfirst
      rw [bind_of_error hfirst, bind_of_error hr]
      rfl

theorem blind_write (s : String) (m : Machine) (depth : Nat) :
    write s (m.atDepth depth) = withDepth depth (write s m) := by
  cases h : (m.output.write s).2 <;> simp [write, Machine.atDepth, h, withDepth]

/-- Telling of a fault has nothing to do with the counter either. -/
theorem blind_guarded {a : Action Value}
    (ha : ∀ m depth, a (m.atDepth depth) = withDepth depth (a m)) (m : Machine) (depth : Nat) :
    guarded a (m.atDepth depth) = withDepth depth (guarded a m) := by
  have hfirst := ha m depth
  -- The guard looks at the way the action ends, which the depth has no part in.
  cases hr : a m with
  | ok v m₁ =>
      rw [hr] at hfirst
      rw [guarded_of_ok hfirst, guarded_of_ok hr]
      rfl
  | error e m₁ =>
      rw [hr] at hfirst
      cases e with
      | fault f =>
          have hreport : (report f.message >>= fun _ => pure Value.absent) (m₁.atDepth depth) =
              withDepth depth ((report f.message >>= fun _ => pure Value.absent) m₁) :=
            blind_bind (blind_write _) (fun _ _ _ => rfl) m₁ depth
          exact (recover_of_next hfirst rfl).trans
            (hreport.trans (congrArg _ (recover_of_next hr rfl).symm))
      | _ =>
          exact (recover_of_error hfirst rfl).trans
            (congrArg (withDepth depth) (recover_of_error hr rfl).symm)

/-- The actions that have nothing to do with the counter: they do the same at every level,
    and leave it. They may have any effect. It is no nested discipline, since the question for
    the level is one that it excludes. -/
def blindDiscipline : Discipline where
  Obeys a := ∀ m depth, a (m.atDepth depth) = withDepth depth (a m)
  Allows _ := True
  obeys_pure _ _ _ := rfl
  obeys_bind ha hf := blind_bind ha hf
  obeys_fault _ _ _ := rfl
  obeys_heap _ _ := rfl
  obeys_growth _ _ _ := rfl
  obeys_lookup _ _ _ := rfl
  obeys_assign _ _ _ := rfl
  obeys_element _ _ _ := rfl
  obeys_write _ := blind_write _
  obeys_readLine _ m depth := by
    rcases ht : takeLine m.input with ⟨line, rest⟩
    cases line with
    | nil => simp only [readLine, Machine.atDepth, ht, withDepth]
    | cons b bs =>
        cases hd : decode? (b :: bs) <;> simp only [readLine, Machine.atDepth, ht, hd, withDepth]
  obeys_unfinished _ _ _ := rfl
  obeys_refusal _ _ _ := rfl
  obeys_panic _ _ _ := rfl
  obeys_guarded _ ha := blind_guarded ha

/-- Evaluation with an allowance of its own does not ask for the counter. -/
theorem blind_evalWithin (limits : Limits) (n : Nat) (t : Tree) :
    blindDiscipline.Obeys (evalWithin limits n t) := by
  induction n generalizing t with
  | zero => exact blindDiscipline.obeys_fault _
  | succ n ih =>
      have hadmits : blindDiscipline.Admits t := fun _ _ _ _ => trivial
      exact hadmits.obeys_dispatch trivial (fun _ c _ => ih c) limits.rounds

/-- What is blind to the counter does the same one level deeper as on its own. -/
theorem deeper_of_blind (ha : blindDiscipline.Obeys a) (m : Machine) : deeper a m = a m := by
  have hin : a m.entered = withDepth (m.depth + 1) (a m) := ha m (m.depth + 1)
  have hself : a m = withDepth m.depth (a m) := ha m m.depth
  rw [hself]
  cases hr : a m with
  | ok v m₁ =>
      rw [hr] at hin
      exact deeper_of_ok hin
  | error e m₁ =>
      rw [hr] at hin
      exact deeper_of_error hin

/-- Evaluation on a machine is that with the allowance that is left there. -/
theorem evalTree_eq_evalWithin (limits : Limits) (t : Tree) (m : Machine) :
    evalTree limits t m = evalWithin limits (limits.depth - m.depth) t m := by
  induction t using Tree.inside_induction generalizing m with
  | step t ih =>
      rcases Nat.lt_or_ge m.depth limits.depth with hlt | hge
      · obtain ⟨k, hk⟩ : ∃ k, limits.depth - m.depth = k + 1 :=
          ⟨limits.depth - m.depth - 1, by omega⟩
        rw [evalTree_of_lt hlt, hk]
        refine Eq.trans ?_ (deeper_of_blind (blind_evalWithin limits (k + 1) t) m)
        -- All trees inside are called for one level deeper, where one unit less is left.
        have hinside : dispatch (evalTree limits) limits.rounds t m.entered =
            dispatch (evalWithin limits k) limits.rounds t m.entered := by
          cases hform : Form.ofTag? t.tag with
          | none => rw [dispatch_of_none hform, dispatch_of_none hform]
          | some form =>
              rw [dispatch_of_form hform, dispatch_of_form hform]
              refine (evalForm_congr fun s c m₁ hcall => ?_).symm
              have hdepth := hcall.depth_eq (level_evalTree limits)
              have hleft : limits.depth - m₁.depth = k := by
                rw [hdepth, Machine.depth_entered]
                omega
              rw [ih s c hcall.inside? m₁, hleft]
        unfold deeper
        rw [hinside]
        rfl
      · rw [evalTree_of_le hge, Nat.sub_eq_zero_of_le hge]
        rfl

/-- What is equal with what is left of an allowance is evaluated alike. -/
theorem evalTree_eq_of_evalWithin
    (h : evalWithin limits (limits.depth - m.depth) t =
      evalWithin limits (limits.depth - m.depth) t') :
    evalTree limits t m = evalTree limits t' m := by
  rw [evalTree_eq_evalWithin, evalTree_eq_evalWithin, h]

theorem guarded_eq {a b : Action Value} (h : a m = b m) : guarded a m = guarded b m :=
  guarded_agrees h

/-- Evaluation on its own takes back all levels. -/
theorem level_evaluate (limits : Limits) (t : Tree) : levelDiscipline.Obeys (evaluate limits t) :=
  levelDiscipline.obeys_evaluate limits (fun _ => trivial) t

/-- The counter is put back, however an evaluation ends. -/
theorem depth_evaluate (limits : Limits) (t : Tree) (m : Machine) :
    ((evaluate limits t).after m).depth = m.depth :=
  (level_evaluate limits t m).after

/-- So it stands at zero between any two trees of a session. -/
theorem depth_of_reached {vs : List Value} (h : Reached m vs) : m.depth = 0 := by
  induction h with
  | start _ _ => rfl
  | @yields m m' vs limits t v _ hr ih =>
      -- Each step of the history is an evaluation, which puts the counter back.
      have hdepth := depth_evaluate limits t m
      rw [Action.after, hr] at hdepth
      exact hdepth.trans ih
  | @fails m m' vs limits t e _ hr ih =>
      have hdepth := depth_evaluate limits t m
      rw [Action.after, hr] at hdepth
      exact hdepth.trans ih
  | streams _ _ _ ih => exact ih

/-- A tree is evaluated the same with every bound up to which it does not reach, and whatever
    is done with trees that reach it. -/
theorem evalBy_of_height_le {depth : Nat} (beyond : Evaluator)
    (h : m.depth + t.height ≤ limits.depth) (h' : m.depth + t.height ≤ depth) :
    evalBy depth beyond (fun eval u => dispatch eval limits.rounds u) t m = evalTree limits t m :=
  evalUpToBy_eq (Nat.le_refl _) (.inl ⟨h', h⟩) fun _ _ _ _ _ => rfl

/-- So it ends the same with any two bounds of which that is true. -/
theorem evaluate_eq {limits' : Limits} (hrounds : limits'.rounds = limits.rounds)
    (h : m.depth + t.height ≤ limits.depth) (h' : m.depth + t.height ≤ limits'.depth) :
    evaluate limits' t m = evaluate limits t m := by
  refine guarded_eq ?_
  rw [evalTree_eq_evalBy limits', hrounds]
  exact evalBy_of_height_le _ h h'

/-- What has been read is not higher than the reader allows. -/
theorem height_le_of_readTree {source : String} (h : readTree source = .ok t) :
    t.height ≤ maxNesting :=
  Nat.le_trans t.height_le_nesting (nesting_le_of_readTree h)

/-- The bound on nesting is exact, on every machine. However an evaluation ends, the counter
    of the levels is put back, and so none is missing in any state of a session. A tree that
    is not higher than the levels that are left ends the same with every other bound of which
    that is true, and it never exceeds it, since it makes no difference what would be done
    then. Of any other tree, what is nested deeper than there are levels left makes no
    difference: what is visited is nested less deep, and with any other rule that does the
    same on what is visited the evaluation is the same. A tree that can be read never exceeds
    a bound that is not less than that of the reader. -/
theorem nesting_limit_is_exact (limits : Limits) (t : Tree) (m : Machine) :
    ((evalTree limits t).after m).depth = m.depth ∧
    ((evaluate limits t).after m).depth = m.depth ∧
    (∀ vs, Reached m vs → m.depth = 0) ∧
    (∀ depth, m.depth + t.height ≤ limits.depth → m.depth + t.height ≤ depth →
      evaluate ⟨depth, limits.rounds⟩ t m = evaluate limits t m) ∧
    (∀ beyond, m.depth + t.height ≤ limits.depth →
      guarded (evalBy limits.depth beyond (fun eval u => dispatch eval limits.rounds u) t) m =
        evaluate limits t m) ∧
    evaluate limits (t.cut (limits.depth - m.depth)) m = evaluate limits t m ∧
    (∀ place u m', Visits limits t m place u m' → t.at? place = some u ∧
      m'.depth = m.depth + place.length + 1 ∧ m.depth + place.length < limits.depth) ∧
    (∀ rule : Evaluator → Evaluator,
      (∀ place u m', Visits limits t m place u m' →
        ∀ eval, rule eval u m' = dispatch eval limits.rounds u m') →
      guarded (evalBy limits.depth (fun _ => fail (.depthExceeded limits.depth)) rule t) m =
        evaluate limits t m) ∧
    ∀ source beyond vs, readTree source = .ok t → 256 ≤ limits.depth → Reached m vs →
      guarded (evalBy limits.depth beyond (fun eval u => dispatch eval limits.rounds u) t) m =
        evaluate limits t m := by
  -- Within the allowance the exit beyond it is never taken, whatever it would do.
  have hbeyond : ∀ beyond, m.depth + t.height ≤ limits.depth →
      guarded (evalBy limits.depth beyond (fun eval u => dispatch eval limits.rounds u) t) m =
        evaluate limits t m :=
    fun beyond h => guarded_eq (evalBy_of_height_le beyond h h)
  have hcut : evaluate limits (t.cut (limits.depth - m.depth)) m = evaluate limits t m :=
    guarded_eq (evalTree_eq_of_evalWithin (evalWithin_cut limits _ t))
  refine ⟨(level_evalTree limits t m).after, depth_evaluate limits t m,
    fun vs h => depth_of_reached h, fun depth h h' => evaluate_eq rfl h h', hbeyond, hcut,
    fun place u m' hu => ⟨hu.at?_eq, hu.depth_eq, hu.length_lt⟩, fun rule hrule => ?_,
    fun source beyond vs hread hdepth hreached => hbeyond beyond ?_⟩
  · exact guarded_eq (evalUpToBy_eq (Nat.le_refl _) (.inr ⟨rfl, fun _ => rfl⟩) hrule)
  · -- Between evaluations the counter is at zero, so the reader's limit is enough.
    rw [depth_of_reached hreached, Nat.zero_add]
    exact Nat.le_trans (height_le_of_readTree hread) hdepth

/-- A number between so many parentheses. -/
def wrapped : Nat → Tree
  | 0 => ⟨"number", [.token "1"]⟩
  | n + 1 => ⟨"paren", [(wrapped n).toOperand]⟩

/-- A tree whose second statement fails with a failure that no guard takes, four levels deep. -/
def refusedInside : Tree :=
  ⟨"statements", [.seq [(wrapped 4).toOperand,
    .tree "paren" [.tree "paren" [.tree "paren" [.tree "paren" []]]]]]⟩

/-- A machine behind a tree that has exceeded a bound of three, and one that has been
    refused. -/
def machineBehindFailures : Machine :=
  (evaluate ⟨8, 0⟩ refusedInside).after ((evaluate ⟨3, 0⟩ (wrapped 5)).after (.start [] none))

/-- The machine is one of a session, behind a tree that was too deep and one that was refused. -/
theorem reached_machineBehindFailures : Reached machineBehindFailures [.absent] := by
  have hfault : evaluate ⟨3, 0⟩ (wrapped 5) (.start [] none) =
      .ok .absent ((evaluate ⟨3, 0⟩ (wrapped 5)).after (.start [] none)) := rfl
  have hrefused : evaluate ⟨8, 0⟩ refusedInside
      ((evaluate ⟨3, 0⟩ (wrapped 5)).after (.start [] none)) =
      .error (.malformed (.arity "paren" 1 0)) machineBehindFailures := rfl
  exact .fails (.yields (.start [] none) hfault) hrefused

/-- Behind both failures, all levels are there: a tree that just fits is evaluated in full, and
    so is one that has been read. -/
theorem nesting_limit_is_exact_behind_failures :
    machineBehindFailures.output.written =
      "as says: Maximum nesting depth of 3 exceeded!\n".toUTF8 ∧
    ((evaluate ⟨2, 0⟩ (wrapped 2)).after machineBehindFailures).depth = 0 ∧
    evaluate ⟨7, 0⟩ (wrapped 2) machineBehindFailures =
      evaluate ⟨3, 0⟩ (wrapped 2) machineBehindFailures ∧
    evaluate ⟨3, 0⟩ (wrapped 2) machineBehindFailures = .ok (.int 1) machineBehindFailures ∧
    (∃ m', Visits ⟨3, 0⟩ (wrapped 2) machineBehindFailures [.operand 0, .operand 0]
      (wrapped 0) m' ∧ m'.depth = 3) ∧
    (∀ other : Evaluator → Evaluator, guarded (evalBy 3 (fun _ => fail (.depthExceeded 3))
      (fun eval u m' => if m'.depth ≤ 3 then dispatch eval 0 u m' else other eval u m')
        (wrapped 5)) machineBehindFailures = evaluate ⟨3, 0⟩ (wrapped 5) machineBehindFailures) ∧
    readTree "(paren (paren (number 1)))" = .ok (wrapped 2) ∧
    ∀ beyond, guarded (evalBy 256 beyond (fun eval u => dispatch eval 0 u) (wrapped 2))
      machineBehindFailures = evaluate ⟨256, 0⟩ (wrapped 2) machineBehindFailures := by
  have hread : readTree "(paren (paren (number 1)))" = .ok (wrapped 2) := by decide +kernel
  have hreached := reached_machineBehindFailures
  have hexact := fun depth => nesting_limit_is_exact ⟨depth, 0⟩ (wrapped 2) machineBehindFailures
  have hzero : machineBehindFailures.depth = 0 := (hexact 3).2.2.1 _ hreached
  have hparen : Form.wraps .paren = true := rfl
  have hvisit : Visits ⟨3, 0⟩ (wrapped 2) machineBehindFailures [.operand 0, .operand 0]
      (wrapped 0) machineBehindFailures.entered.entered.entered :=
    .inside (by decide) rfl (.only hparen rfl rfl)
      (.inside (by decide) rfl (.only hparen rfl rfl) (.here (by decide)))
  -- A tree that is not visited could have any rule.
  have hrule := nesting_limit_is_exact ⟨3, 0⟩ (wrapped 5) machineBehindFailures
  rcases hrule with ⟨-, -, -, -, -, -, hvisits, hrule, -⟩
  refine ⟨rfl, (hexact 2).2.1.trans hzero, ?_, rfl, ⟨_, hvisit, rfl⟩, fun other => hrule _ ?_,
    hread, fun beyond => ?_⟩
  · exact (hexact 3).2.2.2.1 7 (by rw [hzero]; decide) (by rw [hzero]; decide)
  · intro place u m' hu eval
    rcases hvisits place u m' hu with ⟨-, hdepth, hlt⟩
    have hle : m'.depth ≤ 3 := by rw [hdepth]; exact hlt
    exact if_pos hle
  · exact (hexact 256).2.2.2.2.2.2.2.2 _ beyond _ hread (by decide) hreached

theorem level_discard (limits : Limits) (t : Tree) :
    levelDiscipline.Obeys (discard (evaluate limits t)) :=
  levelDiscipline.obeys_bind (level_evaluate limits t) fun _ => levelDiscipline.obeys_pure ()

/-- Answering a line leaves the level as it was. -/
theorem level_respond (limits : Limits) (line : String) :
    levelDiscipline.Obeys (respond limits line) := by
  unfold respond
  split
  · exact levelDiscipline.obeys_pure ()
  · split
    · exact levelDiscipline.obeys_write trivial
    · rename_i t _
      intro m
      unfold evaluateReporting
      rw [ends_recover]
      refine (level_discard limits t m).mono (fun _ _ h => h) fun e m' he => ?_
      -- Of the failures, only a malformed tree is told.
      cases e with
      | malformed e => exact ends_write he he
      | _ => exact he

section texts

variable {limits' : Limits} (hrounds : limits'.rounds = limits.rounds) (hm : m.depth = 0)
  (hdepth : maxNesting ≤ limits.depth) (hdepth' : maxNesting ≤ limits'.depth)

include hrounds hm

/-- Without its value a tree does the same, too. -/
theorem discard_eq (h : t.height ≤ limits.depth) (h' : t.height ≤ limits'.depth) :
    discard (evaluate limits' t) m = discard (evaluate limits t) m :=
  bind_agrees (evaluate_eq hrounds (by omega) (by omega)) fun _ _ _ => rfl

/-- Trees that are evaluated one after the other end the same with every bound that none of
    them exceeds. -/
theorem runTrees_eq {trees : List Tree} (h : ∀ t ∈ trees, t.height ≤ limits.depth)
    (h' : ∀ t ∈ trees, t.height ≤ limits'.depth) :
    runTrees limits' trees m = runTrees limits trees m := by
  induction trees generalizing m with
  | nil => rfl
  | cons t trees ih =>
      have hfirst := discard_eq hrounds hm (h t List.mem_cons_self) (h' t List.mem_cons_self)
      refine bind_agrees hfirst fun _ m₁ hr => ?_
      -- The next tree starts at the level at which this one has started.
      have hm₁ : m₁.depth = 0 := ((level_discard limits t m).of_ok hr).trans hm
      exact ih hm₁ (fun u hu => h u (List.mem_cons_of_mem t hu))
        fun u hu => h' u (List.mem_cons_of_mem t hu)

include hdepth hdepth'

/-- A program does the same with every bound that is not less than that of the reader. -/
theorem runSource_eq (source : String) :
    runSource limits' source m = runSource limits source m := by
  unfold runSource
  cases hread : readTrees source with
  | error e => rfl
  | ok trees =>
      -- The reader counts rows as well, so what it lets through is not higher than its bound.
      have hle : ∀ t ∈ trees, t.height ≤ maxNesting := fun t ht =>
        Nat.le_trans t.height_le_nesting (nesting_le_of_readTrees hread t ht)
      have hsame := runTrees_eq hrounds hm (fun t ht => Nat.le_trans (hle t ht) hdepth)
        (fun t ht => Nat.le_trans (hle t ht) hdepth')
      simp only [EStateM.adaptExcept, hsame]

/-- A line holds a tree that has been read, or it is not evaluated at all. -/
theorem respond_eq (line : String) : respond limits' line m = respond limits line m := by
  unfold respond
  split
  · rfl
  · cases hread : readTree line with
    | error e => rfl
    | ok t =>
        -- A line that was read is within both allowances.
        have hle := height_le_of_readTree hread
        have hsame := discard_eq hrounds hm (Nat.le_trans hle hdepth) (Nat.le_trans hle hdepth')
        simp only [evaluateReporting, recover, hsame]

/-- Each line is answered at the level of the first one. -/
theorem answerLines_eq (n : Nat) : answerLines limits' n m = answerLines limits n m := by
  induction n generalizing m with
  | zero => rfl
  | succ n ih =>
      refine bind_agrees rfl fun _ m₁ hprompt => ?_
      -- The prompt and the line read leave the counter where it was.
      have hm₁ := ((levelDiscipline.obeys_write trivial m).of_ok hprompt).trans hm
      refine bind_agrees rfl fun line? m₂ hline => ?_
      have hm₂ := ((levelDiscipline.obeys_readLine trivial m₁).of_ok hline).trans hm₁
      cases line? with
      | none => rfl
      | some line =>
          refine bind_agrees (respond_eq hrounds hm₂ hdepth hdepth' line) fun _ m₃ hr => ?_
          exact ih (((level_respond limits line m₂).of_ok hr).trans hm₂)

/-- So does a session. -/
theorem session_eq : session limits' m = session limits m := by
  refine bind_agrees rfl fun _ m₁ hbanner => ?_
  have hm₁ := ((levelDiscipline.obeys_write trivial m).of_ok hbanner).trans hm
  exact bind_agrees rfl fun m₂ m₃ hget => by
    cases hget
    exact answerLines_eq hrounds hm₁ hdepth hdepth' _

end texts

end TreeScript
