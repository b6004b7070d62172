import TreeScript.Proofs.Splitting

/-!
# Nested Sequences

A sequence of statements that stands as a statement in another one can be spelled out there.
The inner sequence reports the faults of its statements itself, so it never has one of its
own, and the guard around it has nothing to do. What is left of it is the value: it folds what
its statements yield, and the outer sequence folds the result once more.

Folding twice is folding once, but for one case. A mark of a loop that is to be left comes
through both ways. The last value does unless the inner sequence is empty and the last
statement of the outer one: then it is the missing value of the empty sequence on one side,
and on the other side the value of whatever statement stands before it.

A loop only looks at whether its body yields the mark, so there the two are the same in all
cases, round by round.

## Main definitions

* `Agree`: Two ends on one machine, with one failure or with related values.
* `nestedStatements`, `flatStatements`: A sequence in a sequence, and the same in one row.
* `Flattens`: The value of the one and that of the other.
* `loopOf`: A loop with a given condition and body.

## Theorems

* `evalWithin_sequenceOf`: A sequence is its statements, each of them guarded.
* `foldResults_nested`, `foldResults_nested_iff`: Folding twice is folding once.
* `agree_nested`: A nested sequence and a flat one do the same.
* `rounds_agree`: Loops whose bodies agree on the mark do the same.
* `statements_can_be_flattened`: Sequences in sequences, alone and as the body of a loop.
-/

namespace TreeScript

/-- Two ends on one machine, with one failure or with values that are related. -/
inductive Agree {α β : Type} (S : α → β → Prop) :
    EStateM.Result Failure Machine α → EStateM.Result Failure Machine β → Prop where
  | ok {v : α} {w : β} (m : Machine) : S v w → Agree S (.ok v m) (.ok w m)
  | error (e : Failure) (m : Machine) : Agree S (.error e m) (.error e m)

variable {α β γ δ : Type} {a b : Action Value} {m : Machine} {limits : Limits} {n n' : Nat}
  {S : Value → Value → Prop}

/-- Agreement passes through a sequence, when what follows agrees on agreeing values. -/
theorem Agree.bind {a : Action α} {b : Action β} {f : α → Action γ} {g : β → Action δ}
    {S : α → β → Prop} {T : γ → δ → Prop} (h : Agree S (a m) (b m))
    (hf : ∀ v w m', S v w → Agree T (f v m') (g w m')) :
    Agree T ((a >>= f) m) ((b >>= g) m) := by
  simp only [Bind.bind, EStateM.bind]
  generalize a m = r at h ⊢
  generalize b m = r' at h ⊢
  cases h with
  | ok m' hvw => exact hf _ _ m' hvw
  | error e m' => exact .error e m'

/-- Actions that agree behind whatever one action yields agree behind that action. -/
theorem Agree.after {a : Action α} {f : α → Action γ} {g : α → Action δ} {T : γ → δ → Prop}
    (hf : ∀ v m', a m = .ok v m' → Agree T (f v m') (g v m')) :
    Agree T ((a >>= f) m) ((a >>= g) m) := by
  cases hr : a m with
  | ok v m' =>
      rw [bind_of_ok hr, bind_of_ok hr]
      exact hf v m' hr
  | error e m' =>
      rw [bind_of_error hr, bind_of_error hr]
      exact .error e m'

/-- Agreement up to a finer relation is agreement up to a coarser one. -/
theorem Agree.mono {S T : α → β → Prop} {r : EStateM.Result Failure Machine α}
    {r' : EStateM.Result Failure Machine β} (h : Agree S r r') (hST : ∀ v w, S v w → T v w) :
    Agree T r r' := by
  cases h with
  | ok m hvw => exact .ok m (hST _ _ hvw)
  | error e m => exact .error e m

theorem agree_self (r : EStateM.Result Failure Machine α) : Agree Eq r r := by
  cases r with
  | ok v m => exact .ok m rfl
  | error e m => exact .error e m

theorem Agree.eq {r r' : EStateM.Result Failure Machine α} (h : Agree Eq r r') : r = r' := by
  cases h with
  | ok m hvw => rw [hvw]
  | error e m => rfl

/-- A fault is reported on both sides, and there is no value on either. -/
theorem Agree.guarded (hS : S .absent .absent) (h : Agree S (a m) (b m)) :
    Agree S (TreeScript.guarded a m) (TreeScript.guarded b m) := by
  unfold TreeScript.guarded recover
  generalize a m = r at h ⊢
  generalize b m = r' at h ⊢
  cases h with
  | ok m' hvw => exact .ok m' hvw
  | error e m' =>
      cases e with
      -- Both sides report the same fault, and neither has a value after that.
      | fault f => exact Agree.after fun _ m'' _ => .ok m'' hS
      | _ => exact .error _ m'

/-- A sequence runs its statements and folds their values. -/
theorem evalWithin_sequenceOf (limits : Limits) (n : Nat) (statements : List Tree) :
    evalWithin limits (n + 1) (sequenceOf statements) =
      (runStatements limits n statements >>= fun vs => pure (foldResults vs)) := by
  have hrule : evalWithin limits (n + 1) (sequenceOf statements) =
      evalStatements (evalWithin limits n) (sequenceOf statements) := rfl
  rw [hrule, evalStatements, statementResults_eq]

/-- A statement is less high than the sequence. -/
theorem height_lt_sequenceOf {s : Tree} {statements : List Tree} (hs : s ∈ statements) :
    s.height < (sequenceOf statements).height := by
  have hrow : s.height ≤ Operand.heightEach (statements.map Tree.toOperand) :=
    Operand.height_le_of_mem (List.mem_map_of_mem (f := Tree.toOperand) hs)
  exact Nat.lt_succ_of_le (Nat.le_trans hrow (Nat.le_max_left _ _))

/-- The statements do not notice how much of the allowance is left, as long as they fit. -/
theorem runStatements_of_height_le {statements : List Tree} (h : ∀ s ∈ statements, s.height ≤ n)
    (h' : ∀ s ∈ statements, s.height ≤ n') :
    runStatements limits n statements = runStatements limits n' statements := by
  have hsame : List.Forall₂ (fun s s' => s = s' ∧ s ∈ statements) statements statements :=
    List.forall₂_same.mpr fun s hs => ⟨rfl, hs⟩
  refine mapM_congr_forall₂ hsame fun s s' hs => ?_
  rcases hs with ⟨rfl, hs⟩
  rw [evalWithin_of_height_le (h s hs) (h' s hs)]

/-- A sequence as the only statement is its statements, with their values folded. -/
theorem runStatements_sequenceOf {ys : List Tree} (h : (sequenceOf ys).height ≤ n) :
    runStatements limits n [sequenceOf ys] =
      (runStatements limits n ys >>= fun us => pure [foldResults us]) := by
  cases n with
  | zero => exact absurd h (Nat.not_succ_le_zero _)
  | succ n =>
      have hys : ∀ s ∈ ys, s.height ≤ n := fun s hs =>
        Nat.le_of_lt_succ (Nat.lt_of_lt_of_le (height_lt_sequenceOf hs) h)
      have hsame : runStatements limits n ys = runStatements limits (n + 1) ys :=
        runStatements_of_height_le hys fun s hs => Nat.le_succ_of_le (hys s hs)
      -- The statements have reported their faults, so that none is left for the guard.
      have hguard : guarded (evalWithin limits (n + 1) (sequenceOf ys)) =
          (runStatements limits (n + 1) ys >>= fun us => pure (foldResults us)) := by
        rw [evalWithin_sequenceOf, hsame]
        exact guarded_of_faultless
          (faultless_bind (faultless_runStatements limits _ ys) fun _ => faultless_pure _)
      rw [runStatements, List.mapM_cons, List.mapM_nil, hguard, bind_assoc]
      rfl

/-- A break mark among the values is the answer of the sequence. -/
theorem foldResults_eq_breakMark_iff {vs : List Value} :
    foldResults vs = .breakMark ↔ .breakMark ∈ vs :=
  ⟨mem_of_foldResults, foldResults_of_mem⟩

/-- The mark comes through, whether values are folded twice or once. -/
theorem foldResults_nested_iff (vs us ws : List Value) :
    foldResults (vs ++ [foldResults us] ++ ws) = .breakMark ↔
      foldResults (vs ++ us ++ ws) = .breakMark := by
  simp only [foldResults_eq_breakMark_iff, List.mem_append, List.mem_singleton,
    eq_comm (a := Value.breakMark), foldResults_eq_breakMark_iff]

/-- Without a break mark the answer is that of the last statement. -/
theorem foldResults_of_not_mem {vs : List Value} (h : .breakMark ∉ vs) :
    foldResults vs = vs.getLast?.getD .absent := by
  refine if_neg fun hany => ?_
  rcases List.any_eq_true.mp hany with ⟨v, hv, hb⟩
  rw [isBreak_iff.mp hb] at hv
  exact h hv

/-- So does the last value, if there is one in the inner sequence or behind it. -/
theorem foldResults_nested (vs : List Value) {us ws : List Value} (h : us ≠ [] ∨ ws ≠ []) :
    foldResults (vs ++ [foldResults us] ++ ws) = foldResults (vs ++ us ++ ws) := by
  by_cases hbreak : .breakMark ∈ vs ++ us ++ ws
  · rw [foldResults_of_mem hbreak]
    exact (foldResults_nested_iff vs us ws).mpr (foldResults_of_mem hbreak)
  · have hnested : .breakMark ∉ vs ++ [foldResults us] ++ ws := by
      rwa [← foldResults_eq_breakMark_iff, foldResults_nested_iff, foldResults_eq_breakMark_iff]
    have hus : foldResults us = us.getLast?.getD .absent :=
      foldResults_of_not_mem fun hu => hbreak (by simp [hu])
    rw [foldResults_of_not_mem hbreak, foldResults_of_not_mem hnested, hus]
    -- Either the last value stands behind the inner sequence, or it is the last one in it.
    cases hws : ws.getLast? with
    | some w => simp only [List.getLast?_append, hws, Option.some_or]
    | none =>
        cases hlast : us.getLast? with
        | some u =>
            simp only [List.getLast?_append, hws, hlast, List.getLast?_singleton, Option.none_or,
              Option.some_or, Option.getD_some]
        | none =>
            rcases h with h | h
            · exact absurd (List.getLast?_eq_none_iff.mp hlast) h
            · exact absurd (List.getLast?_eq_none_iff.mp hws) h

/-- A sequence of statements with another sequence as one of its statements. -/
def nestedStatements (xs ys zs : List Tree) : Tree := sequenceOf (xs ++ [sequenceOf ys] ++ zs)

/-- The same statements in one row. -/
def flatStatements (xs ys zs : List Tree) : Tree := sequenceOf (xs ++ ys ++ zs)

/-- What a nested sequence yields, and what a flat one does: both or neither yield the mark of
    a loop that is to be left, and they yield the same unless there are no statements in the
    inner sequence and none behind it. -/
structure Flattens (ys zs : List Tree) (v w : Value) : Prop where
  mark : v = .breakMark ↔ w = .breakMark
  value : ys ≠ [] ∨ zs ≠ [] → v = w

variable {xs ys zs : List Tree}

theorem flattens_self (v : Value) : Flattens ys zs v v := ⟨Iff.rfl, fun _ => rfl⟩

/-- The values of the statements, folded twice on one side and once on the other. -/
theorem flattens_foldResults {vs us ws : List Value} (hus : us.length = ys.length)
    (hws : ws.length = zs.length) :
    Flattens ys zs (foldResults (vs ++ [foldResults us] ++ ws)) (foldResults (vs ++ us ++ ws)) where
  mark := foldResults_nested_iff vs us ws
  value h := by
    simp only [← List.length_pos_iff, ← hus, ← hws] at h
    exact foldResults_nested vs (by simpa only [List.length_pos_iff] using h)

/-- The flat sequence runs the three parts in order and folds all their values at once. -/
theorem evalWithin_flat (limits : Limits) (n : Nat) (xs ys zs : List Tree) :
    evalWithin limits (n + 1) (flatStatements xs ys zs) = (do
      let vs ← runStatements limits n xs
      let us ← runStatements limits n ys
      let ws ← runStatements limits n zs
      pure (foldResults (vs ++ us ++ ws))) := by
  rw [flatStatements, evalWithin_sequenceOf, runStatements_append, runStatements_append]
  simp only [bind_assoc, pure_bind]

/-- The nested one folds the middle part first and hands on the one value that comes of it. -/
theorem evalWithin_nested (h : (sequenceOf ys).height ≤ n) :
    evalWithin limits (n + 1) (nestedStatements xs ys zs) = (do
      let vs ← runStatements limits n xs
      let us ← runStatements limits n ys
      let ws ← runStatements limits n zs
      pure (foldResults (vs ++ [foldResults us] ++ ws))) := by
  rw [nestedStatements, evalWithin_sequenceOf, runStatements_append, runStatements_append,
    runStatements_sequenceOf h]
  simp only [bind_assoc, pure_bind]

/-- A nested sequence and a flat one do the same, if the nested one is not higher than the
    allowance. -/
theorem agree_nested (limits : Limits) (h : (nestedStatements xs ys zs).height ≤ n) (m : Machine) :
    Agree (Flattens ys zs) (evalWithin limits n (nestedStatements xs ys zs) m)
      (evalWithin limits n (flatStatements xs ys zs) m) := by
  cases n with
  | zero => exact absurd h (Nat.not_succ_le_zero _)
  | succ n =>
      have hinner : (sequenceOf ys).height ≤ n :=
        Nat.le_of_lt_succ (Nat.lt_of_lt_of_le (height_lt_sequenceOf (by simp)) h)
      rw [evalWithin_nested hinner, evalWithin_flat]
      -- Both run the same statements on the same machines, and only fold in different ways.
      refine Agree.after fun vs m₁ _ => Agree.after fun us m₂ hus => Agree.after fun ws m₃ hws => ?_
      exact .ok m₃ (flattens_foldResults (length_of_mapM_ok hus) (length_of_mapM_ok hws))

/-- A loop with the given condition and body. -/
def loopOf (test : Operand) (body : Tree) : Tree := ⟨"while", [test, body.toOperand]⟩

/-- The rounds of two loops are the same if their bodies do the same and agree on whether they
    leave the loop. -/
theorem rounds_agree {eval : Evaluator} {test body body' : Tree}
    (hbody : ∀ m, Agree (fun v w => v = .breakMark ↔ w = .breakMark) (guarded (eval body) m)
      (guarded (eval body') m)) (k : Nat) :
    rounds eval test body k = rounds eval test body' k := by
  induction k with
  | zero => rfl
  | succ k ih =>
      unfold rounds
      refine bind_congr fun holds => ?_
      split
      · funext m
        refine Agree.eq ((hbody m).bind fun v w m' hvw => ?_)
        -- Behind a round that does not leave the loop there are the same rounds to come.
        have hsame : v.isBreak = true ↔ w.isBreak = true := by
          rw [isBreak_iff, isBreak_iff, hvw]
        simp only [hsame, ih]
        exact agree_self _
      · rfl

/-- What is evaluated of a loop, if its first operand is a tree. -/
theorem evalLoop_loopOf (eval : Evaluator) (allowed : Nat) (test : Operand) (body : Tree) :
    evalLoop eval allowed (loopOf test body) =
      (liftM ((loopOf test body).child 0) >>= fun c => rounds eval c body allowed) := by
  have harity : (loopOf test body).expectArity 2 = .ok () := rfl
  have hbody : (loopOf test body).child 1 = .ok body := rfl
  rw [evalLoop, bind_of_shape harity]
  simp only [bind_of_shape hbody]

/-- A loop does not change if the sequence that is its body is flattened, even where that
    changes the value of the body. -/
theorem evalWithin_loopOf_nested (h : (nestedStatements xs ys zs).height < n) (test : Operand) :
    evalWithin limits n (loopOf test (nestedStatements xs ys zs)) =
      evalWithin limits n (loopOf test (flatStatements xs ys zs)) := by
  cases n with
  | zero => exact absurd h (Nat.not_lt_zero _)
  | succ n =>
      have hrule : ∀ body, evalWithin limits (n + 1) (loopOf test body) =
          evalLoop (evalWithin limits n) limits.rounds (loopOf test body) := fun _ => rfl
      rw [hrule, hrule, evalLoop_loopOf, evalLoop_loopOf]
      -- The condition comes from the loop without its body, so it is the same one.
      refine bind_congr fun c => rounds_agree (fun m => ?_) limits.rounds
      have hbody := agree_nested limits (Nat.le_of_lt_succ h) m
      exact (hbody.guarded (flattens_self .absent)).mono fun _ _ hvw => hvw.mark

/-- On a machine with as many levels left as the nested sequence is high, it is within the
    allowance. -/
theorem agree_evalTree {m : Machine}
    (h : m.depth + (nestedStatements xs ys zs).height ≤ limits.depth) :
    Agree (Flattens ys zs) (evalTree limits (nestedStatements xs ys zs) m)
      (evalTree limits (flatStatements xs ys zs) m) := by
  rw [evalTree_eq_evalWithin, evalTree_eq_evalWithin]
  exact agree_nested limits (by omega) m

/-- A loop asks of its body whether it broke off, and the two bodies agree on that. -/
theorem evalTree_loopOf_nested {m : Machine}
    (h : m.depth + (nestedStatements xs ys zs).height < limits.depth) (test : Operand) :
    evalTree limits (loopOf test (nestedStatements xs ys zs)) m =
      evalTree limits (loopOf test (flatStatements xs ys zs)) m :=
  evalTree_eq_of_evalWithin (evalWithin_loopOf_nested (by omega) test)

/-- A sequence of statements with a sequence as one of its statements can be replaced by one
    row of statements, if the nested sequence is not higher than the levels that are left. On
    every machine the two leave the same machine, and fail alike or yield alike:
    the same value unless there are no statements in the inner sequence and none behind it,
    and the mark of a loop that is to be left in no other case than the other one does. As
    bodies of loops with the same condition, whatever that is, the two do the same. -/
theorem statements_can_be_flattened (limits : Limits) (xs ys zs : List Tree) :
    (∀ m, m.depth + (nestedStatements xs ys zs).height ≤ limits.depth →
      Agree (Flattens ys zs) (evalTree limits (nestedStatements xs ys zs) m)
        (evalTree limits (flatStatements xs ys zs) m)) ∧
    (∀ m, m.depth + (nestedStatements xs ys zs).height ≤ limits.depth →
      Agree (Flattens ys zs) (evaluate limits (nestedStatements xs ys zs) m)
        (evaluate limits (flatStatements xs ys zs) m)) ∧
    (∀ test m, m.depth + (nestedStatements xs ys zs).height < limits.depth →
      evalTree limits (loopOf test (nestedStatements xs ys zs)) m =
        evalTree limits (loopOf test (flatStatements xs ys zs)) m) ∧
    ∀ test m, m.depth + (nestedStatements xs ys zs).height < limits.depth →
      evaluate limits (loopOf test (nestedStatements xs ys zs)) m =
        evaluate limits (loopOf test (flatStatements xs ys zs)) m := by
  -- Each pair of statements is one about the tree, and the same behind a guard.
  refine ⟨fun m h => agree_evalTree h, fun m h => ?_,
    fun test m h => evalTree_loopOf_nested h test, fun test m h => ?_⟩
  · exact (agree_evalTree h).guarded (flattens_self .absent)
  · exact guarded_eq (evalTree_loopOf_nested h test)

/-- A statement that leaves a loop, and one that has a fault. -/
def leaveAndFault : List Tree := [⟨"break", []⟩, ⟨"name", [.token "x"]⟩]

/-- A statement that writes something. -/
def printA : Tree := ⟨"print", [.tree "string" [.token "a"]]⟩

/-- The machine on which a fault has been reported, and then something written. -/
def machineBehindPrint : Machine :=
  ⟨.empty, .empty, [], ⟨"as says: x hasn't been defined!\na\n".toUTF8, none⟩, 0⟩

/-- The inner sequence leaves the loop and has a fault, and the statement behind it is run once.
    With nothing in the inner sequence and nothing behind it, the values differ. -/
theorem statements_can_be_flattened_leave :
    (nestedStatements [] leaveAndFault [printA]).height < 5 ∧
      evaluate ⟨5, 2⟩ (loopOf always.toOperand (nestedStatements [] leaveAndFault [printA]))
        (.start [] none) = .ok .absent machineBehindPrint ∧
      Agree (Flattens leaveAndFault [printA])
        (evaluate ⟨4, 2⟩ (nestedStatements [] leaveAndFault [printA]) (.start [] none))
        (.ok .breakMark machineBehindPrint) ∧
      evaluate ⟨4, 2⟩ (nestedStatements [always] [] []) (.start [] none) =
        .ok .absent (.start [] none) ∧
      evaluate ⟨4, 2⟩ (flatStatements [always] [] []) (.start [] none) =
        .ok (.int 1) (.start [] none) := by
  have hheight : (nestedStatements [] leaveAndFault [printA]).height < 5 := by decide
  have hflat : evaluate ⟨4, 2⟩ (flatStatements [] leaveAndFault [printA]) (.start [] none) =
      .ok .breakMark machineBehindPrint := rfl
  have hloop : evaluate ⟨5, 2⟩ (loopOf always.toOperand (flatStatements [] leaveAndFault [printA]))
      (.start [] none) = .ok .absent machineBehindPrint := rfl
  refine ⟨hheight, ?_, ?_, rfl, rfl⟩
  · rw [← hloop]
    have hfits : (Machine.start [] none).depth +
        (nestedStatements [] leaveAndFault [printA]).height < 5 := by decide
    exact (statements_can_be_flattened ⟨5, 2⟩ [] leaveAndFault [printA]).2.2.2 _ _ hfits
  · -- As statements the two leave the same machine, and both values are the mark.
    rw [← hflat]
    have hfits : (Machine.start [] none).depth +
        (nestedStatements [] leaveAndFault [printA]).height ≤ 4 := by decide
    exact (statements_can_be_flattened ⟨4, 2⟩ [] leaveAndFault [printA]).2.1 _ hfits

end TreeScript
