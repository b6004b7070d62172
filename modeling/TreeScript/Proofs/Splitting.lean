import TreeScript.Proofs.Allowance
import TreeScript.Proofs.Leaving
import TreeScript.Proofs.LineBreaks

/-!
# Programs in Two Parts

A program that is put together of two does what they do one after the other. Between two
statements there is nothing but the machine: each of them is guarded, a mark that one
yields is dropped at the end of the program, and the next one finds the same levels left.
The second part is run wherever the first one does not end the program, so it makes no
difference whether it is behind the first one in one program or is a program of its own.

Nothing has to be said about what the parts do or how they end. Of the machine only the
level matters: two levels have to be left for the statements of a program, and the first
part leaves as many as it has found. A text is read before anything of it is run, so for
texts there is no such condition, and both sides are the same action.

`evaluate_programOf` is where the tree of a program goes away: what is left of it is a
list of guarded actions, and lists are put together by their library lemma. That a
statement cannot fail by a fault matters only for the values that a sequence collects, and
these are dropped with the mark.

## Main definitions

* `sequenceOf`, `programOf`: The sequence and the program with the given statements.

## Theorems

* `evaluate_programOf`: A program is its statements, each of them guarded.
* `runSource_append`: A text in two parts that can be read.
* `programs_can_be_split`: Programs and texts in two parts.
* `faultless_runStatements`: Guarded statements have no faults.
* `runStatements_append`: Statements in two parts, one part after the other.
* `evaluate_programOf_append`: A program in two parts, on a machine with levels left.
* `runTrees_append`: Rows of trees in two parts.
-/

namespace TreeScript

variable {α β : Type}

/-- The given trees as one sequence of statements. -/
def sequenceOf (statements : List Tree) : Tree :=
  ⟨"statements", [.seq (statements.map Tree.toOperand)]⟩

/-- The program with the given statements. -/
def programOf (statements : List Tree) : Tree := ⟨"main", [(sequenceOf statements).toOperand]⟩

/-- A guard does nothing where there are no faults. -/
theorem guarded_of_faultless {a : Action Value} (ha : Faultless a) : guarded a = a := by
  funext m
  cases hr : a m with
  | ok v m' => exact guarded_of_ok hr
  | error e m' => exact guarded_of_failure hr ((ha m).of_error hr)

/-- The statements of a program, each with what is left of the allowance. -/
def runStatements (limits : Limits) (n : Nat) (statements : List Tree) : Action (List Value) :=
  statements.mapM fun s => guarded (evalWithin limits n s)

theorem faultless_runStatements (limits : Limits) (n : Nat) (statements : List Tree) :
    Faultless (runStatements limits n statements) :=
  faultless_mapM (fun _ => faultless_guarded _) statements

/-- The results of a sequence are those of its statements, run one below it. -/
theorem statementResults_eq (limits : Limits) (n : Nat) (statements : List Tree) :
    statementResults (evalWithin limits n) (sequenceOf statements) =
      runStatements limits n statements := by
  have harity : (sequenceOf statements).expectArity 1 = .ok () := rfl
  have htrees : (sequenceOf statements).children 0 = .ok statements := children_eq rfl
  rw [statementResults, bind_of_shape harity, bind_of_shape htrees]
  rfl

theorem discard_bind (a : Action α) (f : Unit → Action β) :
    (discard a >>= f) = (a >>= fun _ => f ()) := by
  funext m
  cases hr : a m with
  | ok v m' =>
      have hdiscard : discard a m = .ok () m' := bind_of_ok hr
      rw [bind_of_ok hr, bind_of_ok hdiscard]
  | error e m' =>
      have hdiscard : discard a m = .error e m' := bind_of_error hr
      rw [bind_of_error hr, bind_of_error hdiscard]

/-- A program runs its statements and forgets their values. -/
theorem evalWithin_programOf (limits : Limits) (n : Nat) (statements : List Tree) :
    evalWithin limits (n + 2) (programOf statements) =
      (runStatements limits n statements >>= fun _ => pure .absent) := by
  have hmain : evalWithin limits (n + 2) (programOf statements) =
      (discard (evalStatements (evalWithin limits n) (sequenceOf statements)) >>=
        fun _ => pure .absent) := rfl
  -- The value of the statements is dropped, so that a mark in it leaves nothing.
  rw [hmain, discard_bind, evalStatements, statementResults_eq, bind_assoc]
  rfl

/-- A program is its statements, each of them guarded, if it may be nested as deep as they
    are in it. -/
theorem evaluate_programOf {limits : Limits} {m : Machine} (hdepth : m.depth + 2 ≤ limits.depth)
    (statements : List Tree) : evaluate limits (programOf statements) m =
      (runStatements limits (limits.depth - m.depth - 2) statements >>=
        fun _ => pure .absent) m := by
  have hlevels : limits.depth - m.depth = limits.depth - m.depth - 2 + 2 := by omega
  have hwithin : evalTree limits (programOf statements) m =
      (runStatements limits (limits.depth - m.depth - 2) statements >>=
        fun _ => pure .absent) m := by
    rw [evalTree_eq_evalWithin, ← evalWithin_programOf, ← hlevels]
  -- Every statement is guarded, so no fault is left for the guard outside.
  have hfaultless : Faultless (runStatements limits (limits.depth - m.depth - 2) statements >>=
      fun _ => pure Value.absent) :=
    faultless_bind (faultless_runStatements limits _ statements) fun _ => faultless_pure _
  exact (guarded_eq hwithin).trans (congrFun (guarded_of_faultless hfaultless) m)

/-- Two lists of statements in a row: the second one is not run when the first one fails. -/
theorem runStatements_append (limits : Limits) (n : Nat) (xs ys : List Tree) :
    runStatements limits n (xs ++ ys) = (do
      let vs ← runStatements limits n xs
      let ws ← runStatements limits n ys
      pure (vs ++ ws)) := List.mapM_append

/-- The statements of two programs in a row are those of the first one and then, on the level
    where it has started, those of the second one. -/
theorem evaluate_programOf_append {limits : Limits} {m : Machine}
    (hdepth : m.depth + 2 ≤ limits.depth) (xs ys : List Tree) :
    evaluate limits (programOf (xs ++ ys)) m =
      (evaluate limits (programOf xs) >>= fun _ => evaluate limits (programOf ys)) m := by
  have hparts : (evaluate limits (programOf xs) >>= fun _ => evaluate limits (programOf ys)) m =
      ((runStatements limits (limits.depth - m.depth - 2) xs >>= fun _ => pure Value.absent) >>=
        fun _ => runStatements limits (limits.depth - m.depth - 2) ys >>=
          fun _ => pure Value.absent) m := by
    refine bind_agrees (evaluate_programOf hdepth xs) fun v m₁ hr => ?_
    have hr' := (evaluate_programOf hdepth xs).trans hr
    -- The first part puts the level back, so the second one has as much left.
    have hlevel : m₁.depth = m.depth := (level_evaluate limits _ m).of_ok hr'
    rw [← hlevel] at hdepth ⊢
    exact evaluate_programOf hdepth ys
  rw [hparts, evaluate_programOf hdepth, runStatements_append]
  simp only [bind_assoc, pure_bind]

theorem runTrees_append (limits : Limits) (trees more : List Tree) :
    runTrees limits (trees ++ more) = (do
      runTrees limits trees
      runTrees limits more) := List.forM_append

theorem adaptExcept_of_ok {ε : Type} {rename : Failure → ε} {a : Action α} {m m' : Machine} {v : α}
    (h : a m = .ok v m') : a.adaptExcept rename m = .ok v m' := by
  simp only [EStateM.adaptExcept, h]

/-- A failure of either of two actions is the same under another name. -/
theorem adaptExcept_bind {ε : Type} (rename : Failure → ε) (a : Action α) (f : α → Action β) :
    (a >>= f).adaptExcept rename =
      (a.adaptExcept rename >>= fun v => (f v).adaptExcept rename) := by
  funext m
  simp only [EStateM.adaptExcept, bind, EStateM.bind]
  cases a m <;> rfl

theorem runSource_of_ok {source : String} {trees : List Tree} (h : readTrees source = .ok trees)
    (limits : Limits) : runSource limits source = (runTrees limits trees).adaptExcept .failed := by
  simp only [runSource, h]

/-- A text in two parts that can be read is run part by part. -/
theorem runSource_append (limits : Limits) {source rest : String} {trees more : List Tree}
    (h : readTrees source = .ok trees) (h' : readTrees rest = .ok more) :
    runSource limits (source ++ "\n" ++ rest) = (do
      runSource limits source
      runSource limits rest) := by
  rw [runSource_of_ok (readTrees_append_lineBreak h h'), runTrees_append, adaptExcept_bind,
    runSource_of_ok h, runSource_of_ok h']

/-- A program with the statements of two is the first of them and then, unless that fails,
    the second one, if two levels are left for it; so are two texts that can be read, with a
    line break between them, whatever the bound is. A text that cannot be read fails on the
    machine as it was. -/
theorem programs_can_be_split (limits : Limits) :
    (∀ xs ys m, m.depth + 2 ≤ limits.depth → evaluate limits (programOf (xs ++ ys)) m = (do
      let _ ← evaluate limits (programOf xs)
      evaluate limits (programOf ys)) m) ∧
    (∀ source rest trees more, readTrees source = .ok trees → readTrees rest = .ok more →
      runSource limits (source ++ "\n" ++ rest) = (do
        runSource limits source
        runSource limits rest)) ∧
    ∀ source e m, readTrees source = .error e →
      runSource limits source m = .error (.unreadable e) m := by
  refine ⟨fun xs ys m hdepth => evaluate_programOf_append hdepth xs ys,
    fun _ _ _ _ h h' => runSource_append limits h h', ?_⟩
  intro source e m h
  simp only [runSource, h]
  rfl

/-- A statement that leaves a loop, and one that gives a name a value. -/
def leaveAndBind : List Tree :=
  [⟨"break", []⟩, ⟨"assign", [.token "x", .tree "string" [.token "y"]]⟩]

/-- A statement that writes the value of the name, and one that has a fault. -/
def printAndFault : List Tree :=
  [⟨"print", [.tree "name" [.token "x"]]⟩, ⟨"name", [.token "z"]⟩]

/-- The machine behind the first part. -/
def machineBehindBinding : Machine := ⟨⟨[("x", .text "y")]⟩, .empty, [], .empty none, 0⟩

/-- The machine behind both parts. -/
def machineBehindParts : Machine :=
  ⟨⟨[("x", .text "y")]⟩, .empty, [], ⟨"y\nas says: z hasn't been defined!\n".toUTF8, none⟩, 0⟩

/-- The mark that the first part yields is gone when the second one uses what the first one
    has bound. A comment ends where one text goes over into the other. -/
theorem programs_can_be_split_seam :
    evaluate ⟨4, 8⟩ (programOf leaveAndBind) (.start [] none) =
      .ok .absent machineBehindBinding ∧
    evaluate ⟨4, 8⟩ (programOf (leaveAndBind ++ printAndFault)) (.start [] none) =
      .ok .absent machineBehindParts ∧
    (∃ m', (runSource ⟨4, 8⟩ "(print (string a)) ; (pass)" >>= fun _ =>
      runSource ⟨4, 8⟩ "(print (string b))") (.start [] none) = .ok () m' ∧
        m'.output.written = "a\nb\n".toUTF8) ∧
    runSource ⟨4, 8⟩ "(print (string a)) (pass" (.start [] none) =
      .error (.unreadable (.unexpectedEnd 1)) (.start [] none) := by
  have hprograms := (programs_can_be_split ⟨4, 8⟩).1 leaveAndBind printAndFault (.start [] none)
    (by decide)
  have hfirst : evaluate ⟨4, 8⟩ (programOf leaveAndBind) (.start [] none) =
      .ok .absent machineBehindBinding := rfl
  -- The second part begins on the machine the first one leaves, and needs what was bound there.
  have hsecond : evaluate ⟨4, 8⟩ (programOf printAndFault) machineBehindBinding =
      .ok .absent machineBehindParts := rfl
  have hread : readTrees "(print (string a)) ; (pass)" =
      .ok [⟨"print", [.tree "string" [.token "a"]]⟩] := rfl
  have hread' : readTrees "(print (string b))" = .ok [⟨"print", [.tree "string" [.token "b"]]⟩] :=
    rfl
  have htexts := (programs_can_be_split ⟨4, 8⟩).2.1 _ _ _ _ hread hread'
  have hjoined := runSource_of_ok (readTrees_append_lineBreak hread hread') ⟨4, 8⟩
  have hrun : runTrees ⟨4, 8⟩ [⟨"print", [.tree "string" [.token "a"]]⟩,
      ⟨"print", [.tree "string" [.token "b"]]⟩] (.start [] none) =
        .ok () ⟨.empty, .empty, [], ⟨"a\nb\n".toUTF8, none⟩, 0⟩ := rfl
  refine ⟨hfirst, hprograms.trans ((bind_of_ok hfirst).trans hsecond),
    ⟨⟨.empty, .empty, [], ⟨"a\nb\n".toUTF8, none⟩, 0⟩, ?_, rfl⟩,
    (programs_can_be_split ⟨4, 8⟩).2.2 _ _ _ rfl⟩
  rw [← htexts, hjoined]
  exact adaptExcept_of_ok hrun

end TreeScript
