import TreeScript.Proofs.Calls

/-!
# Evaluators That Agree on Calls

A rule knows the evaluator that it is given only by what it calls for. So it does the same
with any other evaluator that agrees with the first one on every call, tree and machine
taken together: that is `evalForm_congr`. Nothing is asked of the other evaluator
anywhere else, and in particular not on other machines. This is what distinguishes it from
a comparison of trees that are evaluated alike on all machines, and it is also the proof
that the calls of `Calls` are all that there are.

The proof follows the rules, with a lemma for each of them. Behind the first call, where
the evaluators agree, the machine is the same in both runs, so the next call is one of
the first evaluator and they agree on it as well. In a loop the calls are found behind
any number of rounds, and the induction is on the rounds that are left.

One thing that is known of the machine at a call is its level. Evaluation takes back every
level that it enters, however it ends, and so all calls of a form are made at one level,
that of the form itself.

## Main definitions

* `AgreeOnCalls`: Two evaluators that agree on what a form calls for.
* `levelDiscipline`: The actions that leave the level as it was.

## Theorems

* `bind_agrees`, `mapM_agrees`, `rounds_agrees`: Actions in a row that agree.
* `evalForm_congr`: A form depends on what it calls for and on nothing else.
* `level_evalTree`: Evaluation leaves the level as it was, however it ends.
* `Calls.depth_eq`: Calls are made at the level of the form.
-/

namespace TreeScript

variable {α β : Type} {eval eval' : Evaluator} {allowed : Nat} {t c : Tree}
  {m m₁ m₂ m' : Machine} {form : Form} {s : Step} {k : Nat}

/-- What goes on alike behind an action that does the same goes on alike, on the machine and
    with the value that the action leaves. -/
theorem bind_agrees {a a' : Action α} {f f' : α → Action β} (ha : a' m = a m)
    (hf : ∀ v m₁, a m = .ok v m₁ → f' v m₁ = f v m₁) : (a' >>= f') m = (a >>= f) m := by
  cases hr : a m with
  | ok v m₁ =>
      rw [hr] at ha
      rw [bind_of_ok hr, bind_of_ok ha, hf v m₁ hr]
  | error e m₁ =>
      rw [hr] at ha
      rw [bind_of_error hr, bind_of_error ha]

/-- The same behind a check of the shape of a tree. -/
theorem shape_agrees {x : Except ShapeError α} {f f' : α → Action β}
    (hf : ∀ v, x = .ok v → f' v m = f v m) : (liftM x >>= f') m = (liftM x >>= f) m := by
  cases hx : x with
  | ok v => exact hf v hx
  | error e => rfl

/-- And behind a check of sizes. -/
theorem size_agrees {x : Except Panic α} {f f' : α → Action β}
    (hf : ∀ v, x = .ok v → f' v m = f v m) : (liftM x >>= f') m = (liftM x >>= f) m := by
  cases hx : x with
  | ok v => exact hf v hx
  | error p => rfl

/-- A guard only looks at how the action ends. -/
theorem guarded_agrees {a a' : Action Value} (ha : a' m = a m) : guarded a' m = guarded a m := by
  unfold guarded recover
  rw [ha]

/-- Two actions for the elements of a list do the same if they do so for each element, behind
    those before it. -/
theorem mapM_agrees {f f' : α → Action β} {as : List α}
    (h : ∀ j a vs m₁, as[j]? = some a → (as.take j).mapM f m = .ok vs m₁ → f' a m₁ = f a m₁) :
    as.mapM f' m = as.mapM f m := by
  induction as generalizing m with
  | nil => rfl
  | cons a as ih =>
      rw [List.mapM_cons, List.mapM_cons]
      refine bind_agrees (h 0 a [] m rfl rfl) fun v m₁ hv => bind_agrees (ih ?_) fun _ _ _ => rfl
      intro j b vs m₂ hb hvs
      refine h (j + 1) b (v :: vs) m₂ hb ?_
      rw [List.take_succ_cons, List.mapM_cons, bind_of_ok hv, bind_of_ok hvs]
      rfl

/-- So does the evaluation of an operand, which looks at its value. -/
theorem operand_agrees (hc : eval' c m = eval c m) : eval'.operand c m = eval.operand c m :=
  bind_agrees hc fun _ _ _ => rfl

theorem present_agrees (hc : eval' c m = eval c m) : eval'.present c m = eval.present c m :=
  bind_agrees (operand_agrees hc) fun _ _ _ => rfl

/-- A condition is guarded, and agrees where what it guards does. -/
theorem condition_agrees (hc : eval' c m = eval c m) : eval'.condition c m = eval.condition c m :=
  bind_agrees (guarded_agrees hc) fun _ _ _ => rfl

/-- Operands in order agree if each of them does on the machine that those before it have left. -/
theorem inOrder_agrees {first count : Nat}
    (h : ∀ i c vs m₁, i < count → eval.inOrder t first i m = .ok vs m₁ →
      t.child (first + i) = .ok c → eval' c m₁ = eval c m₁) :
    eval'.inOrder t first count m = eval.inOrder t first count m := by
  refine mapM_agrees fun j i vs m₁ hi hvs => shape_agrees fun c hc => ?_
  rcases List.getElem?_eq_some_iff.mp hi with ⟨hlt, hget⟩
  rw [List.length_range] at hlt
  rw [List.getElem_range] at hget
  subst hget
  rw [List.take_range, Nat.min_eq_left (Nat.le_of_lt hlt)] at hvs
  exact h j c vs m₁ hlt hvs hc

/-- Sizes are checked before anything is evaluated. -/
theorem children_agrees {first count : Nat}
    (h : ∀ i c vs m₁, count ≤ maxRoom → first + count ≤ maxSize → i < count →
      eval.inOrder t first i m = .ok vs m₁ → t.child (first + i) = .ok c → eval' c m₁ = eval c m₁) :
    eval'.children t first count m = eval.children t first count m := by
  refine size_agrees fun _ hroom => size_agrees fun last hlast => ?_
  rcases addSizes_eq_ok_iff.mp hlast with ⟨hsum, rfl⟩
  rw [Nat.add_sub_cancel_left]
  exact inOrder_agrees fun i c vs m₁ => h i c vs m₁ (reserve_eq_ok_iff.mp hroom) hsum

/-- A loop does the same if its condition and its body do, in every round that it comes to. -/
theorem rounds_agrees {test body : Tree} {n : Nat}
    (htest : ∀ k m₁, k < n → Rounds eval test body YieldsBreak k m m₁ →
      eval' test m₁ = eval test m₁)
    (hbody : ∀ k m₁ m₂, k < n → Rounds eval test body YieldsBreak k m m₁ →
      eval.condition test m₁ = .ok true m₂ → eval' body m₂ = eval body m₂) :
    rounds eval' test body n m = rounds eval test body n m := by
  induction n generalizing m with
  | zero => rfl
  | succ n ih =>
      unfold rounds
      have hcondition := condition_agrees (htest 0 m (Nat.succ_pos n) (.none m))
      refine bind_agrees hcondition fun holds m₁ hholds => ?_
      cases holds with
      | false => rfl
      | true =>
          have hb := hbody 0 m m₁ (Nat.succ_pos n) (.none m) hholds
          refine bind_agrees (guarded_agrees hb) fun v m₂ hv => ?_
          by_cases hbreak : v.isBreak = true
          · rw [if_pos hbreak, if_pos hbreak]
          · rw [if_neg hbreak, if_neg hbreak]
            -- The rounds that are left come behind this one.
            have hmore : ¬ YieldsBreak m₁ v := fun hy => hbreak (isBreak_iff.mpr hy)
            refine ih (fun k m' hk h => ?_) fun k m' m'' hk h => ?_
            · exact htest (k + 1) m' (Nat.succ_lt_succ hk) (.more hholds hv hmore h)
            · exact hbody (k + 1) m' m'' (Nat.succ_lt_succ hk) (.more hholds hv hmore h)

/-- Two evaluators agree on what a form of a tree on a machine calls for. -/
def AgreeOnCalls (eval' eval : Evaluator) (allowed : Nat) (t : Tree) (m : Machine)
    (form : Form) : Prop :=
  ∀ s c m₁, Calls eval allowed t m form s c m₁ → eval' c m₁ = eval c m₁

/-- Evaluators that agree on the calls of a form around one tree agree on that tree. -/
theorem AgreeOnCalls.only (h : AgreeOnCalls eval' eval allowed t m form)
    (hw : form.wraps = true) (harity : t.expectArity 1 = .ok ()) (hc : t.child 0 = .ok c) :
    eval' c m = eval c m :=
  h _ _ _ (.only hw harity hc)

/-- A form around one tree has one call. -/
theorem wrapped_agrees (h : AgreeOnCalls eval' eval allowed t m form) (hw : form.wraps = true) :
    evalWrapped eval' t m = evalWrapped eval t m :=
  shape_agrees fun _ harity => shape_agrees fun _ hc => h.only hw harity hc

theorem main_agrees (h : AgreeOnCalls eval' eval allowed t m .main) :
    evalMain eval' t m = evalMain eval t m := by
  refine shape_agrees fun _ harity => shape_agrees fun c hc => ?_
  exact bind_agrees (bind_agrees (h.only rfl harity hc) fun _ _ _ => rfl) fun _ _ _ => rfl

/-- A statement is called for behind those before it, however they have ended. -/
theorem statements_agrees (h : AgreeOnCalls eval' eval allowed t m .statements) :
    evalStatements eval' t m = evalStatements eval t m := by
  refine bind_agrees ?_ fun _ _ _ => rfl
  refine shape_agrees fun _ harity => shape_agrees fun trees htrees => ?_
  exact mapM_agrees fun j c vs m₁ hj hvs => guarded_agrees
    (h _ _ _ (.statement harity htrees hvs hj))

/-- The elements of a list are called for in order, and making the array calls for nothing. -/
theorem list_agrees (h : AgreeOnCalls eval' eval allowed t m .list) :
    evalList eval' t m = evalList eval t m := by
  refine shape_agrees fun _ harity => shape_agrees fun trees htrees => ?_
  refine bind_agrees (mapM_agrees fun j c vs m₁ hj hvs => ?_) fun _ _ _ => rfl
  exact present_agrees (h _ _ _ (.element harity htrees hvs hj))

/-- The second operand is called for when the first one has had a value. -/
theorem index_agrees (h : AgreeOnCalls eval' eval allowed t m .index) :
    evalIndex eval' t m = evalIndex eval t m := by
  refine shape_agrees fun _ harity => shape_agrees fun a ha => ?_
  have hleft := operand_agrees (h _ _ _ (.left (.inl rfl) harity ha))
  refine bind_agrees hleft fun v m₁ hv => shape_agrees fun b hb => ?_
  have hright := operand_agrees (h _ _ _ (.right (.inl rfl) harity ha hv hb))
  exact bind_agrees hright fun _ _ _ => rfl

theorem binary_agrees (op : BinaryOp) (h : AgreeOnCalls eval' eval allowed t m (.binary op)) :
    evalBinary eval' op t m = evalBinary eval op t m := by
  refine shape_agrees fun _ harity => shape_agrees fun a ha => ?_
  have hleft := operand_agrees (h _ _ _ (.left (.inr ⟨op, rfl⟩) harity ha))
  refine bind_agrees hleft fun v m₁ hv => shape_agrees fun b hb => ?_
  have hright := operand_agrees (h _ _ _ (.right (.inr ⟨op, rfl⟩) harity ha hv hb))
  exact bind_agrees hright fun _ _ _ => rfl

theorem unary_agrees (op : UnaryOp) (h : AgreeOnCalls eval' eval allowed t m (.unary op)) :
    evalUnary eval' op t m = evalUnary eval op t m := by
  refine shape_agrees fun _ harity => ?_
  cases op with
  | negate =>
      refine shape_agrees fun c hc => ?_
      exact bind_agrees (operand_agrees (h.only rfl harity hc)) fun _ _ _ => rfl
  | increment => rfl
  | decrement => rfl

theorem assign_agrees (h : AgreeOnCalls eval' eval allowed t m .assign) :
    evalAssign eval' t m = evalAssign eval t m := by
  refine shape_agrees fun _ harity => shape_agrees fun name hname => shape_agrees fun c hc => ?_
  have hvalue := present_agrees (h _ _ _ (.assigned harity hname hc))
  exact bind_agrees hvalue fun _ _ _ => rfl

theorem print_agrees (h : AgreeOnCalls eval' eval allowed t m .print) :
    evalPrint eval' t m = evalPrint eval t m := by
  refine shape_agrees fun _ harity => shape_agrees fun c hc => ?_
  exact bind_agrees (operand_agrees (h.only rfl harity hc)) fun _ _ _ => rfl

theorem input_agrees (h : AgreeOnCalls eval' eval allowed t m .input) :
    evalInput eval' t m = evalInput eval t m := by
  refine shape_agrees fun _ harity => shape_agrees fun c? hc => ?_
  refine bind_agrees ?_ fun _ _ _ => rfl
  cases c? with
  | none => rfl
  | some c =>
      exact bind_agrees (operand_agrees (h _ _ _ (.prompt harity hc))) fun _ _ _ => rfl

/-- A choice calls for a condition, and then for what follows from it. -/
theorem choice_agrees (h : AgreeOnCalls eval' eval allowed t m .choice) :
    evalChoice eval' t m = evalChoice eval t m := by
  refine shape_agrees fun _ harity => shape_agrees fun test htest => ?_
  have hcondition := condition_agrees (h _ _ _ (.test harity htest))
  refine bind_agrees hcondition fun holds m₁ hholds => ?_
  -- The branches are only called when the conditions say so, and only then do they have to agree.
  cases holds with
  | true => exact shape_agrees fun c hc => h _ _ _ (.branch harity htest hholds hc)
  | false =>
      refine shape_agrees fun test? htest' => ?_
      have hcondition' : optionalCondition eval' test? m₁ = optionalCondition eval test? m₁ := by
        cases test? with
        | none => rfl
        | some test' => exact condition_agrees (h _ _ _ (.test' harity htest hholds htest'))
      refine bind_agrees hcondition' fun holds' m₂ hholds' => ?_
      cases holds' with
      | true =>
          exact shape_agrees fun c hc =>
            h _ _ _ (.branch' harity htest hholds htest' hholds' hc)
      | false =>
          refine shape_agrees fun c? hc => ?_
          cases c? with
          | none => rfl
          | some c => exact h _ _ _ (.otherwise harity htest hholds htest' hholds' hc)

/-- A loop calls for its condition and its body behind any number of rounds. -/
theorem loop_agrees (h : AgreeOnCalls eval' eval allowed t m .loop) :
    evalLoop eval' allowed t m = evalLoop eval allowed t m := by
  refine shape_agrees fun _ harity => shape_agrees fun test htest => ?_
  refine shape_agrees fun body hbody => ?_
  refine rounds_agrees (fun k m₁ hk hr => ?_) fun k m₁ m₂ hk hr hh => ?_
  · exact h _ _ _ (.again harity htest hbody hk hr)
  · exact h _ _ _ (.body harity htest hbody hk hr hh)

theorem arrayNew_agrees (rank : Nat) (h : AgreeOnCalls eval' eval allowed t m (.arrayNew rank)) :
    evalArrayNew eval' rank t m = evalArrayNew eval rank t m := by
  refine shape_agrees fun _ harity => bind_agrees (children_agrees ?_) fun _ _ _ => rfl
  intro i c vs m₁ hroom _ hi hvs hc
  rw [Nat.zero_add] at hc
  exact h _ _ _ (.dimension harity hroom hi hvs hc)

/-- Where an array has been looked up, the machine is the same. -/
theorem namedArray_agrees {name : String} {f f' : ArrayId → Action β}
    (hf : ∀ id, namedArray name m = .ok id m → f' id m = f id m) :
    (namedArray name >>= f') m = (namedArray name >>= f) m := by
  refine bind_agrees rfl fun id m₁ hid => ?_
  have hsame := (eq_of_namedArray hid).1
  subst hsame
  exact hf id hid

/-- The name has been looked up before an index is called for. -/
theorem arrayAccess_agrees (rank : Nat)
    (h : AgreeOnCalls eval' eval allowed t m (.arrayAccess rank)) :
    evalArrayAccess eval' rank t m = evalArrayAccess eval rank t m := by
  refine size_agrees fun arity hsum => ?_
  rcases addSizes_eq_ok_iff.mp hsum with ⟨hle, rfl⟩
  refine shape_agrees fun _ harity => shape_agrees fun name hname => ?_
  refine namedArray_agrees fun id hid => bind_agrees (children_agrees ?_) fun _ _ _ => rfl
  intro i c vs m₁ hroom _ hi hvs hc
  exact h _ _ _ (.position (.inl ⟨rfl, rfl⟩) hle hroom harity hname hid hi hvs hc)

/-- The value is called for behind all indices. -/
theorem arrayAssign_agrees (rank : Nat)
    (h : AgreeOnCalls eval' eval allowed t m (.arrayAssign rank)) :
    evalArrayAssign eval' rank t m = evalArrayAssign eval rank t m := by
  refine size_agrees fun arity hsum => ?_
  rcases addSizes_eq_ok_iff.mp hsum with ⟨hle, rfl⟩
  refine shape_agrees fun _ harity => shape_agrees fun name hname => ?_
  refine namedArray_agrees fun id hid => bind_agrees (children_agrees ?_) fun vs m₁ hvs => ?_
  · intro i c vs m₁ hroom _ hi hvs hc
    exact h _ _ _ (.position (.inr ⟨rfl, rfl⟩) hle hroom harity hname hid hi hvs hc)
  · -- The indices have been evaluated, so there was room for them.
    rcases exists_of_size_ok hvs with ⟨_, hroom, hvs⟩
    rcases exists_of_size_ok hvs with ⟨last, hlast, hvs⟩
    rcases addSizes_eq_ok_iff.mp hlast with ⟨_, rfl⟩
    rw [Nat.add_sub_cancel_left] at hvs
    refine size_agrees fun place hplace => shape_agrees fun c hc => ?_
    rcases addSizes_eq_ok_iff.mp hplace with ⟨_, rfl⟩
    have hvalue := present_agrees
      (h _ _ _ (.value hle (reserve_eq_ok_iff.mp hroom) harity hname hid hvs hc))
    exact bind_agrees hvalue fun _ _ _ => rfl

/-- The rule of a form depends on what it calls for and on nothing else: it does the same
    with every evaluator that agrees on that. -/
theorem evalForm_congr (h : AgreeOnCalls eval' eval allowed t m form) :
    evalForm eval' allowed t form m = evalForm eval allowed t form m := by
  -- The forms without calls are the same on both sides.
  cases form with
  | main => exact main_agrees h
  | statements => exact statements_agrees h
  | statementExpr => exact wrapped_agrees h rfl
  | paren => exact wrapped_agrees h rfl
  | assign => exact assign_agrees h
  | name => rfl
  | number => rfl
  | text => rfl
  | list => exact list_agrees h
  | index => exact index_agrees h
  | binary op => exact binary_agrees op h
  | unary op => exact unary_agrees op h
  | pass => rfl
  | leave => rfl
  | print => exact print_agrees h
  | input => exact input_agrees h
  | choice => exact choice_agrees h
  | loop => exact loop_agrees h
  | arrayNew rank => exact arrayNew_agrees rank h
  | arrayAccess rank => exact arrayAccess_agrees rank h
  | arrayAssign rank => exact arrayAssign_agrees rank h

/-- The actions that leave the level as it was, however they end. They may have any effect. -/
def levelDiscipline : NestedDiscipline where
  Obeys a := ∀ m, Ends a m (fun _ m' => m'.depth = m.depth) fun _ m' => m'.depth = m.depth
  Allows _ := True
  obeys_pure _ _ := rfl
  obeys_bind ha hf m := by
    rw [ends_bind]
    refine (ha m).mono (fun v m' hm' => ?_) fun _ _ he => he
    rw [← hm']
    exact hf v m'
  obeys_fault _ _ := rfl
  obeys_heap _ := rfl
  obeys_growth _ _ := rfl
  obeys_lookup _ _ := rfl
  obeys_assign _ _ := rfl
  obeys_element _ _ := rfl
  obeys_write _ _ := ends_write rfl rfl
  obeys_readLine _ _ := ends_readLine (fun _ => rfl) rfl
  obeys_unfinished _ _ := rfl
  obeys_refusal _ _ := rfl
  obeys_panic _ _ := rfl
  obeys_guarded _ ha m := by
    rw [guarded, ends_recover]
    refine (ha m).mono (fun _ _ h => h) fun e m' he => ?_
    -- Only a fault is taken up, and telling of it does not change the level.
    cases e with
    | fault f => exact ends_bind.mpr (ends_write he he)
    | _ => exact he
  obeys_currentDepth _ := rfl
  -- This is where a level is stepped up and down.
  obeys_deeper ha m := ends_deeper.mpr ((ha m.entered).mono
    (fun _ _ h => congrArg (· - 1) h) fun _ _ h => congrArg (· - 1) h)

/-- Evaluation leaves the level as it was, however it ends and whatever the tree is. -/
theorem level_evalTree (limits : Limits) (t : Tree) :
    levelDiscipline.Obeys (evalTree limits t) :=
  levelDiscipline.obeys_evalTree limits trivial (S := fun _ => True) (fun _ _ _ _ _ => trivial)
    (fun _ _ _ _ _ _ => trivial) t trivial

/-- No round of a loop changes the level. -/
theorem Rounds.depth_eq {test body : Tree} {leaves : Machine → Value → Prop}
    (he : ∀ c, levelDiscipline.Obeys (eval c)) (h : Rounds eval test body leaves k m m') :
    m'.depth = m.depth := by
  induction h with
  | none m => rfl
  | more htest hbody _ _ ih =>
      have hcondition := (levelDiscipline.obeys_condition trivial (he test) _).of_ok htest
      have hround := (levelDiscipline.obeys_guarded trivial (he body) _).of_ok hbody
      rw [ih, hround, hcondition]

/-- A call is made at the level of the form. -/
theorem Calls.depth_eq (he : ∀ c, levelDiscipline.Obeys (eval c))
    (h : Calls eval allowed t m form s c m₁) : m₁.depth = m.depth := by
  have hcondition : ∀ {test : Tree} {holds : Bool} {m m₁ : Machine},
      eval.condition test m = .ok holds m₁ → m₁.depth = m.depth :=
    fun hr => (levelDiscipline.obeys_condition trivial (he _) _).of_ok hr
  have hoptional : ∀ {test? : Option Tree} {holds : Bool} {m m₁ : Machine},
      optionalCondition eval test? m = .ok holds m₁ → m₁.depth = m.depth :=
    fun hr => (levelDiscipline.obeys_optionalCondition trivial (fun c _ => he c) _).of_ok hr
  have hinOrder : ∀ {first count : Nat} {vs : List Value} {m m₁ : Machine},
      eval.inOrder t first count m = .ok vs m₁ → m₁.depth = m.depth :=
    fun hr => (levelDiscipline.obeys_mapM _ (fun _ _ =>
      levelDiscipline.obeys_shape trivial fun c _ => he c) _).of_ok hr
  -- What was evaluated before the call has put the depth back.
  cases h with
  | right _ _ _ hv _ => exact (levelDiscipline.obeys_operand (he _) _).of_ok hv
  | element _ _ hvs _ =>
      exact (levelDiscipline.obeys_mapM _ (fun c _ =>
        levelDiscipline.obeys_present (he c)) _).of_ok hvs
  | statement _ _ hvs _ =>
      exact (levelDiscipline.obeys_mapM _ (fun c _ =>
        levelDiscipline.obeys_guarded trivial (he c)) _).of_ok hvs
  | dimension _ _ _ hvs _ => exact hinOrder hvs
  | position _ _ _ _ _ _ _ hvs _ => exact hinOrder hvs
  | value _ _ _ _ _ hvs _ => exact hinOrder hvs
  | branch _ _ hholds _ => exact hcondition hholds
  | test' _ _ hholds _ => exact hcondition hholds
  | branch' _ _ hholds _ hholds' _ => exact (hoptional hholds').trans (hcondition hholds)
  | otherwise _ _ hholds _ hholds' _ => exact (hoptional hholds').trans (hcondition hholds)
  | again _ _ _ _ hr => exact hr.depth_eq he
  | body _ _ _ _ hr hholds => exact (hcondition hholds).trans (hr.depth_eq he)
  | _ => rfl

end TreeScript
