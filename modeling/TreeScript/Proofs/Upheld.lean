import TreeScript.Proofs.Invariant

/-!
# Evaluation Keeps Invariants

Every form of program keeps an invariant if the evaluator for the trees inside
does, and so evaluation does, by going down the tree. There is one lemma for each
form, in the order of the forms; none of them looks into another one, so a form
that changes needs a new proof of its own lemma only.

Whatever an evaluation yields is a mark or may be kept. The two places that keep
values, bindings and elements, ask for the latter, and they get it because they
evaluate with `present`, which lets no mark pass.

The proof of a form follows its definition action by action, with one rule of `Invariant`
for each kind of action. A rule hands on that the heap is only later than before, and data
stays data on a later heap; this is how an operand that was evaluated first is still good
when the second one has been evaluated.

The recursion itself is not looked at. `respects_evalUpTo` is an induction on the height
that the evaluator is written with, and the step of it is `keeps_form`.

## Main definitions

* `Invariant.Respects`: An evaluator that keeps an invariant.

## Theorems

* `Invariant.keeps_present`: What an element or a binding is evaluated to.
* `Invariant.keeps_rounds`: Loops, by induction on their rounds.
* `Invariant.keeps_form`: Every form of program.
* `Invariant.keeps_evaluate`: Evaluation of a tree that stands alone.
* `Invariant.keeps_unbroken`, `Invariant.keeps_operand`: What an operand is evaluated to.
* `Invariant.keeps_children`: Trees inside that are evaluated in order.
* `Invariant.respects_evalUpTo`, `Invariant.respects_evalTree`: Evaluation of trees in
  trees.
-/

namespace TreeScript

namespace Invariant

variable {I : Invariant} {eval : Evaluator} {m : Machine}

/-- An evaluator that keeps an invariant on every tree and machine. -/
def Respects (I : Invariant) (eval : Evaluator) : Prop :=
  ∀ t m, I.Keeps m (eval t) I.Yields

theorem data_yields {v : Value} {m : Machine} (hv : I.data m.heap v) : I.Yields v m := Or.inr hv

/-- An operand is no mark of a loop. -/
theorem keeps_unbroken (he : I.Respects eval) (t : Tree) (m : Machine) :
    I.Keeps m (eval.operand t) fun v m' => I.Yields v m' ∧ v.isBreak = false := by
  refine keeps_bind (he t m) fun v m₁ _ hv => ?_
  split
  · exact keeps_throw
  · rename_i hb
    exact keeps_pure ⟨hv, Bool.eq_false_iff.mpr hb⟩

theorem keeps_operand (he : I.Respects eval) (t : Tree) (m : Machine) :
    I.Keeps m (eval.operand t) I.Yields :=
  (keeps_unbroken he t m).mono fun _ _ hv => hv.1

/-- What has to be present is no mark, so it may be kept. -/
theorem keeps_present (he : I.Respects eval) (t : Tree) (m : Machine) :
    I.Keeps m (eval.present t) fun v m' => I.data m'.heap v := by
  refine keeps_bind (keeps_unbroken he t m) fun v m₁ _ hv => ?_
  split
  · exact keeps_throw
  · rename_i habsent
    rcases hv with ⟨hmark | hdata, hb⟩
    · -- The two checks have excluded both marks.
      rw [Value.isMark, hb, Bool.false_or] at hmark
      exact absurd hmark habsent
    · exact keeps_pure hdata

theorem keeps_condition (he : I.Respects eval) (t : Tree) (m : Machine) :
    I.Keeps m (eval.condition t) fun _ _ => True := by
  refine keeps_bind (keeps_guarded (he t m)) fun v m₁ _ _ => ?_
  exact keeps_heap fun _ => keeps_pure trivial

/-- Children are evaluated in order, each on what the one before left. -/
theorem keeps_children (he : I.Respects eval) (t : Tree) (first count : Nat) (m : Machine) :
    I.Keeps m (eval.children t first count) fun _ _ => True := by
  refine keeps_size fun _ => keeps_size fun last => ?_
  have hall := keeps_mapM (Q := I.Yields) (fun _ _ _ => Later.yields) (List.range (last - first))
    (f := fun i => do eval (← t.child (first + i)))
    (fun i _ m => keeps_shape fun c => he c m) m
  exact hall.mono fun _ _ _ => trivial

theorem keeps_wrapped (he : I.Respects eval) (t : Tree) : I.Keeps m (evalWrapped eval t) I.Yields :=
  keeps_shape fun _ => keeps_shape fun c => he c m

theorem keeps_number (t : Tree) : I.Keeps m (evalNumber t) I.Yields := by
  refine keeps_shape fun _ => keeps_shape fun word => ?_
  split
  · exact keeps_pure (data_yields (I.data_plain (.number _)))
  · exact keeps_throw

theorem keeps_text (t : Tree) : I.Keeps m (evalText t) I.Yields :=
  keeps_shape fun _ => keeps_shape fun w => keeps_pure (data_yields (I.data_plain (.text w)))

theorem keeps_name (t : Tree) : I.Keeps m (evalName t) I.Yields := by
  refine keeps_shape fun _ => keeps_shape fun name => keeps_lookup fun found hfound => ?_
  cases found with
  | none => exact keeps_throw
  | some v => exact keeps_pure (data_yields (hfound v rfl))

/-- The elements of a list are all present, and their depth is checked. -/
theorem keeps_list (he : I.Respects eval) (t : Tree) : I.Keeps m (evalList eval t) I.Yields := by
  refine keeps_shape fun _ => keeps_shape fun trees => ?_
  have hall := keeps_mapM (fun v _ _ hl hv => hl.data v hv) trees
    (fun t _ m => keeps_present he t m) m
  refine keeps_bind hall fun elements m₁ _ hdata => ?_
  refine keeps_heap fun _ => keeps_checked fun _ hdepth => ?_
  have hfits : m₁.heap.Fits elements.toArray := Or.inl (checkDepth_eq_ok_iff.mp hdepth)
  exact (keeps_fresh (fun v hv => hdata v (by simpa using hv)) hfits).mono
    fun _ _ hv => data_yields hv

/-- An element of data is data. -/
theorem keeps_index (he : I.Respects eval) (t : Tree) : I.Keeps m (evalIndex eval t) I.Yields := by
  refine keeps_shape fun _ => keeps_shape fun b => ?_
  refine keeps_bind (keeps_operand he b m) fun base m₁ _ hbase => keeps_shape fun c => ?_
  refine keeps_bind (keeps_operand he c m₁) fun i m₂ hl _ => keeps_heap fun harrays => ?_
  -- The sequence was evaluated before the index, but it is as good as it was.
  refine keeps_result fun v hv => ?_
  rcases Heap.index_from hv with hplain | ⟨id, rfl, hmem⟩
  · exact data_yields (I.data_plain hplain)
  · exact data_yields (I.data_element harrays (hl.yields hbase).array hmem)

/-- An operator makes a plain value, or a fresh list of elements of its operands. -/
theorem keeps_binary (he : I.Respects eval) (op : BinaryOp) (t : Tree) :
    I.Keeps m (evalBinary eval op t) I.Yields := by
  refine keeps_shape fun _ => keeps_shape fun a => ?_
  refine keeps_bind (keeps_operand he a m) fun left m₁ _ hleft => keeps_shape fun b => ?_
  refine keeps_bind (keeps_operand he b m₁) fun right m₂ hl hright => keeps_heap fun _ => ?_
  refine keeps_checked fun p hp => ?_
  exact (keeps_settle (hl.yields hleft) hright (Heap.binary_from hp)).mono
    fun _ _ hv => data_yields hv

theorem keeps_step (op : ArithOp) (name : String) : I.Keeps m (evalStep op name) I.Yields := by
  refine keeps_lookup fun found hfound => ?_
  cases found with
  | none => exact keeps_throw
  | some current =>
      refine keeps_heap fun _ => keeps_checked fun p hp => ?_
      -- A variable is stepped by adding the number one, whatever it holds.
      have hone : I.Yields (.int 1) m := data_yields (I.data_plain (.number _))
      refine keeps_bind (keeps_settle (data_yields (hfound current rfl)) hone
        (Heap.arith_from hp)) fun v m₁ _ hv => ?_
      exact keeps_bind (keeps_assign hv) fun _ _ hl _ => keeps_pure (hl.yields (data_yields hv))

theorem keeps_unary (he : I.Respects eval) (op : UnaryOp) (t : Tree) :
    I.Keeps m (evalUnary eval op t) I.Yields := by
  refine keeps_shape fun _ => ?_
  cases op with
  -- A negated value is a number, which every invariant admits.
  | negate =>
      refine keeps_shape fun c => keeps_bind (keeps_operand he c m) fun v m₁ _ _ => ?_
      refine keeps_result fun w hw => ?_
      exact data_yields (I.data_plain (negate_plain hw))
  | increment => exact keeps_shape fun name => keeps_step .add name
  | decrement => exact keeps_shape fun name => keeps_step .sub name

theorem keeps_assignment (he : I.Respects eval) (t : Tree) :
    I.Keeps m (evalAssign eval t) I.Yields := by
  refine keeps_shape fun _ => keeps_shape fun name => keeps_shape fun c => ?_
  refine keeps_bind (keeps_present he c m) fun v m₁ _ hv => ?_
  exact keeps_bind (keeps_assign hv) fun _ _ hl _ => keeps_pure (hl.yields (data_yields hv))

theorem keeps_namedArray (name : String) :
    I.Keeps m (namedArray name) fun id m' => I.data m'.heap (.array id) := by
  refine keeps_lookup fun found hfound => ?_
  split
  · exact keeps_pure (hfound _ rfl)
  · exact keeps_throw
  · exact keeps_throw

theorem keeps_arrayNew (he : I.Respects eval) (rank : Nat) (t : Tree) :
    I.Keeps m (evalArrayNew eval rank t) I.Yields := by
  refine keeps_shape fun _ => keeps_bind (keeps_children he t 0 rank m) fun dims m₁ _ _ => ?_
  refine keeps_heap fun _ => keeps_checked fun sides hsides => ?_
  refine keeps_bind (keeps_zeroed (Heap.length_le_of_dimensions hsides)) fun id m₂ _ hid => ?_
  exact keeps_pure (data_yields hid)

/-- An access yields an element of an array that a name is bound to. -/
theorem keeps_arrayAccess (he : I.Respects eval) (rank : Nat) (t : Tree) :
    I.Keeps m (evalArrayAccess eval rank t) I.Yields := by
  refine keeps_size fun _ => keeps_shape fun _ => keeps_shape fun name => ?_
  refine keeps_bind (keeps_namedArray name) fun id m₁ _ hid => ?_
  refine keeps_bind (keeps_children he t 1 rank m₁) fun indices m₂ hl _ => ?_
  refine keeps_heap fun harrays => keeps_checked fun positions _ => keeps_pure ?_
  cases hfound : m₂.heap.elementAt id positions with
  | none => exact yields_absent
  | some v =>
      -- The path goes from data to data, since the elements of an array that is data are data.
      exact data_yields (Heap.elementAt_keeps (fun _ _ => I.data_element harrays)
        (hl.data _ hid) hfound)

/-- The value is present, so that it may be kept, and its place is in an array
    that may be kept as well. -/
theorem keeps_arrayAssign (he : I.Respects eval) (rank : Nat) (t : Tree) :
    I.Keeps m (evalArrayAssign eval rank t) I.Yields := by
  refine keeps_size fun _ => keeps_shape fun _ => keeps_shape fun name => ?_
  refine keeps_bind (keeps_namedArray name) fun id m₁ _ hid => ?_
  refine keeps_bind (keeps_children he t 1 rank m₁) fun indices m₂ h₂ _ => ?_
  refine keeps_size fun _ => keeps_shape fun c => ?_
  refine keeps_bind (keeps_present he c m₂) fun v m₃ h₃ hv => ?_
  refine keeps_heap fun harrays => keeps_checked fun positions _ => keeps_heap fun _ => ?_
  refine keeps_checked fun slot hslot => ?_
  rcases Heap.slot_open hslot with ⟨hpath, hopen, hnone⟩
  -- The name may have been bound anew since, but the array found first is written to.
  have hparent : I.data m₃.heap (.array slot.array) :=
    Heap.elementAt_keeps (fun _ _ => I.data_element harrays) ((h₂.trans h₃).data _ hid) hpath
  refine keeps_bind (keeps_set hparent hopen hv hnone) fun _ m₄ _ hv₄ => ?_
  exact keeps_pure (data_yields hv₄)

/-- A sequence yields a mark, or a value that its last statement yielded. -/
theorem keeps_statements (he : I.Respects eval) (t : Tree) :
    I.Keeps m (evalStatements eval t) I.Yields := by
  have hresults : I.Keeps m (statementResults eval t) fun vs m' => ∀ v ∈ vs, I.Yields v m' := by
    refine keeps_shape fun _ => keeps_shape fun statements => ?_
    exact keeps_mapM (Q := I.Yields) (fun _ _ _ => Later.yields) statements
      (fun s _ m => keeps_guarded (he s m)) m
  refine keeps_bind hresults fun vs m₁ _ hvs => keeps_pure ?_
  -- The value is a mark, or that of the last statement.
  unfold foldResults
  split
  · exact Or.inl rfl
  · cases hlast : vs.getLast? with
    | none => exact yields_absent
    | some v => exact hvs v (List.mem_of_getLast? hlast)

theorem keeps_main (he : I.Respects eval) (t : Tree) : I.Keeps m (evalMain eval t) I.Yields := by
  refine keeps_shape fun _ => keeps_shape fun c => ?_
  refine keeps_bind (P := fun _ _ => True) ?_ fun _ _ _ _ => keeps_pure yields_absent
  exact keeps_bind (he c m) fun _ _ _ _ => keeps_pure trivial

theorem keeps_optional (he : I.Respects eval) (t? : Option Tree) :
    I.Keeps m (evalOptional eval t?) I.Yields := by
  cases t? with
  | none => exact keeps_pure yields_absent
  | some t => exact he t m

theorem keeps_optionalCondition (he : I.Respects eval) (t? : Option Tree) :
    I.Keeps m (optionalCondition eval t?) fun _ _ => True := by
  cases t? with
  | none => exact keeps_pure trivial
  | some t => exact keeps_condition he t m

/-- A choice yields what its branch yields, or nothing. -/
theorem keeps_choice (he : I.Respects eval) (t : Tree) :
    I.Keeps m (evalChoice eval t) I.Yields := by
  refine keeps_shape fun _ => keeps_shape fun test => ?_
  refine keeps_bind (keeps_condition he test m) fun holds m₁ _ _ => ?_
  split
  · exact keeps_shape fun branch => he branch m₁
  · refine keeps_shape fun test? => ?_
    refine keeps_bind (keeps_optionalCondition he test?) fun holds' m₂ _ _ => ?_
    split
    · exact keeps_shape fun branch => he branch m₂
    · exact keeps_shape fun branch? => keeps_optional he branch?

/-- A loop keeps the invariant with any number of rounds: a round keeps it, and
    so do the rounds that are left. -/
theorem keeps_rounds (he : I.Respects eval) (test body : Tree) (n : Nat) :
    ∀ m, I.Keeps m (rounds eval test body n) I.Yields := by
  induction n with
  | zero => exact fun m => keeps_throw
  | succ n ih =>
      intro m
      refine keeps_bind (keeps_condition he test m) fun holds m₁ _ _ => ?_
      split
      · refine keeps_bind (keeps_guarded (he body m₁)) fun v m₂ _ _ => ?_
        split
        · exact keeps_pure yields_absent
        · -- The next round starts on the machine that this one leaves.
          exact ih m₂
      · exact keeps_pure yields_absent

/-- A loop keeps the invariant in each pass, by induction on the passes that are allowed. -/
theorem keeps_loop (he : I.Respects eval) (allowed : Nat) (t : Tree) :
    I.Keeps m (evalLoop eval allowed t) I.Yields :=
  keeps_shape fun _ => keeps_shape fun test => keeps_shape fun body =>
    keeps_rounds he test body allowed m

theorem keeps_mark {v : Value} (hv : v.isMark = true) (t : Tree) :
    I.Keeps m (evalMark v t) I.Yields :=
  keeps_shape fun _ => keeps_pure (Or.inl hv)

theorem keeps_print (he : I.Respects eval) (t : Tree) :
    I.Keeps m (evalPrint eval t) I.Yields := by
  refine keeps_shape fun _ => keeps_shape fun c => ?_
  refine keeps_bind (keeps_operand he c m) fun v m₁ _ hv => keeps_heap fun _ => ?_
  exact keeps_bind keeps_write fun _ _ hl _ => keeps_pure (hl.yields hv)

theorem keeps_writePrompt (he : I.Respects eval) (t? : Option Tree) :
    I.Keeps m (writePrompt eval t?) fun _ _ => True := by
  cases t? with
  | none => exact keeps_pure trivial
  | some t =>
      refine keeps_bind (keeps_operand he t m) fun v m₁ _ _ => keeps_heap fun _ => ?_
      exact keeps_write

/-- Reading a line makes plain values only. -/
theorem keeps_input (he : I.Respects eval) (t : Tree) :
    I.Keeps m (evalInput eval t) I.Yields := by
  refine keeps_shape fun _ => keeps_shape fun prompt? => ?_
  refine keeps_bind (keeps_writePrompt he prompt?) fun _ m₁ _ _ => ?_
  refine keeps_bind keeps_readLine fun line? m₂ _ _ => ?_
  cases line? with
  | none => exact keeps_throw
  | some line => exact keeps_pure (data_yields (I.data_plain (inputValue_plain line)))

/-- Every form of program keeps the invariant. -/
theorem keeps_form (he : I.Respects eval) (allowed : Nat) (t : Tree) (form : Form) :
    I.Keeps m (evalForm eval allowed t form) I.Yields := by
  -- One lemma for each form. They say what the form may keep and what it may yield.
  cases form with
  | main => exact keeps_main he t
  | statements => exact keeps_statements he t
  | statementExpr => exact keeps_wrapped he t
  | paren => exact keeps_wrapped he t
  | assign => exact keeps_assignment he t
  | name => exact keeps_name t
  | number => exact keeps_number t
  | text => exact keeps_text t
  | list => exact keeps_list he t
  | index => exact keeps_index he t
  | binary op => exact keeps_binary he op t
  | unary op => exact keeps_unary he op t
  | pass => exact keeps_mark rfl t
  | leave => exact keeps_mark rfl t
  | print => exact keeps_print he t
  | input => exact keeps_input he t
  | choice => exact keeps_choice he t
  | loop => exact keeps_loop he allowed t
  | arrayNew rank => exact keeps_arrayNew he rank t
  | arrayAccess rank => exact keeps_arrayAccess he rank t
  | arrayAssign rank => exact keeps_arrayAssign he rank t

/-- So evaluation keeps it, since it does so for the trees inside. -/
theorem respects_evalUpTo (I : Invariant) (limits : Limits) (n : Nat) :
    I.Respects (evalUpTo limits n) := by
  induction n with
  | zero => exact fun t m => keeps_throw
  | succ n ih =>
      intro t m
      refine keeps_nested keeps_throw ?_
      unfold dispatch
      -- A tag that names no form has no effect.
      split
      · exact keeps_form ih limits.rounds t _
      · exact keeps_pure yields_absent

/-- The evaluator respects every invariant, with any bounds. -/
theorem respects_evalTree (I : Invariant) (limits : Limits) : I.Respects (evalTree limits) :=
  fun t => respects_evalUpTo I limits t.height t

/-- A tree that stands alone keeps the invariant, and a fault in it is reported. -/
theorem keeps_evaluate (I : Invariant) (limits : Limits) (t : Tree) (m : Machine) :
    I.Keeps m (evaluate limits t) I.Yields :=
  keeps_guarded (respects_evalTree I limits t m)

end Invariant

end TreeScript
