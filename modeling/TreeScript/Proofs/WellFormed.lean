import TreeScript.Proofs.Discipline

/-!
# Well-Formed Trees

Which operands the forms of program ask for. Every form checks its operands where it
comes to need them, some of them in one branch or in one round only. A tree whose
operands are as described here, down to the last one, passes all of these checks
whatever the machine holds, so it is never given up as malformed.

Where nothing is asked for, there may be anything: below a tag that names no form, and
in the branch of a choice whose condition is missing. So a tree inside a well-formed one
need not be well-formed, and the induction is one on the rules of well-formed trees and
not on the trees themselves.

A form that fits its tag has as many operands as its rank says, so its sizes are small if
there is room for its operands at all. That is why no well-formed tree that a memory can
hold panics, however great a rank its tag spells.

## Main definitions

* `Form.wraps`, `Form.sequences`, `Form.pairs`, `Form.names`, `Form.marks`: Forms that
  ask for the same operands.
* `WellFormed`: A tree that fits its tag, and so do the trees in it.
* `Tree.isStorable`: A tree that a memory can hold.
* `soundDiscipline`: The actions that refuse no tree.

## Theorems

* `NestedDiscipline.obeys_wellFormed`: Well-formed trees have no need to be refused.
* `well_formed_trees_are_never_refused`: What comes of a well-formed tree that stands
  alone.
-/

namespace TreeScript

namespace Form

/-- Whether the form has one operand, a tree. -/
def wraps : Form → Bool
  | .main | .paren | .statementExpr | .print | .unary .negate => true
  | _ => false

/-- Whether the form has one operand, a sequence of trees. -/
def sequences : Form → Bool
  | .statements | .list => true
  | _ => false

/-- Whether the form has two operands, both of them trees. -/
def pairs : Form → Bool
  | .index | .loop | .binary _ => true
  | _ => false

/-- Whether the form has one operand, any word. -/
def names : Form → Bool
  | .name | .text | .unary .increment | .unary .decrement => true
  | _ => false

/-- Whether the form has no operands. -/
def marks : Form → Bool
  | .pass | .leave => true
  | _ => false

end Form

/-- A tree as an operand that may be missing. -/
def slotOf : Option Tree → Operand
  | some t => t.toOperand
  | none => .nil

/-- A tree whose operands are what its form asks for, if its tag names a form. -/
inductive WellFormed : Tree → Prop where
  | unknown {t : Tree} : Form.ofTag? t.tag = none → WellFormed t
  | wrapping {tag : String} {form : Form} {c : Tree} : Form.ofTag? tag = some form →
      form.wraps = true → WellFormed c → WellFormed ⟨tag, [c.toOperand]⟩
  | sequence {tag : String} {form : Form} {cs : List Tree} : Form.ofTag? tag = some form →
      form.sequences = true → (∀ c ∈ cs, WellFormed c) →
      WellFormed ⟨tag, [.seq (cs.map Tree.toOperand)]⟩
  | pair {tag : String} {form : Form} {a b : Tree} : Form.ofTag? tag = some form →
      form.pairs = true → WellFormed a → WellFormed b →
      WellFormed ⟨tag, [a.toOperand, b.toOperand]⟩
  | word {tag w : String} {form : Form} : Form.ofTag? tag = some form → form.names = true →
      WellFormed ⟨tag, [.token w]⟩
  | number {tag w : String} : Form.ofTag? tag = some .number →
      (readNumber? w.toList).isSome = true → WellFormed ⟨tag, [.token w]⟩
  | mark {tag : String} {form : Form} : Form.ofTag? tag = some form → form.marks = true →
      WellFormed ⟨tag, []⟩
  | assign {tag name : String} {c : Tree} : Form.ofTag? tag = some .assign → WellFormed c →
      WellFormed ⟨tag, [.token name, c.toOperand]⟩
  | input {tag : String} {prompt? : Option Tree} : Form.ofTag? tag = some .input →
      (∀ c, prompt? = some c → WellFormed c) → WellFormed ⟨tag, [slotOf prompt?]⟩
  /-- A choice with one condition. -/
  | choice {tag : String} {test branch : Tree} {o : Operand} {otherwise? : Option Tree} :
      Form.ofTag? tag = some .choice → WellFormed test → WellFormed branch →
      (∀ c, otherwise? = some c → WellFormed c) →
      WellFormed ⟨tag, [test.toOperand, branch.toOperand, .nil, o, slotOf otherwise?]⟩
  /-- A choice with two conditions. -/
  | choiceOfTwo {tag : String} {test branch test' branch' : Tree} {otherwise? : Option Tree} :
      Form.ofTag? tag = some .choice → WellFormed test → WellFormed branch →
      WellFormed test' → WellFormed branch' → (∀ c, otherwise? = some c → WellFormed c) →
      WellFormed ⟨tag, [test.toOperand, branch.toOperand, test'.toOperand, branch'.toOperand,
        slotOf otherwise?]⟩
  | arrayNew {tag : String} {rank : Nat} {cs : List Tree} :
      Form.ofTag? tag = some (.arrayNew rank) → cs.length = rank → (∀ c ∈ cs, WellFormed c) →
      WellFormed ⟨tag, cs.map Tree.toOperand⟩
  | arrayAccess {tag name : String} {rank : Nat} {cs : List Tree} :
      Form.ofTag? tag = some (.arrayAccess rank) → cs.length = rank → (∀ c ∈ cs, WellFormed c) →
      WellFormed ⟨tag, .token name :: cs.map Tree.toOperand⟩
  | arrayAssign {tag name : String} {rank : Nat} {cs : List Tree} :
      Form.ofTag? tag = some (.arrayAssign rank) → cs.length = rank + 1 →
      (∀ c ∈ cs, WellFormed c) → WellFormed ⟨tag, .token name :: cs.map Tree.toOperand⟩

/-- Whether there is room for the operands of a tree and of all trees in it. A memory holds
    no others. -/
def Tree.isStorable (t : Tree) : Bool := t.every fun u => u.operands.length ≤ maxRoom

theorem Tree.length_le_of_isStorable {t : Tree} (h : t.isStorable = true) :
    t.operands.length ≤ maxRoom := by
  simpa using every_self h

theorem child_eq {t c : Tree} {i : Nat} (h : t.operands[i]? = some c.toOperand) :
    t.child i = .ok c := by
  simp only [Tree.child, Tree.operand, h]
  rfl

theorem child?_eq {t : Tree} {c? : Option Tree} {i : Nat} (h : t.operands[i]? = some (slotOf c?)) :
    t.child? i = .ok c? := by
  cases c? <;> simp only [Tree.child?, h, slotOf, Tree.toOperand]

/-- The trees of a sequence that holds nothing else. -/
theorem children_eq {t : Tree} {cs : List Tree} {i : Nat}
    (h : t.operands[i]? = some (.seq (cs.map Tree.toOperand))) : t.children i = .ok cs := by
  unfold Tree.children
  simp only [Tree.operand, h]
  change (cs.map Tree.toOperand).mapM _ = Except.ok cs
  clear h
  induction cs with
  | nil => rfl
  | cons c cs ih =>
      rw [List.map_cons, List.mapM_cons, ih]
      rfl

namespace Discipline

variable (K : Discipline) {eval : Evaluator} {form : Form} {allowed : Nat} {tag name w : String}
  {a b c test branch test' branch' : Tree} {c? : Option Tree} {cs : List Tree} {rank : Nat}

/-- Trees among the operands are evaluated in order, if there is room for so many. -/
theorem obeys_trees {t : Tree} {first : Nat}
    (hs : first + rank ≤ maxSize ∧ rank ≤ maxRoom ∨ K.Allows .panic)
    (hcs : ∀ i < rank, ∃ c ∈ cs, t.operands[first + i]? = some c.toOperand)
    (he : ∀ c ∈ cs, K.Obeys (eval c)) : K.Obeys (eval.children t first rank) := by
  refine K.obeys_size (v := ()) (hs.imp_left fun h => reserve_eq_ok_iff.mpr h.2) fun _ _ => ?_
  refine K.obeys_size (hs.imp_left fun h => addSizes_of_le h.1) fun last hlast => ?_
  obtain rfl := (addSizes_eq_ok_iff.mp hlast).2
  rw [Nat.add_sub_cancel_left]
  refine K.obeys_mapM _ fun i hi => ?_
  rcases hcs i (List.mem_range.mp hi) with ⟨c, hc, hat⟩
  exact K.obeys_found (child_eq hat) (he c hc)

theorem obeys_marked (hm : form.marks = true) : K.Obeys (evalForm eval allowed ⟨tag, []⟩ form) := by
  cases form with
  | pass => exact K.obeys_found rfl (K.obeys_pure _)
  | leave => exact K.obeys_found rfl (K.obeys_pure _)
  | _ => cases hm

theorem obeys_literal (hw : (readNumber? w.toList).isSome = true) :
    K.Obeys (evalNumber ⟨tag, [.token w]⟩) := by
  refine K.obeys_found rfl (K.obeys_found rfl ?_)
  rcases Option.isSome_iff_exists.mp hw with ⟨n, hn⟩
  rw [hn]
  exact K.obeys_pure _

variable (hall : ∀ e, e ≠ .refusal → e ≠ .panic → K.Allows e)

include hall

/-- A form with one operand, of any of the kinds that just use its value. -/
theorem obeys_wrapping (hw : form.wraps = true) (hc : K.Obeys (eval c)) :
    K.Obeys (evalForm eval allowed ⟨tag, [c.toOperand]⟩ form) := by
  cases form with
  | paren => exact K.obeys_found rfl (K.obeys_found rfl hc)
  | statementExpr => exact K.obeys_found rfl (K.obeys_found rfl hc)
  | main =>
      refine K.obeys_found rfl (K.obeys_found rfl ?_)
      -- The program has no value, and drops that of the tree.
      have hdiscard : K.Obeys (discard (eval c)) :=
        K.obeys_bind hc fun _ => K.obeys_pure ()
      exact K.obeys_bind hdiscard fun _ => K.obeys_pure _
  | print =>
      refine K.obeys_found rfl (K.obeys_found rfl ?_)
      refine K.obeys_bind (K.obeys_operand hc) fun v => K.obeys_bind K.obeys_heap fun _ => ?_
      exact K.obeys_bind (K.obeys_write (hall _ nofun nofun)) fun _ => K.obeys_pure v
  | unary op =>
      cases op with
      | negate =>
          refine K.obeys_found rfl (K.obeys_found rfl ?_)
          exact K.obeys_bind (K.obeys_operand hc) fun v => K.obeys_checked _
      | _ => cases hw
  | _ => cases hw

/-- A form over a sequence of statements. -/
theorem obeys_sequence (hs : form.sequences = true) (hcs : ∀ c ∈ cs, K.Obeys (eval c)) :
    K.Obeys (evalForm eval allowed ⟨tag, [.seq (cs.map Tree.toOperand)]⟩ form) := by
  cases form with
  | statements =>
      refine K.obeys_bind (K.obeys_found rfl (K.obeys_found (children_eq rfl) ?_))
        fun results => K.obeys_pure (foldResults results)
      exact K.obeys_mapM cs fun c hc => K.obeys_guarded (hall _ nofun nofun) (hcs c hc)
  | list =>
      refine K.obeys_found rfl (K.obeys_found (children_eq rfl) ?_)
      -- Each element has to be there, which is a question of faults.
      have hpresent := K.obeys_mapM cs fun c hc => K.obeys_present (hcs c hc)
      refine K.obeys_bind hpresent fun elements => ?_
      refine K.obeys_bind K.obeys_heap fun h => K.obeys_bind (K.obeys_checked _) fun _ => ?_
      exact K.obeys_settle _
  | _ => cases hs

/-- A form with two operands. -/
theorem obeys_pair (hp : form.pairs = true) (ha : K.Obeys (eval a)) (hb : K.Obeys (eval b)) :
    K.Obeys (evalForm eval allowed ⟨tag, [a.toOperand, b.toOperand]⟩ form) := by
  cases form with
  | index =>
      refine K.obeys_found rfl (K.obeys_found rfl ?_)
      refine K.obeys_bind (K.obeys_operand ha) fun base => K.obeys_found rfl ?_
      refine K.obeys_bind (K.obeys_operand hb) fun i => ?_
      exact K.obeys_bind K.obeys_heap fun _ => K.obeys_checked _
  | loop =>
      -- Test and body are read before the first round.
      refine K.obeys_found rfl (K.obeys_found rfl (K.obeys_found rfl ?_))
      exact K.obeys_rounds (hall _ nofun nofun) (hall _ nofun nofun) ha hb allowed
  | binary op =>
      refine K.obeys_found rfl (K.obeys_found rfl ?_)
      refine K.obeys_bind (K.obeys_operand ha) fun left => K.obeys_found rfl ?_
      refine K.obeys_bind (K.obeys_operand hb) fun right => ?_
      refine K.obeys_bind K.obeys_heap fun _ => K.obeys_bind (K.obeys_checked _) fun p => ?_
      exact K.obeys_settle p
  | _ => cases hp

/-- A form with a name. -/
theorem obeys_word (hn : form.names = true) :
    K.Obeys (evalForm eval allowed ⟨tag, [.token w]⟩ form) := by
  cases form with
  | text => exact K.obeys_found rfl (K.obeys_found rfl (K.obeys_pure (Value.text w)))
  | name =>
      refine K.obeys_found rfl (K.obeys_found rfl ?_)
      refine K.obeys_bind (K.obeys_lookup (hall _ nofun nofun)) fun found => ?_
      -- A name that is not bound is a fault, and no refusal.
      cases found with
      | none => exact K.obeys_fault _
      | some v => exact K.obeys_pure v
  | unary op =>
      refine K.obeys_found rfl ?_
      cases op with
      | negate => cases hn
      | increment =>
          exact K.obeys_found rfl (K.obeys_step .add (hall _ nofun nofun) (hall _ nofun nofun))
      | decrement =>
          exact K.obeys_found rfl (K.obeys_step .sub (hall _ nofun nofun) (hall _ nofun nofun))
  | _ => cases hn

theorem obeys_assigning (hc : K.Obeys (eval c)) :
    K.Obeys (evalAssign eval ⟨tag, [.token name, c.toOperand]⟩) := by
  refine K.obeys_found rfl (K.obeys_found rfl (K.obeys_found rfl ?_))
  refine K.obeys_bind (K.obeys_present hc) fun v => ?_
  exact K.obeys_bind (K.obeys_assign (hall _ nofun nofun)) fun _ => K.obeys_pure v

theorem obeys_prompting (hc : ∀ c, c? = some c → K.Obeys (eval c)) :
    K.Obeys (evalInput eval ⟨tag, [slotOf c?]⟩) := by
  refine K.obeys_found rfl (K.obeys_found (child?_eq rfl) ?_)
  refine K.obeys_bind (K.obeys_writePrompt (hall _ nofun nofun) hc) fun _ => ?_
  refine K.obeys_bind (K.obeys_readLine (hall _ nofun nofun)) fun line? => ?_
  cases line? with
  | none => exact K.obeys_fault _
  | some line => exact K.obeys_pure (inputValue line)

/-- Where the second condition is missing, its branch is never come to. -/
theorem obeys_oneCondition {o : Operand} (ht : K.Obeys (eval test)) (hb : K.Obeys (eval branch))
    (hc : ∀ c, c? = some c → K.Obeys (eval c)) :
    K.Obeys (evalChoice eval
      ⟨tag, [test.toOperand, branch.toOperand, .nil, o, slotOf c?]⟩) := by
  refine K.obeys_found rfl (K.obeys_found rfl ?_)
  refine K.obeys_bind (K.obeys_condition (hall _ nofun nofun) ht) fun holds => ?_
  split
  · exact K.obeys_found rfl hb
  · exact K.obeys_found rfl (K.obeys_found (child?_eq rfl) (K.obeys_optional hc))

/-- A choice with two conditions and perhaps a last branch. -/
theorem obeys_twoConditions (ht : K.Obeys (eval test)) (hb : K.Obeys (eval branch))
    (ht' : K.Obeys (eval test')) (hb' : K.Obeys (eval branch'))
    (hc : ∀ c, c? = some c → K.Obeys (eval c)) :
    K.Obeys (evalChoice eval ⟨tag, [test.toOperand, branch.toOperand, test'.toOperand,
      branch'.toOperand, slotOf c?]⟩) := by
  refine K.obeys_found rfl (K.obeys_found rfl ?_)
  refine K.obeys_bind (K.obeys_condition (hall _ nofun nofun) ht) fun holds => ?_
  -- The second condition is evaluated only if the first one fails.
  split
  · exact K.obeys_found rfl hb
  · have htest := K.obeys_condition (hall _ nofun nofun) ht'
    refine K.obeys_found rfl (K.obeys_bind htest fun holds' => ?_)
    split
    · exact K.obeys_found rfl hb'
    · exact K.obeys_found (child?_eq rfl) (K.obeys_optional hc)

omit hall in
/-- A new block with as many dimensions as its tag says. -/
theorem obeys_dimensions (hlen : cs.length = rank) (hroom : rank ≤ maxRoom ∨ K.Allows .panic)
    (he : ∀ c ∈ cs, K.Obeys (eval c)) :
    K.Obeys (evalArrayNew eval rank ⟨tag, cs.map Tree.toOperand⟩) := by
  have hmax := maxRoom_lt_maxSize
  refine K.obeys_found (Tree.expectArity_eq (by simp [hlen])) ?_
  have htrees : K.Obeys (eval.children ⟨tag, cs.map Tree.toOperand⟩ 0 rank) := by
    refine K.obeys_trees (hroom.imp_left fun h => ⟨by omega, h⟩) (fun i hi => ?_) he
    exact ⟨cs[i], List.getElem_mem _, by simp [hlen, hi]⟩
  refine K.obeys_bind htrees fun dims => K.obeys_bind K.obeys_heap fun _ => ?_
  refine K.obeys_bind (K.obeys_checked _) fun sides => ?_
  refine K.obeys_bind (K.obeys_growth fun h => Heap.extends_zeroed sides h) fun id => ?_
  exact K.obeys_pure _

omit hall in
/-- The indices behind the name of an array. There may be more operands behind them. -/
theorem obeys_indices (hlen : rank ≤ cs.length) (hroom : rank < maxRoom ∨ K.Allows .panic)
    (he : ∀ c ∈ cs, K.Obeys (eval c)) :
    K.Obeys (eval.children ⟨tag, .token name :: cs.map Tree.toOperand⟩ 1 rank) := by
  have hmax := maxRoom_lt_maxSize
  refine K.obeys_trees (hroom.imp_left fun h => ⟨by omega, by omega⟩) (fun i hi => ?_) he
  have hlt : i < cs.length := by omega
  exact ⟨cs[i], List.getElem_mem _, by simp [Nat.add_comm 1 i, hlt]⟩

/-- An access with as many coordinates as its tag says. -/
theorem obeys_element_read (hlen : cs.length = rank) (hroom : rank < maxRoom ∨ K.Allows .panic)
    (he : ∀ c ∈ cs, K.Obeys (eval c)) :
    K.Obeys (evalArrayAccess eval rank ⟨tag, .token name :: cs.map Tree.toOperand⟩) := by
  have hmax := maxRoom_lt_maxSize
  refine K.obeys_size (hroom.imp_left fun h => addSizes_of_le (by omega)) fun arity hsum => ?_
  obtain rfl := (addSizes_eq_ok_iff.mp hsum).2
  refine K.obeys_found (Tree.expectArity_eq (by simp [hlen])) (K.obeys_found rfl ?_)
  refine K.obeys_bind (K.obeys_namedArray (hall _ nofun nofun)) fun id => ?_
  refine K.obeys_bind (K.obeys_indices (Nat.le_of_eq hlen.symm) hroom he) fun indices => ?_
  refine K.obeys_bind K.obeys_heap fun _ => K.obeys_bind (K.obeys_checked _) fun positions => ?_
  exact K.obeys_pure _

/-- The value to be written is the last operand. -/
theorem obeys_element_written (hlen : cs.length = rank + 1)
    (hroom : rank < maxRoom ∨ K.Allows .panic) (he : ∀ c ∈ cs, K.Obeys (eval c)) :
    K.Obeys (evalArrayAssign eval rank ⟨tag, .token name :: cs.map Tree.toOperand⟩) := by
  have hmax : maxRoom + 1 ≤ maxSize := maxRoom_lt_maxSize
  have hlt : rank < cs.length := by omega
  refine K.obeys_size (hroom.imp_left fun h => addSizes_of_le (by omega)) fun arity hsum => ?_
  obtain rfl := (addSizes_eq_ok_iff.mp hsum).2
  refine K.obeys_found (Tree.expectArity_eq (by simp [hlen])) (K.obeys_found rfl ?_)
  refine K.obeys_bind (K.obeys_namedArray (hall _ nofun nofun)) fun id => ?_
  refine K.obeys_bind (K.obeys_indices (Nat.le_of_lt hlt) hroom he) fun indices => ?_
  refine K.obeys_size (hroom.imp_left fun h => addSizes_of_le (by omega)) fun place hplace => ?_
  obtain rfl := (addSizes_eq_ok_iff.mp hplace).2
  -- The value stands behind the coordinates.
  refine K.obeys_found (child_eq (c := cs[rank]) (by simp [hlt])) ?_
  refine K.obeys_bind (K.obeys_present (he _ (List.getElem_mem _))) fun v => ?_
  refine K.obeys_bind K.obeys_heap fun _ => K.obeys_bind (K.obeys_checked _) fun positions => ?_
  refine K.obeys_bind K.obeys_heap fun _ => K.obeys_bind (K.obeys_checked _) fun slot => ?_
  exact K.obeys_bind (K.obeys_element (hall _ nofun nofun)) fun _ => K.obeys_pure v

end Discipline

/-- A well-formed tree obeys a discipline that need not allow for refusals, nor for panics
    if the tree can be stored. -/
theorem NestedDiscipline.obeys_wellFormed (K : NestedDiscipline)
    (hall : ∀ e, e ≠ .refusal → e ≠ .panic → K.Allows e) (limits : Limits) {t : Tree}
    (ht : WellFormed t) (hroom : t.isStorable = true ∨ K.Allows .panic) :
    K.Obeys (evalTree limits t) := by
  -- The form of the tree is the one that the rule of well-formed trees is about.
  have hstep : ∀ {t form}, Form.ofTag? t.tag = some form →
      K.Obeys (evalForm (evalTree limits) limits.rounds t form) → K.Obeys (evalTree limits t) := by
    intro t form hform h
    rw [evalTree_eq, dispatch_of_form hform]
    exact K.obeys_nested (K.obeys_fault _) h
  -- A tree among the operands can be stored if the tree can.
  have hin : ∀ {t c : Tree}, t.isStorable = true ∨ K.Allows .panic → c.toOperand ∈ t.operands →
      c.isStorable = true ∨ K.Allows .panic :=
    fun h hc => h.imp_left fun h => Tree.every_of_mem_operands h hc
  have hlength : ∀ {t : Tree}, t.isStorable = true ∨ K.Allows .panic →
      t.operands.length ≤ maxRoom ∨ K.Allows .panic :=
    fun h => h.imp_left Tree.length_le_of_isStorable
  induction ht with
  | unknown hf =>
      rw [evalTree_eq, dispatch_of_none hf]
      exact K.obeys_nested (K.obeys_fault _) (K.obeys_pure _)
  | wrapping hf hw _ ih =>
      exact hstep hf (K.obeys_wrapping hall hw (ih (hin hroom List.mem_cons_self)))
  | @sequence tag form cs hf hs _ ih =>
      refine hstep hf (K.obeys_sequence hall hs fun c hc => ih c hc (hroom.imp_left fun h => ?_))
      have hitems := Tree.every_operandAt? (s := .operand 0) h rfl
      exact Operand.every_of_mem hitems (List.mem_map_of_mem hc)
  | pair hf hp _ _ iha ihb =>
      exact hstep hf (K.obeys_pair hall hp (iha (hin hroom (by simp))) (ihb (hin hroom (by simp))))
  | word hf hn => exact hstep hf (K.obeys_word hall hn)
  | number hf hw => exact hstep hf (K.obeys_literal hw)
  | mark hf hm => exact hstep hf (K.obeys_marked hm)
  | assign hf _ ih => exact hstep hf (K.obeys_assigning hall (ih (hin hroom (by simp))))
  | input hf _ ih =>
      refine hstep hf (K.obeys_prompting hall ?_)
      rintro c rfl
      exact ih c rfl (hin hroom (by simp [slotOf]))
  | choice hf _ _ _ iht ihb ihc =>
      refine hstep hf (K.obeys_oneCondition hall (iht (hin hroom (by simp)))
        (ihb (hin hroom (by simp))) ?_)
      rintro c rfl
      exact ihc c rfl (hin hroom (by simp [slotOf]))
  | choiceOfTwo hf _ _ _ _ _ iht ihb iht' ihb' ihc =>
      refine hstep hf (K.obeys_twoConditions hall (iht (hin hroom (by simp)))
        (ihb (hin hroom (by simp))) (iht' (hin hroom (by simp))) (ihb' (hin hroom (by simp))) ?_)
      rintro c rfl
      exact ihc c rfl (hin hroom (by simp [slotOf]))
  | arrayNew hf hlen _ ih =>
      have hsmall := hlength hroom
      simp only [List.length_map, hlen] at hsmall
      refine hstep hf (K.obeys_dimensions hlen hsmall fun c hc => ih c hc (hin hroom ?_))
      exact List.mem_map_of_mem hc
  | arrayAccess hf hlen _ ih =>
      have hsmall := hlength hroom
      simp only [List.length_cons, List.length_map, hlen] at hsmall
      refine hstep hf (K.obeys_element_read hall hlen hsmall fun c hc => ih c hc (hin hroom ?_))
      exact List.mem_cons_of_mem _ (List.mem_map_of_mem hc)
  | arrayAssign hf hlen _ ih =>
      have hsmall := (hlength hroom).imp_left Nat.le_of_succ_le
      simp only [List.length_map, hlen] at hsmall
      refine hstep hf (K.obeys_element_written hall hlen hsmall fun c hc => ih c hc (hin hroom ?_))
      exact List.mem_cons_of_mem _ (List.mem_map_of_mem hc)

/-- A failure that says that a tree is malformed. -/
def Failure.isRefusal : Failure → Bool
  | .malformed _ => true
  | _ => false

/-- The actions that refuse no tree, on whatever machine. They may have every other
    effect. -/
def soundDiscipline : NestedDiscipline where
  Obeys a := ∀ m, Ends a m (fun _ _ => True) fun e _ => e.isRefusal = false
  Allows e := e ≠ .refusal
  obeys_pure _ _ := trivial
  obeys_bind ha hf m := by
    rw [ends_bind]
    exact (ha m).mono (fun v m' _ => hf v m') fun _ _ he => he
  obeys_fault _ _ := rfl
  obeys_heap _ := trivial
  obeys_growth _ _ := trivial
  obeys_lookup _ _ := trivial
  obeys_assign _ _ := trivial
  obeys_element _ _ := trivial
  obeys_write _ _ := ends_write trivial rfl
  obeys_readLine _ _ := ends_readLine (fun _ => trivial) rfl
  obeys_unfinished _ _ := rfl
  obeys_refusal h := absurd rfl h
  obeys_panic _ _ := rfl
  obeys_guarded _ ha m := by
    rw [guarded, ends_recover]
    refine (ha m).mono (fun _ _ h => h) fun e m' he => ?_
    cases e with
    | fault f => exact ends_bind.mpr (ends_write trivial rfl)
    | _ => exact he
  obeys_currentDepth _ := trivial
  obeys_deeper ha m := ends_deeper.mpr (ha m.entered)

/-- A well-formed tree is never refused as malformed, whatever the machine and the bounds
    are, and its faults are reported: it yields a value unless a stream fails, or a loop
    in it has not come to its end in as many rounds as it may run. It panics only if it is
    too large to be stored. -/
theorem well_formed_trees_are_never_refused (limits : Limits) {t : Tree} (ht : WellFormed t)
    (m : Machine) : Ends (evaluate limits t) m (fun _ _ => True)
      fun e _ => (∃ s, e = .stream s) ∨ e = .unfinished ∨
        (∃ p, e = .panicked p) ∧ t.isStorable = false := by
  have hsound := soundDiscipline.obeys_guarded nofun
    (soundDiscipline.obeys_wellFormed (fun _ h _ => h) limits ht (.inr nofun))
  cases hr : evaluate limits t m with
  | ok v m' => exact ends_of_ok hr trivial
  | error e m' =>
      have he : e.isRefusal = false := (hsound m).of_error hr
      refine ends_of_error hr ?_
      -- A bare fault does not get through the guard, and a refusal is excluded by the shape.
      cases e with
      | fault f => exact absurd hr (guarded_ne_fault _ m m' f)
      | malformed e => cases he
      | stream s => exact .inl ⟨s, rfl⟩
      | unfinished => exact .inr (.inl rfl)
      | panicked p =>
          refine .inr (.inr ⟨⟨p, rfl⟩, Bool.eq_false_iff.mpr fun hroom => ?_⟩)
          -- A tree that can be stored asks for no size that is too great.
          have hcalm := calmDiscipline.obeys_guarded nofun
            (calmDiscipline.obeys_wellFormed (fun _ _ h => h) limits ht (.inl hroom))
          exact (hcalm m).of_error hr p rfl

/-- A choice without a second condition, whose branch is no tree at all. -/
def choiceWithoutBranch : Tree :=
  ⟨"if-elif-else", [.tree "number" [.token "0"], .tree "pass" [], .nil, .token "no branch", .nil]⟩

/-- Nothing is asked of the place behind the empty slot. -/
theorem wellFormed_choiceWithoutBranch : WellFormed choiceWithoutBranch := by
  have htest : WellFormed ⟨"number", [.token "0"]⟩ := .number rfl (by decide +kernel)
  have hbranch : WellFormed ⟨"pass", []⟩ := .mark rfl rfl
  have hotherwise : ∀ c, none = some c → WellFormed c := nofun
  exact .choice rfl htest hbranch hotherwise

/-- It is small enough to be stored, so that it does not panic either. -/
theorem well_formed_trees_are_never_refused_branch :
    WellFormed choiceWithoutBranch ∧ choiceWithoutBranch.isStorable = true ∧
      Ends (evaluate ⟨8, 8⟩ choiceWithoutBranch) (.start [] (some 0)) (fun _ _ => True)
        fun e _ => (∃ s, e = .stream s) ∨ e = .unfinished := by
  have hroom : choiceWithoutBranch.isStorable = true := by decide
  have hends := well_formed_trees_are_never_refused ⟨8, 8⟩ wellFormed_choiceWithoutBranch
    (.start [] (some 0))
  refine ⟨wellFormed_choiceWithoutBranch, hroom, hends.mono (fun _ _ h => h) fun e m' he => ?_⟩
  rcases he with hstream | hunfinished | ⟨_, hlarge⟩
  · exact .inl hstream
  · exact .inr hunfinished
  · cases hroom.symm.trans hlarge

end TreeScript
