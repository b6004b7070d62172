import TreeScript.Proofs.Upheld

/-!
# What Forms Yield

The mark that a loop is to be left is a value, but few forms can yield it. Most forms make
their value themselves, or have made sure that it is present, so that what they yield is no
mark on any machine. A name, an index and a list of positions yield what they find on the
machine, so no mark either if the machine does not keep one. The other forms pass on the
value of a tree inside, and they are not in question here.

For the forms that make their value nothing is asked of the trees inside: `YieldsOnly`
holds for every evaluator, since only the last action of a sequence decides. The forms
that find their value are the ones where the machine comes in, and with it an evaluator
that keeps the machine free of marks. Kept apart like this, the first kind needs no
invariant, and the second one no look at what is made.

## Main definitions

* `YieldsOnly`: A condition on the values that an action can yield.
* `Machine.Unbroken`, `unbrokenInvariant`: A machine that does not keep the mark.

## Theorems

* `yieldsOnly_form`: Forms that make their value.
* `keeps_found`: Forms that find their value on the machine.
* `yieldsOnly_bind`, `yieldsOnly_last`: A sequence yields what its second action yields.
* `yieldsOnly_operand`, `yieldsOnly_present`: Operands are no marks.
* `yieldsOnly_rounds`: A loop yields no mark, since it takes the one of its body away.
* `Machine.Unbroken.holds`, `Invariant.Holds.unbroken`: A machine without marks, as an
  invariant.
* `Machine.Unbroken.after_ok`: After an evaluation the machine is still without marks.
-/

namespace TreeScript

/-- A value that is not the mark. -/
def Value.NoBreak (v : Value) : Prop := v.isBreak = false

/-- No name is bound to the mark, and no array holds it. -/
structure Machine.Unbroken (m : Machine) : Prop where
  bound : ∀ name v, m.store.get? name = some v → v.NoBreak
  elements : ∀ id v, v ∈ m.heap.items id → v.NoBreak

variable {α β : Type} {eval : Evaluator} {allowed : Nat} {t : Tree} {m m' : Machine}
  {form : Form} {a : Action α}

/-- The values that an action yields, if it yields any, fulfil a condition. -/
def YieldsOnly (P : α → Prop) (a : Action α) : Prop :=
  ∀ m, Ends a m (fun v _ => P v) fun _ _ => True

theorem yieldsOnly_any (a : Action α) : YieldsOnly (fun _ => True) a := by
  intro m
  cases hr : a m with
  | ok v m' => exact ends_of_ok hr trivial
  | error e m' => exact ends_of_error hr trivial

theorem yieldsOnly_pure {P : α → Prop} {v : α} (hv : P v) : YieldsOnly P (pure v) := fun _ => hv

theorem yieldsOnly_throw {P : α → Prop} {e : Failure} : YieldsOnly P (throw e) := fun _ => trivial

/-- What a sequence yields is what its second action yields. -/
theorem yieldsOnly_bind {P : α → Prop} {Q : β → Prop} {f : α → Action β} (ha : YieldsOnly P a)
    (hf : ∀ v, P v → YieldsOnly Q (f v)) : YieldsOnly Q (a >>= f) := by
  intro m
  rw [ends_bind]
  exact (ha m).mono (fun v m' hv => hf v hv m') fun _ _ he => he

/-- What is yielded depends on the last action only. -/
theorem yieldsOnly_last {Q : β → Prop} {f : α → Action β} (hf : ∀ v, YieldsOnly Q (f v)) :
    YieldsOnly Q (a >>= f) :=
  yieldsOnly_bind (yieldsOnly_any a) fun v _ => hf v

theorem yieldsOnly_checked {P : α → Prop} {x : Except Fault α} (hx : ∀ v, x = .ok v → P v) :
    YieldsOnly P (liftM x) := by
  intro m
  rw [ends_checked]
  exact ⟨hx, fun _ _ => trivial⟩

theorem Value.Plain.noBreak {v : Value} (h : v.Plain) : v.NoBreak := by
  cases h <;> rfl

/-- A value used as an operand is never a break mark, since `operand` turns the mark into a
    failure. -/
theorem yieldsOnly_operand (eval : Evaluator) (t : Tree) :
    YieldsOnly Value.NoBreak (eval.operand t) := by
  refine yieldsOnly_last fun v => ?_
  split
  · exact yieldsOnly_throw
  · rename_i hv
    exact yieldsOnly_pure (Bool.eq_false_iff.mpr hv)

theorem yieldsOnly_present (eval : Evaluator) (t : Tree) :
    YieldsOnly Value.NoBreak (eval.present t) := by
  refine yieldsOnly_bind (yieldsOnly_operand eval t) fun v hv => ?_
  split
  · exact yieldsOnly_throw
  · exact yieldsOnly_pure hv

theorem yieldsOnly_settle {own : Value → Prop} {p : Produced} (hp : p.From own) :
    YieldsOnly Value.NoBreak (settle p) := by
  intro m
  cases hp with
  | plain hv => exact hv.noBreak
  | fresh _ => exact (rfl : Value.NoBreak (.array _))

/-- A loop yields nothing, so no break comes out of it. -/
theorem yieldsOnly_rounds (eval : Evaluator) (test body : Tree) (n : Nat) :
    YieldsOnly Value.NoBreak (rounds eval test body n) := by
  induction n with
  | zero => exact yieldsOnly_throw
  | succ n ih =>
      refine yieldsOnly_last fun holds => ?_
      split
      · refine yieldsOnly_last fun v => ?_
        split
        · exact yieldsOnly_pure rfl
        · exact ih
      · exact yieldsOnly_pure rfl

/-- An increment yields a number. -/
theorem yieldsOnly_step (op : ArithOp) (name : String) :
    YieldsOnly Value.NoBreak (evalStep op name) := by
  refine yieldsOnly_last fun found => ?_
  cases found with
  | none => exact yieldsOnly_throw
  | some current =>
      refine yieldsOnly_last fun h => ?_
      refine yieldsOnly_bind (yieldsOnly_checked fun p hp => Heap.arith_from hp) fun p hp => ?_
      refine yieldsOnly_bind (yieldsOnly_settle hp) fun v hv => ?_
      exact yieldsOnly_last fun _ => yieldsOnly_pure hv

/-- Whether the value of the form is made by the form itself. -/
def Form.makes : Form → Bool
  | .paren | .statementExpr | .statements | .choice | .leave => false
  | .name | .index | .arrayAccess _ => false
  | _ => true

/-- Forms that make their value, and those that have made sure that it is present, do not
    yield the mark. -/
theorem yieldsOnly_form (hf : form.makes = true) :
    YieldsOnly Value.NoBreak (evalForm eval allowed t form) := by
  -- Only the last action of each form matters.
  cases form with
  | main =>
      refine yieldsOnly_last fun _ => yieldsOnly_last fun _ => ?_
      exact yieldsOnly_last fun _ => yieldsOnly_pure rfl
  | assign =>
      refine yieldsOnly_last fun _ => yieldsOnly_last fun _ => yieldsOnly_last fun c => ?_
      refine yieldsOnly_bind (yieldsOnly_present eval c) fun v hv => ?_
      exact yieldsOnly_last fun _ => yieldsOnly_pure hv
  | number =>
      refine yieldsOnly_last fun _ => yieldsOnly_last fun w => ?_
      split
      · exact yieldsOnly_pure rfl
      · exact yieldsOnly_throw
  | text => exact yieldsOnly_last fun _ => yieldsOnly_last fun w => yieldsOnly_pure rfl
  | list =>
      refine yieldsOnly_last fun _ => yieldsOnly_last fun _ => yieldsOnly_last fun elements => ?_
      refine yieldsOnly_last fun _ => yieldsOnly_last fun _ => ?_
      have hfresh : Produced.From (fun _ => True) (.fresh elements.toArray) :=
        .fresh fun _ _ => trivial
      exact yieldsOnly_settle hfresh
  | binary op =>
      refine yieldsOnly_last fun _ => yieldsOnly_last fun _ => yieldsOnly_last fun left => ?_
      refine yieldsOnly_last fun _ => yieldsOnly_last fun right => yieldsOnly_last fun h => ?_
      refine yieldsOnly_bind (yieldsOnly_checked fun p hp => Heap.binary_from hp) fun p hp => ?_
      exact yieldsOnly_settle hp
  | unary op =>
      refine yieldsOnly_last fun _ => ?_
      cases op with
      | negate =>
          refine yieldsOnly_last fun _ => yieldsOnly_last fun v => ?_
          exact yieldsOnly_checked fun w hw => (negate_plain hw).noBreak
      | increment => exact yieldsOnly_last fun name => yieldsOnly_step .add name
      | decrement => exact yieldsOnly_last fun name => yieldsOnly_step .sub name
  | pass => exact yieldsOnly_last fun _ => yieldsOnly_pure rfl
  | print =>
      refine yieldsOnly_last fun _ => yieldsOnly_last fun c => ?_
      refine yieldsOnly_bind (yieldsOnly_operand eval c) fun v hv => ?_
      exact yieldsOnly_last fun _ => yieldsOnly_last fun _ => yieldsOnly_pure hv
  | input =>
      refine yieldsOnly_last fun _ => yieldsOnly_last fun _ => yieldsOnly_last fun _ => ?_
      refine yieldsOnly_last fun line? => ?_
      cases line? with
      | none => exact yieldsOnly_throw
      | some line => exact yieldsOnly_pure (inputValue_plain line).noBreak
  | loop =>
      refine yieldsOnly_last fun _ => yieldsOnly_last fun test => yieldsOnly_last fun body => ?_
      exact yieldsOnly_rounds eval test body allowed
  | arrayNew rank =>
      refine yieldsOnly_last fun _ => yieldsOnly_last fun _ => yieldsOnly_last fun _ => ?_
      exact yieldsOnly_last fun _ => yieldsOnly_last fun _ => yieldsOnly_pure rfl
  | arrayAssign rank =>
      refine yieldsOnly_last fun _ => yieldsOnly_last fun _ => yieldsOnly_last fun _ => ?_
      refine yieldsOnly_last fun _ => yieldsOnly_last fun _ => yieldsOnly_last fun _ => ?_
      refine yieldsOnly_last fun c => ?_
      refine yieldsOnly_bind (yieldsOnly_present eval c) fun v hv => ?_
      refine yieldsOnly_last fun _ => yieldsOnly_last fun _ => ?_
      refine yieldsOnly_last fun _ => yieldsOnly_last fun _ => ?_
      exact yieldsOnly_last fun _ => yieldsOnly_pure hv
  | _ => cases hf

/-- Neither arrays nor bindings hold the mark. -/
def unbrokenInvariant : Invariant where
  arrays h := ∀ id v, v ∈ h.items id → v.NoBreak
  data _ v := v.NoBreak
  data_plain := Value.Plain.noBreak
  data_element := fun ha _ hv => ha _ _ hv
  data_alloc := id
  data_set := id
  alloc := by
    intro h items ha hitems _
    refine ⟨fun id v hv => ?_, rfl⟩
    rw [Heap.items_alloc] at hv
    split at hv
    · exact hitems v hv
    · exact ha id v hv
  set := by
    intro h id i v ha _ _ hv _ other w hw
    rcases Heap.mem_items_set hw with ⟨rfl, _⟩ | hold
    · exact hv
    · exact ha other w hold

theorem Machine.Unbroken.holds (h : m.Unbroken) : unbrokenInvariant.Holds m :=
  ⟨h.elements, h.bound⟩

theorem Invariant.Holds.unbroken (h : unbrokenInvariant.Holds m) : m.Unbroken := ⟨h.bound, h.arrays⟩

/-- A form that looks for its value on the machine does not find the mark there. -/
theorem keeps_found (he : unbrokenInvariant.Respects eval)
    (hf : form = .name ∨ form = .index ∨ ∃ rank, form = .arrayAccess rank) :
    unbrokenInvariant.Keeps m (evalForm eval allowed t form) fun v _ => v.NoBreak := by
  rcases hf with rfl | rfl | ⟨rank, rfl⟩
  · refine Invariant.keeps_shape fun _ => Invariant.keeps_shape fun name => ?_
    refine Invariant.keeps_lookup fun found hfound => ?_
    cases found with
    | none => exact Invariant.keeps_throw
    | some v => exact Invariant.keeps_pure (hfound v rfl)
  · refine Invariant.keeps_shape fun _ => Invariant.keeps_shape fun b => ?_
    refine Invariant.keeps_bind (Invariant.keeps_operand he b m) fun base m₁ _ _ => ?_
    refine Invariant.keeps_shape fun c => ?_
    refine Invariant.keeps_bind (Invariant.keeps_operand he c m₁) fun i m₂ _ _ => ?_
    refine Invariant.keeps_heap fun harrays => Invariant.keeps_result fun v hv => ?_
    -- A character of a text is no mark, and an element is none since the heap keeps none.
    rcases Heap.index_from hv with hplain | ⟨id, _, hmem⟩
    · exact hplain.noBreak
    · exact harrays id v hmem
  · refine Invariant.keeps_size fun _ => Invariant.keeps_shape fun _ => ?_
    refine Invariant.keeps_shape fun name => ?_
    refine Invariant.keeps_bind (Invariant.keeps_namedArray name) fun id m₁ _ _ => ?_
    refine Invariant.keeps_bind (Invariant.keeps_children he t 1 rank m₁) fun indices m₂ _ _ => ?_
    refine Invariant.keeps_heap fun harrays => Invariant.keeps_checked fun positions _ => ?_
    refine Invariant.keeps_pure ?_
    cases hfound : m₂.heap.elementAt id positions with
    | none => exact (rfl : Value.NoBreak .absent)
    | some v =>
        exact Heap.elementAt_keeps (P := Value.NoBreak) (fun id v _ hmem => harrays id v hmem)
          rfl hfound

theorem Machine.Unbroken.after_ok {P : α → Machine → Prop} {v : α} (hm : m.Unbroken)
    (ha : unbrokenInvariant.Keeps m a P) (hr : a m = .ok v m') : m'.Unbroken :=
  ((ha hm.holds).of_ok hr).1.holds.unbroken

end TreeScript
