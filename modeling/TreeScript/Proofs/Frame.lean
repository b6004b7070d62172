import TreeScript.Proofs.ArrayNesting
import TreeScript.Proofs.Limit

/-!
# What Failing Statements Leave

An expression that is built of pure forms changes nothing that is there: it may
make arrays, but no binding and no element is another one afterwards, and the
streams are not used. A statement that binds a name, steps a variable or writes an
element does so last, after its operands have been evaluated and everything has
been checked. So if its operands are pure, it changes one thing if it succeeds, and
nothing if it does not, however deep inside the failure arises.

There is one end that none of this speaks of. A form of an array whose operands cannot be
counted gives up the whole run, and may stand in an expression that is pure otherwise.
Nothing has been changed then either, but nobody is told: `Concludes` has the panic as a
case of its own, for trees that ask for too great a size and for no others.

## Main definitions

* `Form.isPure`, `Tree.isPure`: Expressions without effects.
* `Machine.Unchanged`: A machine on which at most new arrays are there.
* `Concludes`: The three ends of a statement, and the panic.
* `Changes`: The one thing that a statement changes.
* `Machine.Closed`: A machine without references to arrays that are not there.

## Theorems

* `unchanged_of_pure`: Pure expressions change nothing, whatever they yield.
* `closed_of_reached`: Machines with a history are closed.
* `ends_writer`: A statement changes one thing or nothing.
* `failing_statements_change_nothing`: The ends of pure expressions and of the
  statements around them.
-/

namespace TreeScript

/-- Whether a form has no effect but to look up a name. -/
def Form.isPure : Form → Bool
  | .name | .number | .text | .list | .index | .paren | .statementExpr | .pass | .leave => true
  | .binary _ | .unary .negate | .arrayNew _ | .arrayAccess _ => true
  | _ => false

/-- Whether a tree is built of pure forms only. -/
def Tree.isPure (t : Tree) : Bool := t.every fun u => (Form.ofTag? u.tag).any Form.isPure

/-- The second machine is the first one, but for new arrays. -/
structure Machine.Unchanged (m m' : Machine) : Prop where
  store : m'.store = m.store
  heap : m.heap.Extends m'.heap
  input : m'.input = m.input
  output : m'.output = m.output
  depth : m'.depth = m.depth

variable {m m₀ m' : Machine} {α β : Type} {a : Action α} {f : α → Action β} {t : Tree}
  {eval : Evaluator}

theorem unchanged_refl (m : Machine) : m.Unchanged m :=
  ⟨rfl, Heap.extends_refl m.heap, rfl, rfl, rfl⟩

theorem Machine.Unchanged.trans (h : m₀.Unchanged m) (h' : m.Unchanged m') : m₀.Unchanged m' :=
  ⟨h'.store.trans h.store, h.heap.trans h'.heap, h'.input.trans h.input,
    h'.output.trans h.output, h'.depth.trans h.depth⟩

/-- What is not changed one level deeper is not changed. -/
theorem Machine.Unchanged.exited (h : m.entered.Unchanged m') : m.Unchanged m'.exited :=
  ⟨h.store, h.heap, h.input, h.output, by rw [depth_exited, h.depth]; rfl⟩

/-- A failure of a program that does not use the streams, and that leaves the machine as it
    was. -/
inductive FailsUnchanged (m : Machine) : Failure → Machine → Prop where
  | fault (f : Fault) {m' : Machine} : m.Unchanged m' → FailsUnchanged m (.fault f) m'
  | malformed (e : ShapeError) {m' : Machine} : m.Unchanged m' → FailsUnchanged m (.malformed e) m'
  | panicked (p : Panic) {m' : Machine} : m.Unchanged m' → FailsUnchanged m (.panicked p) m'

/-- A failure in a stretch that changes nothing, after one that changes nothing. -/
theorem FailsUnchanged.trans {e : Failure} (h : m₀.Unchanged m) (he : FailsUnchanged m e m') :
    FailsUnchanged m₀ e m' := by
  cases he with
  | fault f h' => exact .fault f (h.trans h')
  | malformed e h' => exact .malformed e (h.trans h')
  | panicked p h' => exact .panicked p (h.trans h')

/-- Leaving a level does not turn a clean failure into another one. -/
theorem FailsUnchanged.exited {e : Failure} (he : FailsUnchanged m.entered e m') :
    FailsUnchanged m e m'.exited := by
  cases he with
  | fault f h => exact .fault f h.exited
  | malformed e h => exact .malformed e h.exited
  | panicked p h => exact .panicked p h.exited

/-- The actions that change nothing. They may look up names, and fail. -/
def frameDiscipline : NestedDiscipline where
  Obeys a := ∀ m, Ends a m (fun _ m' => m.Unchanged m') (FailsUnchanged m)
  Allows
    | .lookup _ => True
    | .refusal => True
    | .panic => True
    | _ => False
  obeys_pure v m := unchanged_refl m
  obeys_bind ha hf m := by
    rw [ends_bind]
    refine (ha m).mono (fun v m' h => ?_) fun _ _ he => he
    exact (hf v m').mono (fun _ _ h' => h.trans h') fun _ _ he => he.trans h
  obeys_fault f m := .fault f (unchanged_refl m)
  obeys_heap m := unchanged_refl m
  obeys_growth hf m := ⟨rfl, hf m.heap, rfl, rfl, rfl⟩
  obeys_lookup _ m := unchanged_refl m
  obeys_assign h := h.elim
  obeys_element h := h.elim
  obeys_write h := h.elim
  obeys_readLine h := h.elim
  obeys_unfinished h := h.elim
  obeys_refusal _ m := .malformed _ (unchanged_refl m)
  obeys_panic _ m := .panicked _ (unchanged_refl m)
  obeys_guarded h := h.elim
  obeys_currentDepth m := unchanged_refl m
  obeys_deeper ha m := ends_deeper.mpr
    ((ha m.entered).mono (fun _ _ h => h.exited) fun _ _ he => he.exited)

/-- The pure forms have none of the three effects that write. -/
theorem allows_of_isPure {form : Form} (h : form.isPure = true) :
    ∀ e ∈ form.effects t, frameDiscipline.Allows e := by
  intro e he
  -- Pure forms look up a name at most, and may ask for sizes that are too great.
  have hname : ∀ e ∈ t.onName .lookup, frameDiscipline.Allows e := by
    intro e he
    unfold Tree.onName at he
    split at he
    · cases List.mem_singleton.mp he
      trivial
    · cases he
  have hsizes : ∀ rank surplus, ∀ e ∈ t.onSizes rank surplus, frameDiscipline.Allows e := by
    intro rank surplus e he
    unfold Tree.onSizes at he
    split at he
    · cases he
    · cases List.mem_singleton.mp he
      trivial
  cases form with
  | name => exact hname e he
  | arrayNew rank => exact hsizes rank 0 e he
  | arrayAccess rank => exact (List.mem_append.mp he).elim (hsizes rank 1 e) (hname e)
  | unary op =>
      cases op with
      | negate => cases he
      | _ => cases h
  | assign | print | input | choice | loop | main | statements | arrayAssign => cases h
  | _ => cases he

/-- Pure expressions change nothing, whatever they yield. -/
theorem unchanged_of_pure (limits : Limits) (ht : t.isPure = true) :
    frameDiscipline.Obeys (evalTree limits t) := by
  refine frameDiscipline.obeys_evalTree limits trivial (S := fun u => u.isPure = true)
    (fun u s c hu hc => Tree.every_inside hu hc) (fun u hu form hform => ?_) t ht
  have hpure := Tree.every_self hu
  rw [hform] at hpure
  exact allows_of_isPure hpure

/-- The line that tells of a fault. -/
def Fault.diagnostic (f : Fault) : String := "as says: " ++ f.message ++ "\n"

/-- The ends of a tree that is evaluated on its own. It succeeds, with an effect. Or a
    fault arises in it, and all that comes of that is one diagnostic. Or it is refused
    because it is malformed, and nothing comes of it. If a form in it asks for a size that is
    too great, it may also panic, and nothing comes of it either. -/
inductive Concludes (limits : Limits) (t : Tree) (m : Machine) (effect : Value → Machine → Prop) :
    Prop where
  | succeeds {v : Value} {m' : Machine} : evalTree limits t m = .ok v m' →
      evaluate limits t m = .ok v m' → effect v m' → Concludes limits t m effect
  | reports {f : Fault} {m' : Machine} :
      evalTree limits t m = .error (.fault f) m' → m.Unchanged m' →
      evaluate limits t m = .ok .absent
        { m' with output := ⟨m.output.written ++ f.diagnostic.toUTF8, none⟩ } →
      Concludes limits t m effect
  | refuses {e : ShapeError} {m' : Machine} :
      evaluate limits t m = .error (.malformed e) m' → m.Unchanged m' → Concludes limits t m effect
  | panics {p : Panic} {m' : Machine} : t.isCalm = false →
      evaluate limits t m = .error (.panicked p) m' → m.Unchanged m' → Concludes limits t m effect

/-- A guard turns the fault into its diagnostic, where the output takes it. -/
theorem concludes_of_ends {limits : Limits} {effect : Value → Machine → Prop}
    (hout : m.output.limit = none) (h : Ends (evalTree limits t) m effect (FailsUnchanged m)) :
    Concludes limits t m effect := by
  cases hr : evalTree limits t m with
  | ok v m' => exact .succeeds hr (guarded_of_ok hr) (h.of_ok hr)
  | error e m' =>
      cases h.of_error hr with
      | fault f hm' =>
          refine .reports hr hm' ((recover_of_next hr rfl).trans ?_)
          -- The report is all that is written, since nothing was written before it.
          have hwrite : write f.diagnostic m' = .ok () { m' with
              output := ⟨m.output.written ++ f.diagnostic.toUTF8, none⟩ } := by
            have ho : m'.output = ⟨m.output.written, none⟩ := by
              rw [hm'.output, ← hout]
            rcases m' with ⟨store, heap, input, output, depth⟩
            cases ho
            simp only [write, Output.write_unlimited, if_true]
          exact bind_of_ok hwrite
      | malformed e hm' => exact .refuses (recover_of_error hr rfl) hm'
      | panicked p hm' =>
          -- A calm tree does not panic, so there is a form in it that does.
          refine .panics (Bool.eq_false_iff.mpr fun hcalm => ?_) (recover_of_error hr rfl) hm'
          exact (calm_evalTree limits hcalm m).of_error hr p rfl

/-- A machine on which one name is bound to the value now, and which is the same apart
    from that and from new arrays. -/
structure Machine.Rebinds (m : Machine) (name : String) (v : Value) (m' : Machine) : Prop where
  bound : m'.store.get? name = some v
  others : ∀ other, other ≠ name → m'.store.get? other = m.store.get? other
  heap : m.heap.Extends m'.heap
  input : m'.input = m.input
  output : m'.output = m.output
  depth : m'.depth = m.depth

/-- A machine on which one element is the value now, and which is the same apart from
    that and from new arrays. The element is one of an array that can be reached from
    the array that has the name, and that may have other names too. -/
structure Machine.Rewrites (m : Machine) (name : String) (v : Value) (m' : Machine) : Prop where
  store : m'.store = m.store
  size_le : m.heap.cells.size ≤ m'.heap.cells.size
  slot : ∃ (id : ArrayId) (s : Heap.Slot), m.store.get? name = some (.array id) ∧
    m.heap.Reaches (.array id) s.array ∧ m.heap.Open s.array s.position ∧
    ∀ (other : ArrayId) i, other.index < m.heap.cells.size → m'.heap.get? other i =
      if other = s.array ∧ i = s.position then some v else m.heap.get? other i
  input : m'.input = m.input
  output : m'.output = m.output
  depth : m'.depth = m.depth

/-- The number that comes of stepping a number: one more, or one less. -/
inductive Number.Stepped : ArithOp → Number → Number → Prop where
  | up (m n : Int64) : n.toInt = m.toInt + 1 → Stepped .add (.int m) (.int n)
  | down (m n : Int64) : n.toInt = m.toInt - 1 → Stepped .sub (.int m) (.int n)
  | upFloat (x : Float) : Stepped .add (.float x) (.float (x + 1.0))
  | downFloat (x : Float) : Stepped .sub (.float x) (.float (x - 1.0))

/-- A name that was bound to a number is bound to the next one, which is yielded. -/
def Machine.Steps (m : Machine) (op : ArithOp) (name : String) (v : Value) (m' : Machine) : Prop :=
  ∃ old new, Number.Stepped op old new ∧ m.store.get? name = some (.number old) ∧
    v = .number new ∧ m.Rebinds name v m'

/-- The forms that change a binding or an element. -/
def Form.isWriter : Form → Bool
  | .assign | .unary .increment | .unary .decrement | .arrayAssign _ => true
  | _ => false

/-- What a statement of the form changes when it succeeds. The name is its first operand. -/
def Changes (t : Tree) (m : Machine) (v : Value) (m' : Machine) : Form → Prop
  | .assign => ∃ name, t.token 0 = .ok name ∧ m.Rebinds name v m'
  | .unary .increment => ∃ name, t.token 0 = .ok name ∧ m.Steps .add name v m'
  | .unary .decrement => ∃ name, t.token 0 = .ok name ∧ m.Steps .sub name v m'
  | .arrayAssign _ => ∃ name, t.token 0 = .ok name ∧ m.Rewrites name v m'
  | _ => m.Unchanged m'

/-- No reference leads to an array that is not there. -/
structure Machine.Closed (m : Machine) : Prop where
  bound : ∀ name v, m.store.get? name = some v → m.heap.Stored v
  elements : ∀ id v, v ∈ m.heap.items id → m.heap.Stored v

/-- Machines with a history are closed. -/
theorem closed_of_reached {yielded : List Value} (h : Reached m yielded) : m.Closed := by
  have hstart : ∀ input limit, nestingInvariant.Holds (.start input limit) :=
    fun _ _ => ⟨Heap.layered_empty, fun _ _ hv => by cases hv⟩
  have hm := (Invariant.holds_of_reached hstart h).1
  have hl : m.heap.Layered := hm.arrays
  exact ⟨hm.bound, fun _ _ hv => hl.stored hv⟩

variable {effect : β → Machine → Prop}

/-- What goes on behind a part that changes nothing. The machine at the start is kept in
    mind. -/
theorem ends_unchanged (h : m₀.Unchanged m) (ha : frameDiscipline.Obeys a)
    (hf : ∀ v m', m₀.Unchanged m' → Ends (f v) m' effect (FailsUnchanged m₀)) :
    Ends (a >>= f) m effect (FailsUnchanged m₀) := by
  rw [ends_bind]
  refine (ha m).mono (fun v m' hm' => ?_) fun _ _ he => he.trans h
  exact hf v m' (h.trans hm')

/-- A check of the shape at the start of an action: refusing leaves everything as it is. -/
theorem ends_shape_unchanged (h : m₀.Unchanged m) {x : Except ShapeError α}
    (hf : ∀ v, x = .ok v → Ends (f v) m effect (FailsUnchanged m₀)) :
    Ends (liftM x >>= f) m effect (FailsUnchanged m₀) := by
  rw [ends_bind, ends_shape]
  exact ⟨hf, fun e _ => .malformed e h⟩

/-- A sum of sizes is no reason to change anything, be there one or none. -/
theorem ends_size_unchanged (h : m₀.Unchanged m) {x : Except Panic α}
    (hf : ∀ v, x = .ok v → Ends (f v) m effect (FailsUnchanged m₀)) :
    Ends (liftM x >>= f) m effect (FailsUnchanged m₀) := by
  rw [ends_bind, ends_size]
  exact ⟨hf, fun p _ => .panicked p h⟩

/-- A check of values at the start of an action: a fault leaves everything as it is. -/
theorem ends_checked_unchanged (h : m₀.Unchanged m) {x : Except Fault α}
    (hf : ∀ v, x = .ok v → Ends (f v) m effect (FailsUnchanged m₀)) :
    Ends (liftM x >>= f) m effect (FailsUnchanged m₀) := by
  rw [ends_bind, ends_checked]
  exact ⟨hf, fun f _ => .fault f h⟩

theorem Machine.Unchanged.rebinds {name : String} {v : Value} (h : m₀.Unchanged m) :
    m₀.Rebinds name v { m with store := m.store.set name v } := by
  refine ⟨Store.get?_set_self _ _ _, fun other hne => ?_, h.heap, h.input, h.output, h.depth⟩
  rw [← h.store]
  exact Store.get?_set_of_ne hne _ _

variable {form : Form} {limits : Limits}

/-- The operands of a tree that are trees are pure. -/
def Tree.HasPureOperands (t : Tree) : Prop := ∀ c : Tree, c.toOperand ∈ t.operands → c.isPure = true

/-- Operands built of pure forms obey the frame discipline, however much of the allowance is
    left. -/
theorem obeys_of_pureOperands (ht : t.HasPureOperands) (limits : Limits) (i : Nat) (c : Tree)
    (hc : t.inside? (.operand i) = some c) : frameDiscipline.Obeys (evalTree limits c) :=
  unchanged_of_pure limits (ht c (Tree.mem_operands_of_inside? hc))

/-- An assignment with a pure operand binds its name, or fails and changes nothing. -/
theorem ends_assignment
    (he : ∀ i c, t.inside? (.operand i) = some c → frameDiscipline.Obeys (eval c)) :
    Ends (evalAssign eval t) m (fun v m' => Changes t m v m' .assign) (FailsUnchanged m) := by
  have hself := unchanged_refl m
  refine ends_shape_unchanged hself fun _ _ => ends_shape_unchanged hself fun name hname => ?_
  refine ends_shape_unchanged hself fun c hc => ?_
  have hpresent := frameDiscipline.obeys_present (he _ c (Tree.inside?_of_child hc))
  refine ends_unchanged hself hpresent fun v m₁ h₁ => ?_
  exact ⟨name, hname, h₁.rebinds⟩

theorem one_toFloat : (Number.int 1).toFloat = 1.0 := by decide +kernel

/-- A sum or a difference with one is the next number, if it is a number at all. -/
theorem stepped_of_arith {op : ArithOp} (hop : op = .add ∨ op = .sub) {old new : Number}
    (h : Number.arith op old (.int 1) = .ok new) : Number.Stepped op old new := by
  have hone : (1 : Int64).toInt = 1 := rfl
  cases old with
  | float x =>
      -- The one counts as a float too.
      rcases hop with rfl | rfl <;> cases h
      · exact one_toFloat ▸ .upFloat x
      · exact one_toFloat ▸ .downFloat x
  | int k =>
      rcases hop with rfl | rfl
      · cases hn : int64? (k.toInt + 1) with
        | none => simp [Number.arith, Number.orOverflow, hone, hn] at h
        | some n =>
            simp only [Number.arith, Number.orOverflow, hone, hn] at h
            cases h
            exact .up k n (toInt_of_int64? hn)
      · cases hn : int64? (k.toInt - 1) with
        | none => simp [Number.arith, Number.orOverflow, hone, hn] at h
        | some n =>
            simp only [Number.arith, Number.orOverflow, hone, hn] at h
            cases h
            exact .down k n (toInt_of_int64? hn)

/-- Only numbers can be stepped, and what comes of them needs no storage. -/
theorem exists_of_step {h : Heap} {op : ArithOp} (hop : op = .add ∨ op = .sub) {current : Value}
    {p : Produced} (hp : h.arith op current (.int 1) = .ok p) :
    ∃ old new, current = .number old ∧ p = .value (.number new) ∧ Number.Stepped op old new := by
  cases current with
  | number old =>
      cases hn : Number.arith op old (.int 1) with
      | error f => simp [Heap.arith, Value.int, hn, Except.map] at hp
      | ok new =>
          simp only [Heap.arith, Value.int, hn, Except.map] at hp
          cases hp
          exact ⟨old, new, rfl, rfl, stepped_of_arith hop hn⟩
  | _ => rcases hop with rfl | rfl <;> cases hp

/-- An increment steps its name by one, or fails and changes nothing. -/
theorem ends_step {op : ArithOp} (hop : op = .add ∨ op = .sub) (name : String) :
    Ends (evalStep op name) m (m.Steps op name) (FailsUnchanged m) := by
  have hself := unchanged_refl m
  unfold evalStep
  rw [ends_bind, ends_lookup]
  cases hfound : m.store.get? name with
  | none => exact .fault _ hself
  | some current =>
      dsimp only
      rw [ends_bind, ends_heap]
      -- The sum is checked before the name is bound, so a failure leaves the old value.
      refine ends_checked_unchanged hself fun p hp => ?_
      rcases exists_of_step hop hp with ⟨old, new, rfl, rfl, hstep⟩
      exact ⟨old, new, hstep, hfound, rfl, hself.rebinds⟩

/-- What elements of old arrays lead to is old, and has not been changed by making new
    arrays. -/
theorem reaches_of_elementAt (hclosed : m.Closed) (h : m.Unchanged m') {name : String}
    {id : ArrayId} (hid : m.store.get? name = some (.array id)) {positions : List Nat}
    {inner : ArrayId} (hv : m'.heap.elementAt id positions = some (.array inner)) :
    inner.index < m.heap.cells.size ∧ m.heap.Reaches (.array id) inner := by
  refine Heap.elementAt_keeps (P := fun v => ∀ inner, v = .array inner →
    inner.index < m.heap.cells.size ∧ m.heap.Reaches (.array id) inner) ?_ ?_ hv inner rfl
  · -- Each step of the path goes to an element of a list that was there before.
    rintro outer v hreached hmem inner rfl
    rcases hreached outer rfl with ⟨hlt, hr⟩
    rw [h.heap.items_eq hlt] at hmem
    exact ⟨hclosed.elements outer _ hmem inner rfl, hr.element hmem⟩
  · rintro inner he
    exact ⟨hclosed.bound name _ hid inner he, .self he⟩

/-- Writing an element after a stretch that changed nothing is one change of one slot. -/
theorem Machine.Unchanged.rewrites (hclosed : m.Closed) (h : m.Unchanged m') {name : String}
    {id : ArrayId} (hid : m.store.get? name = some (.array id)) {positions : List Nat} {v : Value}
    {s : Heap.Slot} (hs : m'.heap.slot id positions v name = .ok s) :
    m.Rewrites name v { m' with heap := m'.heap.write s v } := by
  rcases Heap.slot_open hs with ⟨hpath, hopen, _⟩
  rcases reaches_of_elementAt hclosed h hid hpath with ⟨hlt, hr⟩
  -- Reading an old array gives the same before and after the operands.
  have hget : ∀ (other : ArrayId) i, other.index < m.heap.cells.size →
      m'.heap.get? other i = m.heap.get? other i := by
    intro other i ho
    rw [Heap.get?, Heap.get?, h.heap.items_eq ho]
  have hopen' : m.heap.Open s.array s.position := by
    unfold Heap.Open at hopen ⊢
    rw [← hget s.array s.position hlt]
    exact hopen
  have hsome : (m'.heap.get? s.array s.position).isSome := by
    rcases hopen with ⟨w, hw, _⟩
    rw [hw]
    rfl
  refine ⟨h.store, ?_, ⟨id, s, hid, hr, hopen', fun other i ho => ?_⟩, h.input, h.output, h.depth⟩
  · rw [Heap.write, Heap.size_set]
    exact h.heap.size_le
  · rw [Heap.write, Heap.get?_set, hget other i ho]
    simp only [hsome, and_true]

/-- An element write does all its checks before it changes the slot. -/
theorem ends_arrayAssign (hclosed : m.Closed) (rank : Nat)
    (he : ∀ i c, t.inside? (.operand i) = some c → frameDiscipline.Obeys (eval c)) :
    Ends (evalArrayAssign eval rank t) m (fun v m' => Changes t m v m' (.arrayAssign rank))
      (FailsUnchanged m) := by
  have hself := unchanged_refl m
  refine ends_size_unchanged hself fun _ _ => ends_shape_unchanged hself fun _ _ => ?_
  refine ends_shape_unchanged hself fun name hname => ?_
  -- The array is looked up first, before the operands are evaluated.
  rw [ends_bind]
  refine ends_namedArray (fun id hid => ?_) fun f => .fault f hself
  refine ends_unchanged hself (frameDiscipline.obeys_children trivial he (.inr trivial)) ?_
  intro indices m₂ h₂
  refine ends_size_unchanged h₂ fun _ _ => ends_shape_unchanged h₂ fun c hc => ?_
  have hpresent := frameDiscipline.obeys_present (he _ c (Tree.inside?_of_child hc))
  refine ends_unchanged h₂ hpresent fun v m₃ h₃ => ?_
  rw [ends_bind, ends_heap]
  refine ends_checked_unchanged h₃ fun positions _ => ?_
  rw [ends_bind, ends_heap]
  refine ends_checked_unchanged h₃ fun slot hslot => ?_
  exact ⟨name, hname, h₃.rewrites hclosed hid hslot⟩

/-- The rule of a writer changes one thing or nothing if the operands are pure. -/
theorem ends_writer_form (hclosed : m.Closed) (limits : Limits) {form : Form}
    (hw : form.isWriter = true) (ht : t.HasPureOperands) :
    Ends (evalForm (evalTree limits) limits.rounds t form) m (fun v m' => Changes t m v m' form)
      (FailsUnchanged m) := by
  have hself := unchanged_refl m
  have he := obeys_of_pureOperands ht limits
  -- Four forms write. The others are excluded by the hypothesis.
  cases form with
  | assign => exact ends_assignment he
  | arrayAssign rank => exact ends_arrayAssign hclosed rank he
  | unary op =>
      refine ends_shape_unchanged hself fun _ _ => ?_
      cases op with
      | negate => cases hw
      | increment =>
          refine ends_shape_unchanged hself fun name hname => ?_
          have hends := ends_step (m := m) (Or.inl rfl) name
          exact hends.mono (fun v m' h => ⟨name, hname, h⟩) fun _ _ h => h
      | decrement =>
          refine ends_shape_unchanged hself fun name hname => ?_
          have hends := ends_step (m := m) (Or.inr rfl) name
          exact hends.mono (fun v m' h => ⟨name, hname, h⟩) fun _ _ h => h
  | _ => cases hw

theorem Machine.Rebinds.exited {name : String} {v : Value} (h : m.entered.Rebinds name v m') :
    m.Rebinds name v m'.exited :=
  ⟨h.bound, h.others, h.heap, h.input, h.output, by rw [depth_exited, h.depth]; rfl⟩

theorem Machine.Rewrites.exited {name : String} {v : Value} (h : m.entered.Rewrites name v m') :
    m.Rewrites name v m'.exited :=
  ⟨h.store, h.size_le, h.slot, h.input, h.output, by rw [depth_exited, h.depth]; rfl⟩

/-- What is changed one level deeper is changed. -/
theorem Changes.exited {v : Value} (h : Changes t m.entered v m' form) (hw : form.isWriter = true) :
    Changes t m v m'.exited form := by
  -- A change does not mention the level, so it is the same one level up.
  cases form with
  | assign =>
      rcases h with ⟨name, hname, h⟩
      exact ⟨name, hname, h.exited⟩
  | arrayAssign rank =>
      rcases h with ⟨name, hname, h⟩
      exact ⟨name, hname, h.exited⟩
  | unary op =>
      cases op with
      | negate => cases hw
      | _ =>
          rcases h with ⟨name, hname, old, new, hstep, hold, hv, h⟩
          exact ⟨name, hname, old, new, hstep, hold, hv, h.exited⟩
  | _ => cases hw

/-- A writer changes one thing or nothing if its operands are pure. -/
theorem ends_writer (hclosed : m.Closed) (limits : Limits) {form : Form}
    (hform : Form.ofTag? t.tag = some form) (hw : form.isWriter = true) (ht : t.HasPureOperands) :
    Ends (evalTree limits t) m (fun v m' => Changes t m v m' form) (FailsUnchanged m) := by
  rcases Nat.lt_or_ge m.depth limits.depth with hlt | hge
  · rw [ends_evalTree hlt, dispatch_of_form hform]
    -- The rule runs on a machine that differs in its level only.
    have hclosed' : m.entered.Closed := ⟨hclosed.bound, hclosed.elements⟩
    exact (ends_writer_form hclosed' limits hw ht).mono (fun v m' h => h.exited hw)
      fun _ _ he => he.exited
  · exact ends_of_error (evalTree_of_le hge) (.fault _ (unchanged_refl m))

/-- On a machine with an output that takes everything, a pure expression changes nothing,
    whatever comes of it. An assignment, a step of a variable and an assignment to an
    element, with pure operands, change what they are to change and write nothing; or they
    change nothing and write one diagnostic; or they are malformed, and change and write
    nothing. A tree that does not ask for too great a size has no other end. -/
theorem failing_statements_change_nothing (limits : Limits) (m : Machine) (hclosed : m.Closed)
    (hout : m.output.limit = none) :
    (∀ t, t.isPure = true → Concludes limits t m fun _ m' => m.Unchanged m') ∧
      ∀ t form, Form.ofTag? t.tag = some form → form.isWriter = true → t.HasPureOperands →
        Concludes limits t m fun v m' => Changes t m v m' form :=
  ⟨fun _ ht => concludes_of_ends hout (unchanged_of_pure limits ht m),
    fun _ _ hform hw ht => concludes_of_ends hout (ends_writer hclosed limits hform hw ht)⟩

/-- A machine with a list of one number. -/
def listMachine : Machine := ⟨⟨[("xs", .array ⟨0⟩)]⟩, ⟨#[⟨1, #[.int 7]⟩]⟩, [], .empty none, 0⟩

/-- The tree of a numeric literal, as an operand. -/
def literal (word : String) : Operand := .tree "number" [.token word]

/-- An element of the list. -/
def elementOf (word : String) : Tree :=
  ⟨"index", [.tree "name" [.token "xs"], literal word]⟩

/-- Binds the name of the list to an element of it. -/
def assignElementOf (word : String) : Tree :=
  ⟨"assign", [.token "xs", (elementOf word).toOperand]⟩

/-- Only the diagnostic shows that an element was asked for that is not there. -/
theorem failing_statements_change_nothing_beyond :
    listMachine.Closed ∧
      (evaluate ⟨8, 8⟩ (assignElementOf "1")).after listMachine = { listMachine with
        output := ⟨"as says: Index 1 is out of range!\n".toUTF8, none⟩ } ∧
      Concludes ⟨8, 8⟩ (elementOf "1") listMachine (fun _ m' => listMachine.Unchanged m') ∧
      Concludes ⟨8, 8⟩ (assignElementOf "0") listMachine
        fun v m' => Changes (assignElementOf "0") listMachine v m' .assign := by
  have hmade : evaluate ⟨8, 8⟩ ⟨"assign", [.token "xs", .tree "list" [.seq [literal "7"]]]⟩
      (.start [] none) = .ok (.array ⟨0⟩) listMachine := rfl
  have hclosed : listMachine.Closed := closed_of_reached (.yields (.start [] none) hmade)
  have hends := failing_statements_change_nothing ⟨8, 8⟩ listMachine hclosed rfl
  refine ⟨hclosed, by decide +kernel, hends.1 _ (by decide), hends.2 _ _ rfl rfl ?_⟩
  -- The operand is a read of an element, which is pure.
  rintro ⟨tag, os⟩ hc
  rcases List.mem_cons.mp hc with htoken | htree
  · cases htoken
  · cases List.mem_singleton.mp htree
    decide

/-- Binds a name to an element in so many dimensions that its operands cannot be counted. -/
def assignElementBeyond : Tree :=
  ⟨"assign", [.token "x", .tree "array_access18446744073709551615d" [.token "y"]]⟩

/-- It is an assignment with a pure operand, and neither does it succeed, nor is there a
    diagnostic and no value, nor is it refused. -/
theorem assignment_may_panic :
    Form.ofTag? assignElementBeyond.tag = some .assign ∧ assignElementBeyond.HasPureOperands ∧
      evaluate ⟨128, 8⟩ assignElementBeyond (.start [] none) =
        .error (.panicked .sum) (.start [] none) ∧
      (∀ v m', evaluate ⟨128, 8⟩ assignElementBeyond (.start [] none) ≠ .ok v m') ∧
      ∀ e m', evaluate ⟨128, 8⟩ assignElementBeyond (.start [] none) ≠
        .error (.malformed e) m' := by
  have hend : evaluate ⟨128, 8⟩ assignElementBeyond (.start [] none) =
      .error (.panicked .sum) (.start [] none) := rfl
  refine ⟨rfl, ?_, hend, fun v m' h => ?_, fun e m' h => ?_⟩
  · -- The operand is pure, though it asks for more operands than there are sizes.
    rintro ⟨tag, os⟩ hc
    rcases List.mem_cons.mp hc with htoken | htree
    · cases htoken
    · cases List.mem_singleton.mp htree
      decide +kernel
  · cases hend.symm.trans h
  · cases hend.symm.trans h

end TreeScript
