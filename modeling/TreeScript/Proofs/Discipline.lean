import TreeScript.Proofs.Levels
import TreeScript.Proofs.Origin

/-!
# Effects of Evaluation

Every form computes values, may fail with a fault and may make arrays. What it
does beyond that can be read off the form, its first operand and the number of its
operands: the names that it looks up and binds, the elements that it writes, its use
of the streams, and whether the sizes that it asks for are too great. These are the
effects of the form itself; what the trees inside it do is up to them.

A `Discipline` is a class of actions that is closed under doing one after the
other and contains the effects that it allows. The forms are gone through once
and for all here: a form obeys a discipline that allows its effects, if the trees
inside it do. What is to be shown of all programs, or of all programs that do without
some effects, only has to be shown of the effects then.

How deep trees are nested is asked for outside the forms, once for each tree. So it is
no effect of a form, and `obeys_form` says nothing of it. A `NestedDiscipline` also
contains the question and all that obeys it one level deeper; for such a one,
`obeys_evalTree` goes down the tree with `obeys_form` at every level. A class of
actions that is about the level itself is a `Discipline` and not a nested one.

The trees in question are those of a class that is closed under going into a tree,
because a discipline may allow the effects of some trees only. A panic is an effect
like another: whoever excludes it has to know that the sizes in all trees are small.

## Main definitions

* `Effect`, `Form.effects`: What a form does besides computing.
* `Discipline`: A class of actions, and the effects that are in it.
* `NestedDiscipline`: One that also contains what is done one level deeper.
* `Tree.isCalm`, `calmDiscipline`: Trees without panics, and the actions that do not panic.

## Theorems

* `Heap.extends_zeroed`: A block of zeros is made behind all other arrays.
* `Discipline.obeys_mapM`, `Discipline.obeys_rounds`: Repetitions.
* `Discipline.obeys_form`: Every form obeys if the trees inside it do.
* `NestedDiscipline.obeys_evalTree`: So evaluation does.
* `calm_evalTree`: Where all sizes are small, there is no panic.
-/

namespace TreeScript

namespace Heap

/-- A block of zeros is made behind all other arrays. -/
theorem extends_zeroed : ∀ (sides : List Nat) (h : Heap), h.Extends (zeroed sides h).2
  | [], h => extends_alloc h _
  | [_], h => extends_alloc h _
  | n :: s :: sides, h => by
      let addRow := fun (block : Array Value × Heap) =>
        (block.1.push (.array (zeroed (s :: sides) block.2).1), (zeroed (s :: sides) block.2).2)
      -- The rows are made one by one, each on a larger heap.
      have hrows : h.Extends (Nat.repeat addRow n (#[], h)).2 :=
        repeat_keeps (P := fun (block : Array Value × Heap) => h.Extends block.2)
          (fun block hb => hb.trans (extends_zeroed (s :: sides) block.2)) n (extends_refl h)
      exact hrows.trans (extends_alloc _ _)

theorem extends_settle (p : Produced) (h : Heap) : h.Extends (h.settle p).2 := by
  cases p with
  | value v => exact extends_refl h
  | fresh items => exact extends_alloc h items

end Heap

/-- What an action may do besides computing values and making arrays. -/
inductive Effect where
  /-- Looks up a name. -/
  | lookup (name : String)
  /-- Binds a name. -/
  | assign (name : String)
  /-- Writes an element of an array. -/
  | element
  /-- Writes to the output, to tell of a fault for instance. -/
  | write
  /-- Reads a line of the input. -/
  | readLine
  /-- Repeats itself, maybe more often than it is allowed to. -/
  | repetition
  /-- Gives up a tree that is malformed. -/
  | refusal
  /-- Asks for a size that is too great. -/
  | panic
  deriving DecidableEq, Inhabited

/-- The effect on the name that is the first operand of a tree, if that is one. -/
def Tree.onName (t : Tree) (effect : String → Effect) : List Effect :=
  match t.token 0 with
  | .ok name => [effect name]
  | .error _ => []

/-- The effect of a form with so many indices and so many operands besides. It comes to
    none if the sum is a size, and if there is room for all operands that the tree has. -/
def Tree.onSizes (t : Tree) (rank surplus : Nat) : List Effect :=
  if rank + surplus ≤ maxSize ∧ t.operands.length ≤ maxRoom then [] else [.panic]

/-- The effects of a form itself. Any form may refuse a tree. -/
def Form.effects (t : Tree) : Form → List Effect
  | .name => t.onName .lookup
  | .unary .increment => t.onName .lookup ++ t.onName .assign
  | .unary .decrement => t.onName .lookup ++ t.onName .assign
  | .assign => t.onName .assign
  | .arrayNew rank => t.onSizes rank 0
  | .arrayAccess rank => t.onSizes rank 1 ++ t.onName .lookup
  | .arrayAssign rank => .element :: (t.onSizes rank 2 ++ t.onName .lookup)
  | .statements => [.write]
  | .choice => [.write]
  | .loop => [.write, .repetition]
  | .print => [.write]
  | .input => [.write, .readLine]
  | _ => []

theorem Tree.mem_onName {t : Tree} {name : String} (h : t.token 0 = .ok name)
    (effect : String → Effect) : effect name ∈ t.onName effect := by
  simp [onName, h]

/-- Where a panic is none of the effects, the sizes are small. -/
theorem Tree.of_not_mem_onSizes {t : Tree} {rank surplus : Nat}
    (h : Effect.panic ∉ t.onSizes rank surplus) :
    rank + surplus ≤ maxSize ∧ t.operands.length ≤ maxRoom := by
  unfold onSizes at h
  split at h
  · assumption
  · exact absurd List.mem_cons_self h

/-- Whether no tree in a tree, nor the tree itself, asks for a size that is too great. -/
def Tree.isCalm (t : Tree) : Bool :=
  t.every fun u => (Form.ofTag? u.tag).all fun form => !(form.effects u).contains .panic

/-- The trees inside a tree that cannot panic cannot panic either. -/
theorem Tree.isCalm_inside {t c : Tree} {s : Step} (h : t.isCalm = true)
    (hc : t.inside? s = some c) : c.isCalm = true :=
  every_inside h hc

/-- No form of a calm tree panics. -/
theorem Tree.ne_panic_of_isCalm {t : Tree} {form : Form} {e : Effect} (h : t.isCalm = true)
    (hform : Form.ofTag? t.tag = some form) (he : e ∈ form.effects t) : e ≠ .panic := by
  rintro rfl
  have hself := every_self h
  simp [hform, he] at hself

/-- A class of actions that is closed under doing one after the other. It contains
    all computing, all making of arrays, and the effects that it allows. -/
structure Discipline where
  /-- The class. -/
  Obeys : {α : Type} → Action α → Prop
  /-- The effects in it. -/
  Allows : Effect → Prop
  obeys_pure : ∀ {α : Type} (v : α), Obeys (pure v : Action α)
  obeys_bind : ∀ {α β : Type} {a : Action α} {f : α → Action β},
    Obeys a → (∀ v, Obeys (f v)) → Obeys (a >>= f)
  obeys_fault : ∀ {α : Type} (f : Fault), Obeys (throw (.fault f) : Action α)
  obeys_heap : Obeys heap
  obeys_growth : ∀ {α : Type} {f : Heap → α × Heap},
    (∀ h : Heap, h.Extends (f h).2) → Obeys (changeHeap f)
  obeys_lookup : ∀ {name}, Allows (.lookup name) → Obeys (lookup name)
  obeys_assign : ∀ {name v}, Allows (.assign name) → Obeys (assign name v)
  obeys_element : ∀ {s v}, Allows .element → Obeys (changeHeap fun h => ((), h.write s v))
  obeys_write : ∀ {s}, Allows .write → Obeys (write s)
  obeys_readLine : Allows .readLine → Obeys readLine
  obeys_unfinished : ∀ {α : Type}, Allows .repetition → Obeys (throw .unfinished : Action α)
  obeys_refusal : ∀ {α : Type} {e}, Allows .refusal → Obeys (throw (.malformed e) : Action α)
  obeys_panic : ∀ {α : Type} {p}, Allows .panic → Obeys (throw (.panicked p) : Action α)
  obeys_guarded : ∀ {a}, Allows .write → Obeys a → Obeys (guarded a)

/-- A discipline that contains the question how deep trees are nested, and whatever is in it
    one level deeper. -/
structure NestedDiscipline extends Discipline where
  obeys_currentDepth : Obeys currentDepth
  obeys_deeper : ∀ {α : Type} {a : Action α}, Obeys a → Obeys (deeper a)

namespace Discipline

variable (K : Discipline) {α β : Type} {eval : Evaluator} {t : Tree}

/-- A check of a tree that succeeds goes on with what it has found. -/
theorem obeys_found {x : Except ShapeError α} {v : α} {f : α → Action β} (hx : x = .ok v)
    (hf : K.Obeys (f v)) : K.Obeys (liftM x >>= f) := by
  subst hx
  exact hf

/-- A check of the tree's shape can only refuse the node. -/
theorem obeys_shape (hr : K.Allows .refusal) {x : Except ShapeError α} {f : α → Action β}
    (hf : ∀ v, x = .ok v → K.Obeys (f v)) : K.Obeys (liftM x >>= f) := by
  cases hx : x with
  | ok v => exact hf v hx
  | error e => exact K.obeys_refusal hr

/-- A check of sizes obeys where it succeeds, or where panics are allowed. -/
theorem obeys_size {x : Except Panic α} {v : α} {f : α → Action β}
    (hx : x = .ok v ∨ K.Allows .panic) (hf : ∀ w, x = .ok w → K.Obeys (f w)) :
    K.Obeys (liftM x >>= f) := by
  cases hw : x with
  | ok w => exact hf w hw
  | error p =>
      rcases hx with hx | hp
      · rw [hw] at hx
        cases hx
      · exact K.obeys_panic hp

/-- A check of values can only report a fault. -/
theorem obeys_checked (x : Except Fault α) : K.Obeys (liftM x : Action α) := by
  cases x with
  | ok v => exact K.obeys_pure v
  | error f => exact K.obeys_fault f

/-- A sequence of actions obeys when each of them does. -/
theorem obeys_mapM {f : α → Action β} (as : List α) (hf : ∀ a ∈ as, K.Obeys (f a)) :
    K.Obeys (as.mapM f) := by
  induction as with
  | nil => exact K.obeys_pure []
  | cons a as ih =>
      rw [List.mapM_cons]
      refine K.obeys_bind (hf a List.mem_cons_self) fun b => ?_
      refine K.obeys_bind (ih fun c hc => hf c (List.mem_cons_of_mem a hc)) fun bs => ?_
      exact K.obeys_pure (b :: bs)

/-- Storing an answer is an extension of the heap. -/
theorem obeys_settle (p : Produced) : K.Obeys (settle p) :=
  K.obeys_growth fun h => h.extends_settle p

theorem obeys_operand (he : K.Obeys (eval t)) : K.Obeys (eval.operand t) := by
  refine K.obeys_bind he fun v => ?_
  split
  · exact K.obeys_fault _
  · exact K.obeys_pure v

theorem obeys_present (he : K.Obeys (eval t)) : K.Obeys (eval.present t) := by
  refine K.obeys_bind (K.obeys_operand he) fun v => ?_
  split
  · exact K.obeys_fault _
  · exact K.obeys_pure v

/-- A condition reports its faults, so it may write. -/
theorem obeys_condition (hw : K.Allows .write) (he : K.Obeys (eval t)) :
    K.Obeys (eval.condition t) :=
  K.obeys_bind (K.obeys_guarded hw he) fun v => K.obeys_bind K.obeys_heap fun h =>
    K.obeys_pure (h.isTrue v)

theorem obeys_optional {t? : Option Tree} (he : ∀ c, t? = some c → K.Obeys (eval c)) :
    K.Obeys (evalOptional eval t?) := by
  cases t? with
  | none => exact K.obeys_pure _
  | some c => exact he c rfl

theorem obeys_optionalCondition (hw : K.Allows .write) {t? : Option Tree}
    (he : ∀ c, t? = some c → K.Obeys (eval c)) : K.Obeys (optionalCondition eval t?) := by
  cases t? with
  | none => exact K.obeys_pure _
  | some c => exact K.obeys_condition hw (he c rfl)

/-- A prompt is an operand that is printed, where there is one. -/
theorem obeys_writePrompt (hw : K.Allows .write) {t? : Option Tree}
    (he : ∀ c, t? = some c → K.Obeys (eval c)) : K.Obeys (writePrompt eval t?) := by
  cases t? with
  | none => exact K.obeys_pure _
  | some c =>
      refine K.obeys_bind (K.obeys_operand (he c rfl)) fun v => ?_
      exact K.obeys_bind K.obeys_heap fun _ => K.obeys_write hw

theorem obeys_namedArray {name : String} (hl : K.Allows (.lookup name)) :
    K.Obeys (namedArray name) := by
  refine K.obeys_bind (K.obeys_lookup hl) fun found => ?_
  split
  · exact K.obeys_pure _
  · exact K.obeys_fault _
  · exact K.obeys_fault _

/-- An increment looks its name up and assigns it, and nothing more. -/
theorem obeys_step {name : String} (op : ArithOp) (hl : K.Allows (.lookup name))
    (ha : K.Allows (.assign name)) : K.Obeys (evalStep op name) := by
  refine K.obeys_bind (K.obeys_lookup hl) fun found => ?_
  cases found with
  | none => exact K.obeys_fault _
  | some current =>
      refine K.obeys_bind K.obeys_heap fun h => K.obeys_bind (K.obeys_checked _) fun p => ?_
      refine K.obeys_bind (K.obeys_settle p) fun v => ?_
      exact K.obeys_bind (K.obeys_assign ha) fun _ => K.obeys_pure v

/-- A loop obeys with any number of rounds, as a round does and what is left. -/
theorem obeys_rounds {test body : Tree} (hw : K.Allows .write) (hr : K.Allows .repetition)
    (ht : K.Obeys (eval test)) (hb : K.Obeys (eval body)) (n : Nat) :
    K.Obeys (rounds eval test body n) := by
  induction n with
  | zero => exact K.obeys_unfinished hr
  -- A round that goes on is followed by the rounds that are left.
  | succ n ih =>
      refine K.obeys_bind (K.obeys_condition hw ht) fun holds => ?_
      split
      · refine K.obeys_bind (K.obeys_guarded hw hb) fun v => ?_
        split
        · exact K.obeys_pure _
        · exact ih
      · exact K.obeys_pure _

section forms

variable (hr : K.Allows .refusal) (he : ∀ s c, t.inside? s = some c → K.Obeys (eval c))

include hr he

omit he in
/-- Operands that are evaluated in order, if there is room for so many. -/
theorem obeys_children (he : ∀ i c, t.inside? (.operand i) = some c → K.Obeys (eval c))
    {first count : Nat} (hs : first + count ≤ maxSize ∧ count ≤ maxRoom ∨ K.Allows .panic) :
    K.Obeys (eval.children t first count) := by
  refine K.obeys_size (v := ()) (hs.imp_left fun h => reserve_eq_ok_iff.mpr h.2) fun _ _ => ?_
  refine K.obeys_size (hs.imp_left fun h => addSizes_of_le h.1) fun last _ => ?_
  exact K.obeys_mapM _ fun _ _ => K.obeys_shape hr fun c hc => he _ c (Tree.inside?_of_child hc)

omit hr he in
/-- Where a form with so many indices is allowed what it does, its sizes are small or panics
    are allowed. -/
theorem sizes_or_panic {rank surplus : Nat} (hu : ∀ e ∈ t.onSizes rank surplus, K.Allows e) :
    rank + surplus ≤ maxSize ∧ t.operands.length ≤ maxRoom ∨ K.Allows .panic := by
  by_cases hp : Effect.panic ∈ t.onSizes rank surplus
  · exact .inr (hu _ hp)
  · exact .inl (Tree.of_not_mem_onSizes hp)

theorem obeys_wrapped : K.Obeys (evalWrapped eval t) :=
  K.obeys_shape hr fun _ _ => K.obeys_shape hr fun c hc => he _ c (Tree.inside?_of_child hc)

theorem obeys_list : K.Obeys (evalList eval t) := by
  refine K.obeys_shape hr fun _ _ => K.obeys_shape hr fun trees htrees => ?_
  refine K.obeys_bind (K.obeys_mapM trees fun c hc => ?_) fun elements => ?_
  · rcases List.mem_iff_getElem?.mp hc with ⟨j, hj⟩
    exact K.obeys_present (he _ c (Tree.inside?_of_children htrees hj))
  · refine K.obeys_bind K.obeys_heap fun h => K.obeys_bind (K.obeys_checked _) fun _ => ?_
    exact K.obeys_settle _

theorem obeys_index : K.Obeys (evalIndex eval t) := by
  refine K.obeys_shape hr fun _ _ => K.obeys_shape hr fun b hb => ?_
  refine K.obeys_bind (K.obeys_operand (he _ b (Tree.inside?_of_child hb))) fun base => ?_
  refine K.obeys_shape hr fun c hc => ?_
  refine K.obeys_bind (K.obeys_operand (he _ c (Tree.inside?_of_child hc))) fun i => ?_
  exact K.obeys_bind K.obeys_heap fun _ => K.obeys_checked _

theorem obeys_binary (op : BinaryOp) : K.Obeys (evalBinary eval op t) := by
  refine K.obeys_shape hr fun _ _ => K.obeys_shape hr fun a ha => ?_
  refine K.obeys_bind (K.obeys_operand (he _ a (Tree.inside?_of_child ha))) fun left => ?_
  refine K.obeys_shape hr fun b hb => ?_
  refine K.obeys_bind (K.obeys_operand (he _ b (Tree.inside?_of_child hb))) fun right => ?_
  refine K.obeys_bind K.obeys_heap fun _ => K.obeys_bind (K.obeys_checked _) fun p => ?_
  exact K.obeys_settle p

/-- A unary form obeys when its own effects do: all but the increments have none. -/
theorem obeys_unary (op : UnaryOp) (hu : ∀ e ∈ Form.effects t (.unary op), K.Allows e) :
    K.Obeys (evalUnary eval op t) := by
  refine K.obeys_shape hr fun _ _ => ?_
  cases op with
  | negate =>
      refine K.obeys_shape hr fun c hc => ?_
      refine K.obeys_bind (K.obeys_operand (he _ c (Tree.inside?_of_child hc))) fun v => ?_
      exact K.obeys_checked _
  | increment =>
      refine K.obeys_shape hr fun name hname => K.obeys_step .add (hu _ ?_) (hu _ ?_)
      · exact List.mem_append_left _ (Tree.mem_onName hname _)
      · exact List.mem_append_right _ (Tree.mem_onName hname _)
  | decrement =>
      refine K.obeys_shape hr fun name hname => K.obeys_step .sub (hu _ ?_) (hu _ ?_)
      · exact List.mem_append_left _ (Tree.mem_onName hname _)
      · exact List.mem_append_right _ (Tree.mem_onName hname _)

theorem obeys_assignment (hu : ∀ e ∈ Form.effects t .assign, K.Allows e) :
    K.Obeys (evalAssign eval t) := by
  refine K.obeys_shape hr fun _ _ => K.obeys_shape hr fun name hname => ?_
  refine K.obeys_shape hr fun c hc => ?_
  refine K.obeys_bind (K.obeys_present (he _ c (Tree.inside?_of_child hc))) fun v => ?_
  exact K.obeys_bind (K.obeys_assign (hu _ (Tree.mem_onName hname _))) fun _ => K.obeys_pure v

/-- A new block evaluates its dimensions, builds the arrays and binds one name. -/
theorem obeys_arrayNew (rank : Nat) (hu : ∀ e ∈ Form.effects t (.arrayNew rank), K.Allows e) :
    K.Obeys (evalArrayNew eval rank t) := by
  refine K.obeys_shape hr fun _ harity => ?_
  have hlen := Tree.length_of_expectArity harity
  have hsizes : 0 + rank ≤ maxSize ∧ rank ≤ maxRoom ∨ K.Allows .panic :=
    (K.sizes_or_panic hu).imp_left fun h => ⟨by omega, by omega⟩
  refine K.obeys_bind (K.obeys_children hr (fun i => he (.operand i)) hsizes) fun dims => ?_
  refine K.obeys_bind K.obeys_heap fun _ => K.obeys_bind (K.obeys_checked _) fun sides => ?_
  refine K.obeys_bind (K.obeys_growth fun h => Heap.extends_zeroed sides h) fun id => ?_
  exact K.obeys_pure _

/-- An access evaluates its coordinates and reads the array bound to its name. -/
theorem obeys_arrayAccess (rank : Nat)
    (hu : ∀ e ∈ Form.effects t (.arrayAccess rank), K.Allows e) :
    K.Obeys (evalArrayAccess eval rank t) := by
  have hsizes := K.sizes_or_panic fun e he => hu e (List.mem_append_left _ he)
  refine K.obeys_size (hsizes.imp_left fun h => addSizes_of_le h.1) fun arity hsum => ?_
  obtain rfl := (addSizes_eq_ok_iff.mp hsum).2
  refine K.obeys_shape hr fun _ harity => K.obeys_shape hr fun name hname => ?_
  have hlookup := hu _ (List.mem_append_right _ (Tree.mem_onName hname _))
  refine K.obeys_bind (K.obeys_namedArray hlookup) fun id => ?_
  have hlen := Tree.length_of_expectArity harity
  -- The arity was checked, so the coordinates that are asked for are there.
  have hsizes' : 1 + rank ≤ maxSize ∧ rank ≤ maxRoom ∨ K.Allows .panic :=
    hsizes.imp_left fun h => ⟨by omega, by omega⟩
  refine K.obeys_bind (K.obeys_children hr (fun i => he (.operand i)) hsizes') fun indices => ?_
  refine K.obeys_bind K.obeys_heap fun _ => K.obeys_bind (K.obeys_checked _) fun positions => ?_
  exact K.obeys_pure _

/-- An element is written in the array bound to the name, after the coordinates and the value were
    evaluated. -/
theorem obeys_arrayAssign (rank : Nat)
    (hu : ∀ e ∈ Form.effects t (.arrayAssign rank), K.Allows e) :
    K.Obeys (evalArrayAssign eval rank t) := by
  have hsizes := K.sizes_or_panic fun e he =>
    hu e (List.mem_cons_of_mem _ (List.mem_append_left _ he))
  refine K.obeys_size (hsizes.imp_left fun h => addSizes_of_le h.1) fun arity hsum => ?_
  obtain rfl := (addSizes_eq_ok_iff.mp hsum).2
  refine K.obeys_shape hr fun _ harity => K.obeys_shape hr fun name hname => ?_
  have hlookup := hu _ (List.mem_cons_of_mem _ (List.mem_append_right _ (Tree.mem_onName hname _)))
  refine K.obeys_bind (K.obeys_namedArray hlookup) fun id => ?_
  have hlen := Tree.length_of_expectArity harity
  have hsizes' : 1 + rank ≤ maxSize ∧ rank ≤ maxRoom ∨ K.Allows .panic :=
    hsizes.imp_left fun h => ⟨by omega, by omega⟩
  refine K.obeys_bind (K.obeys_children hr (fun i => he (.operand i)) hsizes') fun indices => ?_
  -- The place of the value is one more sum, which fits where the arity does.
  have hsum' : addSizes rank 1 = .ok (rank + 1) ∨ K.Allows .panic :=
    hsizes.imp_left fun h => addSizes_of_le (by omega)
  refine K.obeys_size hsum' fun place _ => K.obeys_shape hr fun c hc => ?_
  refine K.obeys_bind (K.obeys_present (he _ c (Tree.inside?_of_child hc))) fun v => ?_
  refine K.obeys_bind K.obeys_heap fun _ => K.obeys_bind (K.obeys_checked _) fun positions => ?_
  refine K.obeys_bind K.obeys_heap fun _ => K.obeys_bind (K.obeys_checked _) fun slot => ?_
  exact K.obeys_bind (K.obeys_element (hu _ List.mem_cons_self)) fun _ => K.obeys_pure v

/-- Every statement is run behind a guard, in order, and the values are folded at the end. -/
theorem obeys_statements (hw : K.Allows .write) : K.Obeys (evalStatements eval t) := by
  refine K.obeys_bind (K.obeys_shape hr fun _ _ => K.obeys_shape hr fun trees htrees => ?_)
    fun results => K.obeys_pure (foldResults results)
  refine K.obeys_mapM trees fun c hc => ?_
  rcases List.mem_iff_getElem?.mp hc with ⟨j, hj⟩
  exact K.obeys_guarded hw (he _ c (Tree.inside?_of_children htrees hj))

theorem obeys_main : K.Obeys (evalMain eval t) := by
  refine K.obeys_shape hr fun _ _ => K.obeys_shape hr fun c hc => ?_
  have hdiscard : K.Obeys (discard (eval c)) :=
    K.obeys_bind (he _ c (Tree.inside?_of_child hc)) fun _ => K.obeys_pure ()
  exact K.obeys_bind hdiscard fun _ => K.obeys_pure _

/-- A choice evaluates its condition and at most one of its branches. -/
theorem obeys_choice (hw : K.Allows .write) : K.Obeys (evalChoice eval t) := by
  refine K.obeys_shape hr fun _ _ => K.obeys_shape hr fun test htest => ?_
  have hcondition := K.obeys_condition hw (he _ test (Tree.inside?_of_child htest))
  refine K.obeys_bind hcondition fun holds => ?_
  split
  · exact K.obeys_shape hr fun c hc => he _ c (Tree.inside?_of_child hc)
  · refine K.obeys_shape hr fun test? htest? => ?_
    refine K.obeys_bind (K.obeys_optionalCondition hw fun c hc => ?_) fun holds' => ?_
    · -- A branch that may be left out is one of the trees inside where it stands.
      subst hc
      exact he _ c (Tree.inside?_of_child? htest?)
    · split
      · exact K.obeys_shape hr fun c hc => he _ c (Tree.inside?_of_child hc)
      · refine K.obeys_shape hr fun branch? hbranch? => K.obeys_optional fun c hc => ?_
        subst hc
        exact he _ c (Tree.inside?_of_child? hbranch?)

/-- A loop runs its test and its body as the rounds do. -/
theorem obeys_loop (allowed : Nat) (hu : ∀ e ∈ Form.effects t .loop, K.Allows e) :
    K.Obeys (evalLoop eval allowed t) := by
  refine K.obeys_shape hr fun _ _ => K.obeys_shape hr fun test htest => ?_
  refine K.obeys_shape hr fun body hbody => ?_
  exact K.obeys_rounds (hu _ (by simp [Form.effects])) (hu _ (by simp [Form.effects]))
    (he _ test (Tree.inside?_of_child htest)) (he _ body (Tree.inside?_of_child hbody)) allowed

theorem obeys_print (hw : K.Allows .write) : K.Obeys (evalPrint eval t) := by
  refine K.obeys_shape hr fun _ _ => K.obeys_shape hr fun c hc => ?_
  refine K.obeys_bind (K.obeys_operand (he _ c (Tree.inside?_of_child hc))) fun v => ?_
  refine K.obeys_bind K.obeys_heap fun _ => ?_
  exact K.obeys_bind (K.obeys_write hw) fun _ => K.obeys_pure v

/-- Reading a line is an effect of its own, as is the prompt before it. -/
theorem obeys_input (hu : ∀ e ∈ Form.effects t .input, K.Allows e) :
    K.Obeys (evalInput eval t) := by
  refine K.obeys_shape hr fun _ _ => K.obeys_shape hr fun prompt? hprompt? => ?_
  refine K.obeys_bind (K.obeys_writePrompt (hu _ (by simp [Form.effects])) fun c hc => ?_)
    fun _ => K.obeys_bind (K.obeys_readLine (hu _ (by simp [Form.effects]))) fun line? => ?_
  · subst hc
    exact he _ c (Tree.inside?_of_child? hprompt?)
  · cases line? with
    | none => exact K.obeys_fault _
    | some line => exact K.obeys_pure (inputValue line)

omit he in
theorem obeys_number : K.Obeys (evalNumber t) := by
  refine K.obeys_shape hr fun _ _ => K.obeys_shape hr fun word _ => ?_
  split
  · exact K.obeys_pure _
  · exact K.obeys_refusal hr

omit he in
theorem obeys_text : K.Obeys (evalText t) :=
  K.obeys_shape hr fun _ _ => K.obeys_shape hr fun w _ => K.obeys_pure (Value.text w)

omit he in
theorem obeys_name (hu : ∀ e ∈ Form.effects t .name, K.Allows e) : K.Obeys (evalName t) := by
  refine K.obeys_shape hr fun _ _ => K.obeys_shape hr fun name hname => ?_
  refine K.obeys_bind (K.obeys_lookup (hu _ (Tree.mem_onName hname _))) fun found => ?_
  cases found with
  | none => exact K.obeys_fault _
  | some v => exact K.obeys_pure v

omit he in
theorem obeys_mark (v : Value) : K.Obeys (evalMark v t) :=
  K.obeys_shape hr fun _ _ => K.obeys_pure v

/-- A form obeys if its effects are allowed and the trees inside obey. -/
theorem obeys_form (allowed : Nat) (form : Form) (hu : ∀ e ∈ form.effects t, K.Allows e) :
    K.Obeys (evalForm eval allowed t form) := by
  -- One lemma for each form. Only some of them have effects of their own to account for.
  cases form with
  | main => exact K.obeys_main hr he
  | statements => exact K.obeys_statements hr he (hu _ List.mem_cons_self)
  | statementExpr => exact K.obeys_wrapped hr he
  | paren => exact K.obeys_wrapped hr he
  | assign => exact K.obeys_assignment hr he hu
  | name => exact K.obeys_name hr hu
  | number => exact K.obeys_number hr
  | text => exact K.obeys_text hr
  | list => exact K.obeys_list hr he
  | index => exact K.obeys_index hr he
  | binary op => exact K.obeys_binary hr he op
  | unary op => exact K.obeys_unary hr he op hu
  | pass => exact K.obeys_mark hr _
  | leave => exact K.obeys_mark hr _
  | print => exact K.obeys_print hr he (hu _ List.mem_cons_self)
  | input => exact K.obeys_input hr he hu
  | choice => exact K.obeys_choice hr he (hu _ List.mem_cons_self)
  | loop => exact K.obeys_loop hr he allowed hu
  | arrayNew rank => exact K.obeys_arrayNew hr he rank hu
  | arrayAccess rank => exact K.obeys_arrayAccess hr he rank hu
  | arrayAssign rank => exact K.obeys_arrayAssign hr he rank hu

end forms

/-- A discipline admits a tree if it allows the effects of its form. -/
def Admits (t : Tree) : Prop :=
  ∀ form, Form.ofTag? t.tag = some form → ∀ e ∈ form.effects t, K.Allows e

variable {K}

/-- The rule that the tag of a tree names obeys if the tree is admitted. -/
theorem Admits.obeys_dispatch (h : K.Admits t) (hr : K.Allows .refusal)
    (he : ∀ s c, t.inside? s = some c → K.Obeys (eval c)) (allowed : Nat) :
    K.Obeys (dispatch eval allowed t) := by
  cases hform : Form.ofTag? t.tag with
  | some form =>
      rw [dispatch_of_form hform]
      exact K.obeys_form hr he allowed form (h form hform)
  | none =>
      rw [dispatch_of_none hform]
      exact K.obeys_pure _

end Discipline

namespace NestedDiscipline

variable (K : NestedDiscipline)

/-- What obeys obeys with the question before it whether a level is left. -/
theorem obeys_nested {levels : Nat} {beyond a : Action Value} (hb : K.Obeys beyond)
    (ha : K.Obeys a) : K.Obeys (nested levels beyond a) := by
  refine K.obeys_bind K.obeys_currentDepth fun depth => ?_
  split
  · exact hb
  · exact K.obeys_deeper ha

/-- Evaluation obeys. The trees in question are those of a class that is closed under going
    into a tree. -/
theorem obeys_evalTree (limits : Limits) (hr : K.Allows .refusal) {S : Tree → Prop}
    (inside : ∀ t s c, S t → t.inside? s = some c → S c) (admits : ∀ t, S t → K.Admits t)
    (t : Tree) (ht : S t) : K.Obeys (evalTree limits t) := by
  induction t using Tree.inside_induction with
  | step t ih =>
      rw [evalTree_eq]
      refine K.obeys_nested (K.obeys_fault _) ?_
      exact (admits t ht).obeys_dispatch hr (fun s c hc => ih s c hc (inside t s c ht hc)) _

/-- Everything obeys a discipline without restrictions. -/
theorem obeys_evaluate (limits : Limits) (hall : ∀ e, K.Allows e) (t : Tree) :
    K.Obeys (evaluate limits t) := by
  refine K.obeys_guarded (hall _) ?_
  exact K.obeys_evalTree limits (hall _) (S := fun _ => True) (fun _ _ _ _ _ => trivial)
    (fun _ _ _ _ e _ => hall e) t trivial

end NestedDiscipline

/-- The actions that do not panic. -/
def calmDiscipline : NestedDiscipline where
  Obeys a := ∀ m, Ends a m (fun _ _ => True) fun e _ => ∀ p, e ≠ .panicked p
  Allows e := e ≠ .panic
  obeys_pure _ _ := trivial
  obeys_bind ha hf m := by
    rw [ends_bind]
    exact (ha m).mono (fun v m' _ => hf v m') fun _ _ he => he
  obeys_fault _ _ _ := nofun
  obeys_heap _ := trivial
  obeys_growth _ _ := trivial
  obeys_lookup _ _ := trivial
  obeys_assign _ _ := trivial
  obeys_element _ _ := trivial
  obeys_write _ _ := ends_write trivial fun _ => nofun
  obeys_readLine _ _ := ends_readLine (fun _ => trivial) fun _ => nofun
  obeys_unfinished _ _ _ := nofun
  obeys_refusal _ _ _ := nofun
  obeys_panic h := absurd rfl h
  obeys_guarded _ ha m := by
    unfold guarded
    rw [ends_recover]
    refine (ha m).mono (fun _ _ h => h) fun e m' he => ?_
    -- Only a fault is taken up, and telling of it does not panic.
    cases e with
    | fault f => exact ends_bind.mpr (ends_write trivial fun _ => nofun)
    | _ => exact he
  obeys_currentDepth _ := trivial
  obeys_deeper ha m := ends_deeper.mpr (ha m.entered)

/-- A tree in which no form asks for too great a size does not panic. -/
theorem calm_evalTree (limits : Limits) {t : Tree} (ht : t.isCalm = true) :
    calmDiscipline.Obeys (evalTree limits t) :=
  calmDiscipline.obeys_evalTree limits (nofun : Effect.refusal ≠ .panic)
    (S := fun u => u.isCalm = true) (fun _ _ _ hu hc => Tree.isCalm_inside hu hc)
    (fun _ hu _ hform _ he => Tree.ne_panic_of_isCalm hu hform he) t ht

end TreeScript
