import TreeScript.Proofs.Discipline

/-!
# Variables Do Not Interfere

A program reaches a variable only through the names that are written in it. So a
variable that nothing in a tree binds is bound to the same afterwards, and one that a
tree does not mention at all has no part in its evaluation: whatever it is bound to,
and whether it is bound, makes no difference to anything else.

The first half looks at one run and the second one compares two, but both are read off
the effects of the forms. Writing to an element is not an effect on a variable, whatever
variables lead to the array: it changes the arrays, which the two runs have in common.

Names are found by the shape of a tree and not by running it. `Tree.mentions` looks at all
trees inside, also at branches that are not taken, and so it is coarser than what a run
does; that is how a programmer would look for a name. Whether two machines differ in a
binding can change nothing if it is never looked up, and `EndsSame` is kept by two actions
in a row since the outcome of the first one is the same in both runs.

## Main definitions

* `Tree.rebinds`, `Tree.mentions`: The variables that are bound in a tree, and those that
  are named in it.
* `bindingDiscipline`, `oblivionDiscipline`: The actions that keep a property of the
  variables, and those in which a variable has no part.
* `Machine.SameBut`: Two machines that are the same but for one variable.
* `EndsSame`: Two ends that are the same but for one variable.

## Theorems

* `bound_mem_effects`, `used_mem_effects`: Effects on a variable name it.
* `upholds_evaluate`, `endsSame_evaluate`: Evaluation binds and looks up no other names.
* `variables_do_not_interfere`: What is not bound stays, and what is not mentioned has
  no part.
* `hasNameInside_self`, `hasNameInside_inside`: Names are found in trees inside.
* `sameBut_set`: Binding another name, or the same one, to one value.
* `endsSame_bind`: Two actions in a row.
-/

namespace TreeScript

/-- Whether a form binds the name that is its first operand. -/
def Form.binds : Form → Bool
  | .assign | .unary .increment | .unary .decrement => true
  | _ => false

/-- Whether a form uses the name that is its first operand, be it to look it up or to bind
    it. -/
def Form.uses : Form → Bool
  | .name | .arrayAccess _ | .arrayAssign _ => true
  | form => form.binds

/-- Whether a tree is of one of the forms and has the name as its first operand. -/
def Tree.hasName (forms : Form → Bool) (name : String) (t : Tree) : Bool :=
  (Form.ofTag? t.tag).any forms && (t.token 0).toOption == some name

/-- Whether that is so of a tree or of a tree in it. -/
def Tree.hasNameInside (forms : Form → Bool) (name : String) (t : Tree) : Bool :=
  !t.every fun u => !u.hasName forms name

/-- Whether a tree, or a tree in it, binds the name. -/
def Tree.rebinds (t : Tree) (name : String) : Bool := t.hasNameInside Form.binds name

/-- Whether a tree, or a tree in it, names the name to look it up or to bind it. -/
def Tree.mentions (t : Tree) (name : String) : Bool := t.hasNameInside Form.uses name

/-- Two machines that are the same but for what one name is bound to, if it is bound. -/
structure Machine.SameBut (name : String) (m m' : Machine) : Prop where
  store : ∀ other, other ≠ name → m.store.get? other = m'.store.get? other
  heap : m.heap = m'.heap
  input : m.input = m'.input
  output : m.output = m'.output
  depth : m.depth = m'.depth

variable {α β : Type} {name : String} {m m' : Machine}

/-- Two ends with one outcome, on machines that are the same but for one name. -/
inductive EndsSame (name : String) :
    EStateM.Result Failure Machine α → EStateM.Result Failure Machine α → Prop where
  | ok (v : α) {m m' : Machine} : m.SameBut name m' → EndsSame name (.ok v m) (.ok v m')
  | error (e : Failure) {m m' : Machine} : m.SameBut name m' →
      EndsSame name (.error e m) (.error e m')

section effects

variable {t : Tree} {form : Form}

/-- The effects of a form on its name are those on the word that stands there. -/
theorem Tree.mem_onName_iff {effect : String → Effect} {e : Effect} :
    e ∈ t.onName effect ↔ ∃ w, t.token 0 = .ok w ∧ e = effect w := by
  unfold onName
  cases t.token 0 <;> simp

/-- What comes of sizes is not an effect on a variable. -/
theorem Tree.mem_onSizes_iff {rank surplus : Nat} {e : Effect} :
    e ∈ t.onSizes rank surplus ↔
      e = .panic ∧ ¬ (rank + surplus ≤ maxSize ∧ t.operands.length ≤ maxRoom) := by
  unfold onSizes
  split <;> simp [*]

/-- What a form binds is its first operand. -/
theorem bound_mem_effects (h : .assign name ∈ form.effects t) :
    form.binds = true ∧ t.token 0 = .ok name := by
  cases form with
  | unary op => cases op <;> simp_all [Form.effects, Form.binds, Tree.mem_onName_iff]
  | _ => simp_all [Form.effects, Form.binds, Tree.mem_onName_iff, Tree.mem_onSizes_iff]

/-- What a form looks up is its first operand. -/
theorem used_mem_effects (h : .lookup name ∈ form.effects t) :
    form.uses = true ∧ t.token 0 = .ok name := by
  cases form with
  | unary op => cases op <;> simp_all [Form.effects, Form.uses, Form.binds, Tree.mem_onName_iff]
  | _ => simp_all [Form.effects, Form.uses, Tree.mem_onName_iff, Tree.mem_onSizes_iff]

theorem hasNameInside_self {forms : Form → Bool} (hform : Form.ofTag? t.tag = some form)
    (h : forms form = true ∧ t.token 0 = .ok name) : t.hasNameInside forms name = true := by
  have hself : t.hasName forms name = true := by
    simp [Tree.hasName, hform, h.1, h.2, Except.toOption]
  simp [Tree.hasNameInside, Tree.every, hself]

/-- What is named in a tree is named in all trees that it stands in. -/
theorem hasNameInside_inside {forms : Form → Bool} {s : Step} {c : Tree}
    (hc : t.inside? s = some c) (h : c.hasNameInside forms name = true) :
    t.hasNameInside forms name = true := by
  simp only [Tree.hasNameInside, Bool.not_eq_true'] at h ⊢
  refine Bool.eq_false_iff.mpr fun hall => ?_
  rw [Tree.every_inside hall hc] at h
  cases h

end effects

/-- The actions after which a property of the variables still holds. They may bind all names
    of which that is true. -/
def bindingDiscipline (P : Store → Prop) : NestedDiscipline where
  Obeys a := Upholds (fun m => P m.store) a
  Allows
    | .assign name => ∀ s v, P s → P (s.set name v)
    | _ => True
  obeys_pure v := upholds_pure v
  obeys_bind ha hf := upholds_bind ha hf
  obeys_fault _ _ hm := hm
  obeys_heap _ hm := hm
  obeys_growth _ _ hm := hm
  obeys_lookup _ _ hm := hm
  obeys_assign ha m hm := ha m.store _ hm
  obeys_element _ _ hm := hm
  obeys_write _ _ hm := ends_write hm hm
  obeys_readLine _ _ hm := ends_readLine (fun _ => hm) hm
  obeys_unfinished _ _ hm := hm
  obeys_refusal _ _ hm := hm
  obeys_panic _ _ hm := hm
  obeys_guarded _ ha := by
    refine upholds_recover ha fun e b hb => ?_
    -- Only a fault is taken up, and telling of it binds nothing.
    cases e <;> cases hb
    exact upholds_bind (fun _ hm => ends_write hm hm) fun _ => upholds_pure _
  obeys_currentDepth _ hm := hm
  obeys_deeper ha m hm := ends_deeper.mpr ((ha m.entered hm).mono (fun _ _ h => h) fun _ _ h => h)

/-- Evaluation binds only what is bound somewhere in the tree. -/
theorem upholds_evaluate {P : Store → Prop} (limits : Limits) {t : Tree}
    (hP : ∀ name, t.rebinds name = true → ∀ s v, P s → P (s.set name v)) :
    Upholds (fun m => P m.store) (evaluate limits t) := by
  refine (bindingDiscipline P).obeys_guarded trivial ?_
  refine (bindingDiscipline P).obeys_evalTree limits trivial
    (S := fun u => ∀ name, u.rebinds name = true → t.rebinds name = true)
    (fun u s c hu hc name h => hu name (hasNameInside_inside hc h))
    (fun u hu form hform e he => ?_) t fun _ h => h
  -- Only an assignment touches the store, and it binds a name that the tree rebinds.
  cases e with
  | assign name => exact hP name (hu name (hasNameInside_self hform (bound_mem_effects he)))
  | _ => trivial

/-- Giving the same value to a name on both sides keeps the machines alike. -/
theorem sameBut_set {other : String} (h : m.SameBut name m') (v : Value) :
    { m with store := m.store.set other v }.SameBut name
      { m' with store := m'.store.set other v } := by
  refine ⟨fun third hne => ?_, h.heap, h.input, h.output, h.depth⟩
  by_cases heq : third = other
  · subst heq
    rw [Store.get?_set_self, Store.get?_set_self]
  · rw [Store.get?_set_of_ne heq, Store.get?_set_of_ne heq, h.store third hne]

/-- Neither part of an action looks at the one variable, so both parts do the same. -/
theorem endsSame_bind {a : Action α} {f : α → Action β} (ha : EndsSame name (a m) (a m'))
    (hf : ∀ v m m', m.SameBut name m' → EndsSame name (f v m) (f v m')) :
    EndsSame name ((a >>= f) m) ((a >>= f) m') := by
  simp only [bind, EStateM.bind]
  generalize a m = r at ha ⊢
  generalize a m' = r' at ha ⊢
  cases ha with
  | ok v h => exact hf v _ _ h
  | error e h => exact .error e h

theorem endsSame_changeHeap (f : Heap → α × Heap) (h : m.SameBut name m') :
    EndsSame name (changeHeap f m) (changeHeap f m') := by
  rcases h with ⟨hs, hh, hi, ho, hd⟩
  simp only [changeHeap, ← hh, ← hi, ← ho, ← hd]
  exact .ok _ ⟨hs, rfl, rfl, rfl, rfl⟩

theorem endsSame_write (s : String) (h : m.SameBut name m') :
    EndsSame name (write s m) (write s m') := by
  rcases h with ⟨hs, hh, hi, ho, hd⟩
  simp only [write, ← hh, ← hi, ← ho, ← hd]
  split
  · exact .ok () ⟨hs, rfl, rfl, rfl, rfl⟩
  · exact .error _ ⟨hs, rfl, rfl, rfl, rfl⟩

theorem endsSame_readLine (h : m.SameBut name m') :
    EndsSame name (readLine m) (readLine m') := by
  rcases h with ⟨hs, hh, hi, ho, hd⟩
  simp only [readLine, ← hh, ← hi, ← ho, ← hd]
  split
  · exact .ok none ⟨hs, rfl, rfl, rfl, rfl⟩
  · split
    · exact .ok _ ⟨hs, rfl, rfl, rfl, rfl⟩
    · exact .error _ ⟨hs, rfl, rfl, rfl, rfl⟩

/-- The report of a fault depends on the fault alone, which is the same on both sides. -/
theorem endsSame_guarded {a : Action Value} (ha : EndsSame name (a m) (a m')) :
    EndsSame name (guarded a m) (guarded a m') := by
  unfold guarded recover
  generalize a m = r at ha ⊢
  generalize a m' = r' at ha ⊢
  cases ha with
  | ok v h => exact .ok v h
  | error e h =>
      cases e with
      | fault f => exact endsSame_bind (endsSame_write _ h) fun _ _ _ h' => .ok _ h'
      | _ => exact .error _ h

theorem endsSame_deeper {a : Action α} (ha : EndsSame name (a m.entered) (a m'.entered)) :
    EndsSame name (deeper a m) (deeper a m') := by
  unfold deeper
  generalize a m.entered = r at ha ⊢
  generalize a m'.entered = r' at ha ⊢
  cases ha with
  | ok v h => exact .ok v ⟨h.store, h.heap, h.input, h.output, congrArg (· - 1) h.depth⟩
  | error e h => exact .error e ⟨h.store, h.heap, h.input, h.output, congrArg (· - 1) h.depth⟩

/-- The actions that do the same on machines that are the same but for one name. They may
    look up all other names. -/
def oblivionDiscipline (name : String) : NestedDiscipline where
  Obeys a := ∀ m m', m.SameBut name m' → EndsSame name (a m) (a m')
  Allows
    | .lookup other => other ≠ name
    | _ => True
  obeys_pure v _ _ h := .ok v h
  obeys_bind ha hf m m' h := endsSame_bind (ha m m' h) hf
  obeys_fault _ _ _ h := .error _ h
  obeys_heap m m' h := by
    have hheap : heap m' = .ok m.heap m' := by rw [h.heap]; rfl
    rw [hheap]
    exact .ok m.heap h
  obeys_growth _ _ _ h := endsSame_changeHeap _ h
  obeys_lookup {other} hne m m' h := by
    have hlookup : lookup other m' = .ok (m.store.get? other) m' := by
      rw [h.store other hne]; rfl
    rw [hlookup]
    exact .ok _ h
  obeys_assign _ _ _ h := .ok () (sameBut_set h _)
  obeys_element _ _ _ h := endsSame_changeHeap _ h
  obeys_write _ _ _ h := endsSame_write _ h
  obeys_readLine _ _ _ h := endsSame_readLine h
  obeys_unfinished _ _ _ h := .error _ h
  obeys_refusal _ _ _ h := .error _ h
  obeys_panic _ _ _ h := .error _ h
  obeys_guarded _ ha m m' h := endsSame_guarded (ha m m' h)
  obeys_currentDepth m m' h := by
    have hdepth : currentDepth m' = .ok m.depth m' := by rw [h.depth]; rfl
    rw [hdepth]
    exact .ok m.depth h
  obeys_deeper ha m m' h := endsSame_deeper
    (ha _ _ ⟨h.store, h.heap, h.input, h.output, congrArg (· + 1) h.depth⟩)

/-- Evaluation looks up only what is mentioned somewhere in the tree. -/
theorem endsSame_evaluate (limits : Limits) {t : Tree} (ht : t.mentions name = false)
    (h : m.SameBut name m') : EndsSame name (evaluate limits t m) (evaluate limits t m') := by
  refine endsSame_guarded ?_
  refine (oblivionDiscipline name).obeys_evalTree limits trivial
    (S := fun u => ∀ other, u.mentions other = true → t.mentions other = true)
    (fun u s c hu hc other h => hu other (hasNameInside_inside hc h))
    (fun u hu form hform e he => ?_) t (fun _ h => h) m m' h
  -- The discipline forbids looking up the one name, and a tree that does so mentions it.
  cases e with
  | lookup other =>
      rintro rfl
      have hmentions := hu other (hasNameInside_self hform (used_mem_effects he))
      rw [ht] at hmentions
      cases hmentions
  | _ => trivial

/-- Evaluating a tree leaves all variables alone that are not bound in it, however it ends,
    and never takes a binding away. A variable that is not mentioned in it has no part in
    it: from machines that are the same but for that variable, the tree ends with the same
    outcome on machines that are the same but for it. -/
theorem variables_do_not_interfere (limits : Limits) (t : Tree) :
    (∀ name m, t.rebinds name = false →
      ((evaluate limits t).after m).store.get? name = m.store.get? name) ∧
    (∀ name m, (m.store.get? name).isSome = true →
      (((evaluate limits t).after m).store.get? name).isSome = true) ∧
    ∀ name m m', t.mentions name = false → m.SameBut name m' →
      EndsSame name (evaluate limits t m) (evaluate limits t m') := by
  refine ⟨fun name m ht => ?_, fun name m hm => ?_, fun name m m' => endsSame_evaluate limits⟩
  · have hstays :
        Upholds (fun m' => m'.store.get? name = m.store.get? name) (evaluate limits t) := by
      refine upholds_evaluate (P := fun s => s.get? name = m.store.get? name) limits ?_
      intro other hother s v hs
      -- The name is bound nowhere in the tree, so it is another one that is bound.
      have hne : name ≠ other := by
        rintro rfl
        rw [ht] at hother
        cases hother
      rw [Store.get?_set_of_ne hne, hs]
    exact (hstays m rfl).after
  · have hstays : Upholds (fun m' => (m'.store.get? name).isSome = true) (evaluate limits t) := by
      refine upholds_evaluate (P := fun s => (s.get? name).isSome = true) limits ?_
      intro other _ s v hs
      by_cases heq : name = other
      · subst heq
        rw [Store.get?_set_self]
        rfl
      · rw [Store.get?_set_of_ne heq, hs]
    exact (hstays m hm).after

/-- A machine on which two names share one list, or only the first of them has it. -/
def sharingMachine (both : Bool) : Machine :=
  ⟨⟨("xs", .array ⟨0⟩) :: if both then [("ys", .array ⟨0⟩)] else []⟩, ⟨#[⟨1, #[.int 0]⟩]⟩, [],
    .empty none, 0⟩

/-- Writes an element of the list by its first name. -/
def writeFirst : Tree :=
  ⟨"array_assign1d", [.token "xs", .tree "number" [.token "0"], .tree "number" [.token "7"]]⟩

/-- The second name leads to the new element, but it is bound to the list as before, and it
    makes no difference whether it is. -/
theorem variables_do_not_interfere_shared :
    writeFirst.rebinds "ys" = false ∧ writeFirst.mentions "ys" = false ∧
      (sharingMachine true).SameBut "ys" (sharingMachine false) ∧
      ((evaluate ⟨8, 8⟩ writeFirst).after (sharingMachine true)).heap.items ⟨0⟩ = #[.int 7] ∧
      ((evaluate ⟨8, 8⟩ writeFirst).after (sharingMachine true)).store.get? "ys" =
        some (.array ⟨0⟩) ∧
      (((evaluate ⟨8, 8⟩ writeFirst).after (sharingMachine true)).store.get? "ys").isSome = true ∧
      EndsSame "ys" (evaluate ⟨8, 8⟩ writeFirst (sharingMachine true))
        (evaluate ⟨8, 8⟩ writeFirst (sharingMachine false)) := by
  -- The list is reached through both names, and only one of them is taken away.
  have hsame : (sharingMachine true).SameBut "ys" (sharingMachine false) := by
    refine ⟨fun other hne => ?_, rfl, rfl, rfl, rfl⟩
    have hys : (other == "ys") = false := by simpa using hne
    simp [sharingMachine, Store.get?, List.lookup_cons, hys]
  rcases variables_do_not_interfere ⟨8, 8⟩ writeFirst with ⟨hstays, hbound, hoblivious⟩
  exact ⟨by decide, by decide, hsame, by decide +kernel,
    hstays "ys" (sharingMachine true) (by decide), hbound "ys" (sharingMachine true) rfl,
    hoblivious "ys" _ _ (by decide) hsame⟩

end TreeScript
