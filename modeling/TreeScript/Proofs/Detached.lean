import TreeScript.Proofs.Limit
import TreeScript.Proofs.Variables

/-!
# Trees That Read Nothing

A tree in which no line is read does not notice on what streams it runs, as long as the
output takes everything: what has not been read stays where it is, what has been written
before stays in front of what it writes, and neither has any part in how it ends.

So the end of an action that is detached from the streams can be given once and is the same
on all of them, but for what they hold. That makes it possible to compare a run with another
one on other streams, as a session is with a program: the first has its trees on the input
and writes prompts between them.

`EndsOnAll` gives the end together with the machine for it, and not as a relation between
two runs, so that ends of actions in a row can be put together. The output of that machine
is just what the action writes, since it starts from an output that holds nothing; what
was there before is put in front of it.

## Main definitions

* `Machine.on`: The variables and the arrays of a machine with other streams.
* `EndsOnAll`, `Detached`: An end that an action has on all streams, and an action that has
  one wherever it starts.
* `Tree.readsNothing`: No tree in it is of the form that reads a line.
* `detachedDiscipline`: The detached actions. They may have any effect but reading.

## Theorems

* `detached_bind`, `detached_guarded`: Detached actions in a row are detached.
* `detached_evaluate`: So is the evaluation of a tree that reads nothing.
* `EndsOnAll.after`, `EndsOnAll.said`: What such an action leaves, and what it writes.
* `endsOnAll_nothing`, `endsOnAll_ok`: Actions that do nothing with the streams.
* `detached_write`, `EndsOnAll.andThen`: What is written, and in which order.
* `detached_deeper`: What is done one level deeper.
-/

namespace TreeScript

/-- The machine with another input and an output that is not limited, on which something
    has been written. -/
def Machine.on (m : Machine) (input : List UInt8) (written : ByteArray) : Machine :=
  { m with input := input, output := ⟨written, none⟩ }

variable {α β : Type}

/-- The end with a value, or with a failure, on a machine. -/
def ended : Except Failure α → Machine → EStateM.Result Failure Machine α
  | .ok v, m => .ok v m
  | .error e, m => .error e m

/-- With the variables and the arrays of a machine, an action has one end on all streams, no
    stream fails, and it writes what is on the output of the machine that is given for its
    end. -/
structure EndsOnAll (a : Action α) (m : Machine) (x : Except Failure α) (m' : Machine) : Prop where
  works : ∀ s, x ≠ .error (.stream s)
  ends : ∀ input before,
    a (m.on input before) = ended x (m'.on input (before ++ m'.output.written))

/-- An action that has such an end wherever it starts. -/
def Detached (a : Action α) : Prop := ∀ m, ∃ x m', EndsOnAll a m x m'

/-- What an action writes. -/
def Action.said (a : Action α) (m : Machine) : ByteArray :=
  (a.after { m with output := .empty none }).output.written

/-- Whether no tree in a tree, nor the tree itself, reads a line. -/
def Tree.readsNothing (t : Tree) : Bool := t.every fun u => Form.ofTag? u.tag != some .input

variable {a : Action α} {f : α → Action β} {m m' m'' : Machine} {v : α} {e : Failure}
  {x : Except Failure α}

/-- An action that has nothing to do with the streams writes nothing. -/
theorem endsOnAll_nothing (m' : Machine) (hx : ∀ s, x ≠ .error (.stream s))
    (h : ∀ input before, a (m.on input before) = ended x (m'.on input before)) :
    EndsOnAll a m x (m'.on [] .empty) := by
  refine ⟨hx, fun input before => ?_⟩
  have hwritten : before ++ (m'.on [] .empty).output.written = before := ByteArray.append_empty
  rw [h, hwritten]
  rfl

/-- To end alike on all streams it is enough to return the same value from machines that differ in
    their streams only. -/
theorem endsOnAll_ok (v : α) (m' : Machine)
    (h : ∀ input before, a (m.on input before) = .ok v (m'.on input before)) :
    EndsOnAll a m (.ok v) (m'.on [] .empty) := endsOnAll_nothing m' nofun h

theorem detached_pure (v : α) : Detached (pure v : Action α) :=
  fun m => ⟨_, _, endsOnAll_ok v m fun _ _ => rfl⟩

theorem detached_throw (he : ∀ s, e ≠ .stream s) : Detached (throw e : Action α) := by
  have hx : ∀ s, (.error e : Except Failure α) ≠ .error (.stream s) := by
    rintro s ⟨⟩
    exact he s rfl
  exact fun m => ⟨_, _, endsOnAll_nothing m hx fun _ _ => rfl⟩

theorem write_on (s : String) (m : Machine) (input : List UInt8) (before : ByteArray) :
    write s (m.on input before) = .ok () (m.on input (before ++ s.toUTF8)) := by
  simp only [write, Machine.on, Output.write_unlimited, if_true]

theorem detached_write (s : String) : Detached (write s) :=
  fun m => ⟨.ok (), m.on [] s.toUTF8, nofun, write_on s m⟩

/-- An action that goes on where another one has ended, on the same streams. -/
theorem EndsOnAll.andThen {b c : Action α} (hb : EndsOnAll b m' x m'')
    (hc : ∀ input before, c (m.on input before) = b (m'.on input (before ++ m'.output.written))) :
    EndsOnAll c m x (m''.on [] (m'.output.written ++ m''.output.written)) := by
  refine ⟨hb.works, fun input before => ?_⟩
  rw [hc, hb.ends, ByteArray.append_assoc]
  rfl

/-- Two detached actions in a row are detached. -/
theorem detached_bind (ha : Detached a) (hf : ∀ v, Detached (f v)) : Detached (a >>= f) := by
  intro m
  rcases ha m with ⟨x, m', h⟩
  cases x with
  -- The second action starts on the machine that the first one leaves, on any streams.
  | ok v =>
      rcases hf v m' with ⟨y, m'', h'⟩
      exact ⟨_, _, h'.andThen fun input before => bind_of_ok (h.ends input before)⟩
  | error e =>
      refine ⟨.error e, m', ?_, fun input before => bind_of_error (h.ends input before)⟩
      rintro s ⟨⟩
      exact h.works s rfl

/-- What is done one level deeper is detached if it is there. -/
theorem detached_deeper (ha : Detached a) : Detached (deeper a) := by
  intro m
  rcases ha m.entered with ⟨x, m', h⟩
  refine ⟨x, m'.exited, h.works, fun input before => ?_⟩
  have hends := h.ends input before
  cases x with
  | ok v => exact deeper_eq_ok_iff.mpr ⟨_, hends, rfl⟩
  | error e => exact deeper_eq_error_iff.mpr ⟨_, hends, rfl⟩

/-- The report of a fault is written, and nothing is read for it. -/
theorem detached_guarded {a : Action Value} (ha : Detached a) : Detached (guarded a) := by
  intro m
  rcases ha m with ⟨x, m', h⟩
  cases x with
  | ok v => exact ⟨.ok v, m', nofun, fun input before => guarded_of_ok (h.ends input before)⟩
  | error e =>
      cases e with
      | fault f =>
          have hnext : Detached (report f.message >>= fun _ => pure Value.absent) :=
            detached_bind (detached_write _) fun _ => detached_pure _
          rcases hnext m' with ⟨y, m'', h'⟩
          exact ⟨_, _, h'.andThen fun input before => recover_of_next (h.ends input before) rfl⟩
      | _ => exact ⟨_, _, h.works, fun input before => recover_of_error (h.ends input before) rfl⟩

/-- The detached actions. They may have any effect but reading. -/
def detachedDiscipline : NestedDiscipline where
  Obeys a := Detached a
  Allows e := e ≠ .readLine
  obeys_pure v := detached_pure v
  obeys_bind ha hf := detached_bind ha hf
  obeys_fault _ := detached_throw nofun
  obeys_heap m := ⟨_, _, endsOnAll_ok m.heap m fun _ _ => rfl⟩
  obeys_growth {_ f} _ m := ⟨_, _, endsOnAll_ok _ { m with heap := (f m.heap).2 } fun _ _ => rfl⟩
  obeys_lookup {name} _ m := ⟨_, _, endsOnAll_ok (m.store.get? name) m fun _ _ => rfl⟩
  obeys_assign {name v} _ m :=
    ⟨_, _, endsOnAll_ok () { m with store := m.store.set name v } fun _ _ => rfl⟩
  obeys_element {s v} _ m :=
    ⟨_, _, endsOnAll_ok () { m with heap := m.heap.write s v } fun _ _ => rfl⟩
  obeys_write _ := detached_write _
  obeys_readLine h := absurd rfl h
  obeys_unfinished _ := detached_throw nofun
  obeys_refusal _ := detached_throw nofun
  obeys_panic _ := detached_throw nofun
  obeys_guarded _ ha := detached_guarded ha
  obeys_currentDepth m := ⟨_, _, endsOnAll_ok m.depth m fun _ _ => rfl⟩
  obeys_deeper ha := detached_deeper ha

/-- Only one form reads. -/
theorem eq_input_of_mem_effects {t : Tree} {form : Form} (h : .readLine ∈ form.effects t) :
    form = .input := by
  cases form with
  | unary op => cases op <;> simp [Form.effects, Tree.mem_onName_iff] at h
  | input => rfl
  | _ => simp [Form.effects, Tree.mem_onName_iff, Tree.mem_onSizes_iff] at h

/-- The evaluation of a tree that reads nothing does not depend on the streams. -/
theorem detached_evaluate (limits : Limits) {t : Tree} (ht : t.readsNothing = true) :
    Detached (evaluate limits t) := by
  have hrefusal : detachedDiscipline.Allows .refusal := (nofun : Effect.refusal ≠ .readLine)
  refine detached_guarded ?_
  refine detachedDiscipline.obeys_evalTree limits hrefusal (S := fun u => u.readsNothing = true)
    (fun u s c hu hc => Tree.every_inside hu hc) (fun u hu form hform e he => ?_) t ht
  -- The only form that reads is excluded by the hypothesis.
  rintro rfl
  have hself := Tree.every_self hu
  rw [hform, eq_input_of_mem_effects he] at hself
  cases hself

theorem after_of_ended (h : a m = ended x m') : a.after m = m' := by
  rw [Action.after, h]
  cases x <;> rfl

theorem on_self (hm : m.output.limit = none) : m.on m.input m.output.written = m := by
  rcases m with ⟨store, heap, input, ⟨written, limit⟩, depth⟩
  cases hm
  rfl

/-- Where the output is not limited, the end is the one on the streams of the machine. -/
theorem EndsOnAll.self (h : EndsOnAll a m x m') (hm : m.output.limit = none) :
    a m = ended x (m'.on m.input (m.output.written ++ m'.output.written)) := by
  have hself := h.ends m.input m.output.written
  rwa [on_self hm] at hself

/-- After the action the input stands where it stood, and the output has what was said. -/
theorem EndsOnAll.after (h : EndsOnAll a m x m') (hm : m.output.limit = none) :
    a.after m = m'.on m.input (m.output.written ++ m'.output.written) :=
  after_of_ended (h.self hm)

theorem EndsOnAll.said (h : EndsOnAll a m x m') : a.said m = m'.output.written := by
  have hempty : a.after { m with output := .empty none } =
      m'.on m.input (.empty ++ m'.output.written) := after_of_ended (h.ends m.input .empty)
  rw [Action.said, hempty]
  exact ByteArray.empty_append

end TreeScript
