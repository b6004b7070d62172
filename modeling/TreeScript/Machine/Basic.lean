import TreeScript.Machine.Store
import TreeScript.Machine.Stream
import TreeScript.Number.Size
import TreeScript.Tree.Shape
import TreeScript.Value.Heap

/-!
# The Machine

What a program runs on: its variables, its arrays and its two streams, and a
counter for how deep the tree that is being evaluated is nested in others. An
action changes a machine and yields something, or fails. What it has changed
before it fails stays changed.

The counter is stepped up before a tree is evaluated and down behind it. It is
part of the machine and not of the tree, so one level that is not taken back
would be missing for the rest of a session; `deeper` is the one place where
that is decided.

Faults, malformed trees, streams that fail, loops that are cut short and panics are
failures of one type, told apart by whoever has to go on behind them. A guard takes the
faults and nothing else. That a failure keeps the changes before it is the choice of the
monad, in which the machine is returned with the failure.

## Main definitions

* `Machine`: Variables, arrays and streams.
* `Failure`: Why an action does not yield anything.
* `Action`: A change of a machine that may fail.
* `deeper`: An action one level deeper.
* `recover`: An action with a continuation for some of its failures.
* `guarded`: An action whose faults are reported.

## Theorems

* `guarded_of_ok`: What succeeds is not changed by the guard.
* `guarded_ne_fault`: A guarded action never fails with a fault.
-/

namespace TreeScript

/-- What a program runs on. -/
structure Machine where
  store : Store
  heap : Heap
  /-- The bytes of the input that have not been read. -/
  input : List UInt8
  output : Output
  /-- How many trees are being evaluated, each of them inside the one before. -/
  depth : Nat
  deriving DecidableEq, Inhabited

namespace Machine

/-- A machine on which nothing has run, with the given streams. -/
def start (input : List UInt8) (limit : Option Nat) : Machine :=
  ⟨.empty, .empty, input, .empty limit, 0⟩

/-- The machine for a tree inside the one that is being evaluated. -/
def entered (m : Machine) : Machine := { m with depth := m.depth + 1 }

/-- The machine when a tree inside has been evaluated. -/
def exited (m : Machine) : Machine := { m with depth := m.depth - 1 }

end Machine

/-- Why an action fails. -/
inductive Failure where
  /-- A fault of the running program. -/
  | fault (f : Fault)
  /-- A tree does not fit its tag. -/
  | malformed (e : ShapeError)
  /-- A stream fails. -/
  | stream (e : StreamError)
  /-- A loop has had all the rounds that it was allowed. -/
  | unfinished
  /-- The run is given up on the spot. -/
  | panicked (p : Panic)
  deriving DecidableEq, Inhabited

/-- The wording of a failure. -/
def Failure.message : Failure → String
  | .fault f => f.message
  | .malformed e => "malformed tree: " ++ e.message
  | .stream e => "i/o failure: " ++ e.message
  | .unfinished => "unfinished"
  | .panicked p => p.message

/-- A change of a machine that yields something or fails. -/
abbrev Action := EStateM Failure Machine

instance : MonadLift (Except Fault) Action where
  monadLift
    | .ok a => pure a
    | .error f => throw (.fault f)

instance : MonadLift (Except ShapeError) Action where
  monadLift
    | .ok a => pure a
    | .error e => throw (.malformed e)

instance : MonadLift (Except Panic) Action where
  monadLift
    | .ok a => pure a
    | .error p => throw (.panicked p)

/-- Fails with a fault. -/
def fail (f : Fault) : Action α := throw (.fault f)

/-- The arrays of the machine. -/
def heap : Action Heap := return (← get).heap

/-- Changes the arrays of the machine. -/
def changeHeap (f : Heap → α × Heap) : Action α := fun ⟨store, heap, input, output, depth⟩ =>
  let (a, heap) := f heap
  .ok a ⟨store, heap, input, output, depth⟩

/-- The value of a name. -/
def lookup (name : String) : Action (Option Value) :=
  return (← get).store.get? name

/-- Gives a value to a name. -/
def assign (name : String) (v : Value) : Action Unit :=
  fun ⟨store, heap, input, output, depth⟩ =>
    .ok () ⟨store.set name v, heap, input, output, depth⟩

/-- Writes a text to the output. -/
def write (s : String) : Action Unit := fun ⟨store, heap, input, output, depth⟩ =>
  let (output, done) := output.write s
  if done then .ok () ⟨store, heap, input, output, depth⟩
  else .error (.stream .full) ⟨store, heap, input, output, depth⟩

/-- Reads a line of the input, with the character that ends it. There is none
    at the end of the input. -/
def readLine : Action (Option String) := fun ⟨store, heap, input, output, depth⟩ =>
  match takeLine input with
  | ([], rest) => .ok none ⟨store, heap, rest, output, depth⟩
  | (line, rest) => match decode? line with
    | some s => .ok (some s) ⟨store, heap, rest, output, depth⟩
    | none => .error (.stream .notText) ⟨store, heap, rest, output, depth⟩

/-- How many trees are being evaluated, each of them inside the one before. -/
def currentDepth : Action Nat := return (← get).depth

/-- An action one level deeper. The level is taken back however it ends. Nothing goes on
    behind a panic, so that it makes no difference there. -/
def deeper (a : Action α) : Action α := fun m =>
  match a m.entered with
  | .ok v m' => .ok v m'.exited
  | .error e m' => .error e m'.exited

/-- Writes a line that tells the user of a program what went wrong. -/
def report (message : String) : Action Unit :=
  write ("as says: " ++ message ++ "\n")

/-- An action with a continuation for some of its failures. It goes on with the
    machine as the failure has left it. -/
def recover (a : Action α) (next? : Failure → Option (Action α)) : Action α := fun m =>
  match a m with
  | .ok v m => .ok v m
  | .error e m => match next? e with
    | some b => b m
    | none => .error e m

/-- An action whose faults are reported. There is no value then; all other
    failures remain failures. -/
def guarded (a : Action Value) : Action Value :=
  recover a fun
    | .fault f => some do
      report f.message
      pure .absent
    | _ => none

/-- What succeeds is not changed by a continuation for failures. -/
theorem recover_of_ok {a : Action α} {m m' : Machine} {v : α} (h : a m = .ok v m')
    (next? : Failure → Option (Action α)) : recover a next? m = .ok v m' := by
  simp [recover, h]

/-- A failure without a continuation remains. -/
theorem recover_of_error {a : Action α} {m m' : Machine} {e : Failure} (h : a m = .error e m')
    {next? : Failure → Option (Action α)} (hn : next? e = none) :
    recover a next? m = .error e m' := by
  simp [recover, h, hn]

/-- What succeeds is not changed by the guard. -/
theorem guarded_of_ok {a : Action Value} {m m' : Machine} {v : Value} (h : a m = .ok v m') :
    guarded a m = .ok v m' :=
  recover_of_ok h _

/-- Writing fails only because the output is full. -/
theorem eq_full_of_write {s : String} {m m' : Machine} {e : Failure}
    (h : write s m = .error e m') : e = .stream .full := by
  simp only [write] at h
  split at h
  · cases h
  · cases h
    rfl

/-- A guarded action never fails with a fault. -/
theorem guarded_ne_fault (a : Action Value) (m m' : Machine) (f : Fault) :
    guarded a m ≠ .error (.fault f) m' := by
  intro h
  unfold guarded recover at h
  split at h
  · cases h
  · rename_i e m₁ _
    cases e with
    | fault g =>
      simp only [report, bind, EStateM.bind, pure, EStateM.pure] at h
      split at h
      · cases h
      · rename_i he
        cases h
        cases eq_full_of_write he
    | malformed _ => cases h
    | stream _ => cases h
    | unfinished => cases h
    | panicked _ => cases h

end TreeScript
