import TreeScript.Proofs.Discipline
import TreeScript.Session

/-!
# Limited Output

What becomes of a run when its output takes only so many bytes. All bytes that the
run would write without a limit are in question: if there is room for them, nothing
changes, and if there is not, the run ends with the failure of the output once the
room is used up. So the failure is not taken for a fault by any guard, condition or
session on the way, and nothing is written after it.

The statement compares two runs, but it is put as a property of one action, `Writes`,
which says how the action ends for every amount of room at once. In that form it is
closed under doing one action after the other: where the first part fits, the second
one has the rest of the room, and where it does not, the second part is never come to,
but what it would have written still counts.

The run without a limit is part of the property and not an assumption on it: `Writes` says
what an action writes there, so that the bytes of a sequence of actions are put together
along with it. A failure of the output is no fault and has no continuation, which is why
`Writes.recover` needs nothing of the continuation in the case where the output is cut
off.

## Main definitions

* `Machine.limited`: A machine whose output takes only so many bytes more.
* `Writes`: What an action writes, and how it ends for every amount of room.
* `cuttingDiscipline`: The discipline of actions that are cut off cleanly.

## Theorems

* `Writes.bind`: Two actions in a row write the bytes of both.
* `Writes.recover`: Continuations of failures do not take up a full output.
* `full_output_ends_the_run`: Programs and sessions are cut off cleanly.
* `Writes.ok_of_fits`, `Writes.error_of_fits`: With room for all bytes the run is the one
  without a limit.
* `Writes.andThen`: What two actions in a row have in common, failures or not.
* `cut_evaluate`, `cut_session`: Trees and sessions.
-/

namespace TreeScript

/-- The machine with an output that takes only so many bytes more. -/
def Machine.limited (m : Machine) (room : Nat) : Machine :=
  { m with output := ⟨m.output.written, some (m.output.written.size + room)⟩ }

/-- The result with another output. -/
def withOutput {α : Type} (o : Output) :
    EStateM.Result Failure Machine α → EStateM.Result Failure Machine α
  | .ok v m => .ok v { m with output := o }
  | .error e m => .error e { m with output := o }

variable {α β : Type} {a : Action α} {f : α → Action β} {m m' : Machine} {v : α} {e : Failure}
  {bytes more : ByteArray}

/-- An action writes the given bytes in all if nothing limits the output. On a limited
    one it ends the same if there is room for them; else it fails once the room is used
    up. -/
structure Writes (a : Action α) (m : Machine) (bytes : ByteArray) : Prop where
  written : (a.after m).output = ⟨m.output.written ++ bytes, none⟩
  fits : ∀ room, bytes.size ≤ room → a (m.limited room) =
    withOutput ⟨m.output.written ++ bytes, some (m.output.written.size + room)⟩ (a m)
  cut : ∀ room, room < bytes.size → ∃ m', a (m.limited room) = .error (.stream .full) m' ∧
    m'.output = ⟨m.output.written ++ bytes.extract 0 room, some (m.output.written.size + room)⟩

/-- An action that has nothing to do with the output writes nothing. -/
theorem writes_nothing (hm : m.output.limit = none)
    (h : ∀ o, a { m with output := o } = withOutput o (a m)) : Writes a m .empty := by
  have hself : a m = withOutput m.output (a m) := h m.output
  refine ⟨?_, fun room _ => ?_, fun room hlt => absurd hlt (Nat.not_lt_zero room)⟩
  · rw [ByteArray.append_empty, ← hm, Action.after, hself]
    cases a m <;> rfl
  · rw [ByteArray.append_empty]
    exact h _

/-- The machine that is left where there is room is the limited one that is left where
    there is no limit. -/
theorem Writes.limited_after (h : Writes a m bytes) {room : Nat} (hle : bytes.size ≤ room) :
    { a.after m with output := ⟨m.output.written ++ bytes, some (m.output.written.size + room)⟩ } =
      (a.after m).limited (room - bytes.size) := by
  have hsize : m.output.written.size + bytes.size + (room - bytes.size) =
      m.output.written.size + room := by omega
  simp only [Machine.limited, h.written, ByteArray.size_append, hsize]

/-- With room for all the bytes the run is the one without a limit. -/
theorem Writes.ok_of_fits (h : Writes a m bytes) (hr : a m = .ok v m') {room : Nat}
    (hle : bytes.size ≤ room) : a (m.limited room) = .ok v (m'.limited (room - bytes.size)) := by
  have hafter := h.limited_after hle
  rw [h.fits room hle, hr, withOutput]
  rw [Action.after, hr] at hafter
  rw [hafter]

theorem Writes.error_of_fits (h : Writes a m bytes) (hr : a m = .error e m') {room : Nat}
    (hle : bytes.size ≤ room) : a (m.limited room) = .error e (m'.limited (room - bytes.size)) := by
  have hafter := h.limited_after hle
  rw [h.fits room hle, hr, withOutput]
  rw [Action.after, hr] at hafter
  rw [hafter]

theorem extract_of_size_le {n : Nat} (hle : bytes.size ≤ n) : bytes.extract 0 n = bytes := by
  rw [ByteArray.ext_iff, ByteArray.data_extract]
  exact Array.extract_eq_self_of_le hle

/-- One action after another. What comes of the first one decides that the second one is
    run, with or without a limit, but for the failure of a full output. -/
theorem Writes.andThen {b c : Action β} (ha : Writes a m bytes) (hb : Writes b (a.after m) more)
    (hc : c m = b (a.after m))
    (hfits : ∀ room, bytes.size ≤ room →
      c (m.limited room) = b ((a.after m).limited (room - bytes.size)))
    (hcut : ∀ room m', a (m.limited room) = .error (.stream .full) m' →
      c (m.limited room) = .error (.stream .full) m') : Writes c m (bytes ++ more) := by
  have hafter : c.after m = b.after (a.after m) := by simp only [Action.after, hc]
  have hlimit : ∀ room, bytes.size ≤ room →
      (a.after m).output.written.size + (room - bytes.size) = m.output.written.size + room := by
    intro room hle
    rw [ha.written, ByteArray.size_append]
    omega
  refine ⟨?_, fun room hle => ?_, fun room hlt => ?_⟩
  · rw [hafter, hb.written, ha.written, ByteArray.append_assoc]
  · rw [ByteArray.size_append] at hle
    rw [hfits room (by omega), hb.fits _ (by omega), hlimit room (by omega), ha.written, hc,
      ByteArray.append_assoc]
  · rw [ByteArray.size_append] at hlt
    rw [ByteArray.extract_append, Nat.zero_sub]
    by_cases hle : bytes.size ≤ room
    · -- The first action fits, and the second one is cut off where the room ends.
      rcases hb.cut (room - bytes.size) (by omega) with ⟨m', hm', ho⟩
      have hall : bytes.extract 0 room = bytes := extract_of_size_le hle
      refine ⟨m', (hfits room hle).trans hm', ?_⟩
      rw [ho, hlimit room hle, ha.written, hall, ByteArray.append_assoc]
    · -- The first action is cut off, and the bytes of the second one are not come to.
      rcases ha.cut room (by omega) with ⟨m', hm', ho⟩
      have hnone : more.extract 0 (room - bytes.size) = .empty :=
        ByteArray.extract_eq_empty_iff.mpr (by omega)
      refine ⟨m', hcut room m' hm', ?_⟩
      rw [ho, hnone, ByteArray.append_empty]

/-- Two actions in a row write one output after the other, so the cut falls in the first or in the
    second. -/
theorem Writes.bind (ha : Writes a m bytes)
    (hf : ∀ v m', m'.output.limit = none → ∃ more, Writes (f v) m' more) :
    ∃ all, Writes (a >>= f) m all := by
  have hlimit : (a.after m).output.limit = none := by rw [ha.written]
  have hcut : ∀ room m', a (m.limited room) = .error (.stream .full) m' →
      (a >>= f) (m.limited room) = .error (.stream .full) m' := fun room m' hr => bind_of_error hr
  cases hr : a m with
  | ok v m' =>
      have hafter : a.after m = m' := by simp only [Action.after, hr]
      rw [← hafter] at hr
      rcases hf v _ hlimit with ⟨more, hmore⟩
      refine ⟨_, ha.andThen hmore (bind_of_ok hr) (fun room hle => ?_) hcut⟩
      exact bind_of_ok (ha.ok_of_fits hr hle)
  | error e m' =>
      have hafter : a.after m = m' := by simp only [Action.after, hr]
      rw [← hafter] at hr
      -- The failure stands for the second action, and writes nothing.
      have hthrow : Writes (throw e : Action β) (a.after m) .empty :=
        writes_nothing hlimit fun _ => rfl
      refine ⟨_, ha.andThen hthrow (bind_of_error hr) (fun room hle => ?_) hcut⟩
      exact bind_of_error (ha.error_of_fits hr hle)

/-- What is done one level deeper writes what it writes there. -/
theorem Writes.deeper (ha : Writes a m.entered bytes) : Writes (TreeScript.deeper a) m bytes := by
  refine ⟨?_, fun room hle => ?_, fun room hlt => ?_⟩
  · rw [after_deeper]
    exact ha.written
  · -- A limit of the output does not change the level.
    have hfits : a (m.limited room).entered = _ := ha.fits room hle
    cases hr : a m.entered with
    | ok v m' =>
        rw [hr] at hfits
        rw [deeper_of_ok hr, deeper_of_ok hfits]
        rfl
    | error e m' =>
        rw [hr] at hfits
        rw [deeper_of_error hr, deeper_of_error hfits]
        rfl
  · rcases ha.cut room hlt with ⟨m', hm', ho⟩
    exact ⟨m'.exited, deeper_of_error hm', ho⟩

/-- A failure that is taken up is not that of a full output. -/
theorem Writes.recover {next? : Failure → Option (Action α)}
    (ha : Writes a m bytes) (hfull : next? (.stream .full) = none)
    (hnext : ∀ e b m', next? e = some b → m'.output.limit = none → ∃ more, Writes b m' more) :
    ∃ all, Writes (TreeScript.recover a next?) m all := by
  have hlimit : (a.after m).output.limit = none := by rw [ha.written]
  -- A full output is not picked up, so it ends the run where it is.
  have hcut : ∀ room m', a (m.limited room) = .error (.stream .full) m' →
      TreeScript.recover a next? (m.limited room) = .error (.stream .full) m' :=
    fun room m' hr => recover_of_error hr hfull
  cases hr : a m with
  | ok v m' =>
      have hafter : a.after m = m' := by simp only [Action.after, hr]
      rw [← hafter] at hr
      have hpure : Writes (pure v : Action α) (a.after m) .empty :=
        writes_nothing hlimit fun _ => rfl
      refine ⟨_, ha.andThen hpure (recover_of_ok hr next?) (fun room hle => ?_) hcut⟩
      exact recover_of_ok (ha.ok_of_fits hr hle) next?
  | error e m' =>
      have hafter : a.after m = m' := by simp only [Action.after, hr]
      rw [← hafter] at hr
      cases hb : next? e with
      | none =>
          have hthrow : Writes (throw e : Action α) (a.after m) .empty :=
            writes_nothing hlimit fun _ => rfl
          refine ⟨_, ha.andThen hthrow (recover_of_error hr hb) (fun room hle => ?_) hcut⟩
          exact recover_of_error (ha.error_of_fits hr hle) hb
      -- The continuation starts with the room that is left.
      | some b =>
          rcases hnext e b _ hb hlimit with ⟨more, hmore⟩
          refine ⟨_, ha.andThen hmore (recover_of_next hr hb) (fun room hle => ?_) hcut⟩
          exact recover_of_next (ha.error_of_fits hr hle) hb

namespace Output

variable {written : ByteArray} {room : Nat} {s : String}

theorem write_unlimited :
    (⟨written, none⟩ : Output).write s = (⟨written ++ s.toUTF8, none⟩, true) := by
  simp only [write, Output.room, ByteArray.extract_zero_size, beq_self_eq_true]

theorem write_fits (hle : s.toUTF8.size ≤ room) :
    (⟨written, some (written.size + room)⟩ : Output).write s =
      (⟨written ++ s.toUTF8, some (written.size + room)⟩, true) := by
  have hroom : min s.toUTF8.size (written.size + room - written.size) = s.toUTF8.size := by omega
  simp only [write, Output.room, hroom, ByteArray.extract_zero_size, beq_self_eq_true]

/-- Where the bytes do not fit, the beginning that does is written and the write fails. -/
theorem write_cut (hlt : room < s.toUTF8.size) :
    (⟨written, some (written.size + room)⟩ : Output).write s =
      (⟨written ++ s.toUTF8.extract 0 room, some (written.size + room)⟩, false) := by
  have hroom : min s.toUTF8.size (written.size + room - written.size) = room := by omega
  have hne : (room == s.toUTF8.size) = false := by simpa using Nat.ne_of_lt hlt
  simp only [write, Output.room, hroom, hne]

end Output

/-- One write is the base of the induction: all its bytes, or the beginning that fits. -/
theorem writes_write (hm : m.output.limit = none) (s : String) : Writes (write s) m s.toUTF8 := by
  rcases m with ⟨store, heap, input, ⟨written, limit⟩, depth⟩
  cases hm
  refine ⟨?_, fun room hle => ?_, fun room hlt => ?_⟩
  · simp only [Action.after, write, Output.write_unlimited, if_true]
  · simp only [Machine.limited, write, Output.write_unlimited, Output.write_fits hle, if_true,
      withOutput]
  · simp only [Machine.limited, write, Output.write_cut hlt]
    exact ⟨_, rfl, rfl⟩

theorem writes_readLine (hm : m.output.limit = none) : Writes readLine m .empty := by
  refine writes_nothing hm fun o => ?_
  rcases ht : takeLine m.input with ⟨line, rest⟩
  cases line with
  | nil => simp only [readLine, ht, withOutput]
  | cons b bs => cases hd : decode? (b :: bs) <;> simp only [readLine, ht, hd, withOutput]

/-- The actions that are cut off cleanly on every machine. They may have any effect. -/
def cuttingDiscipline : NestedDiscipline where
  Obeys a := ∀ m : Machine, m.output.limit = none → ∃ bytes, Writes a m bytes
  Allows _ := True
  obeys_pure v m hm := ⟨_, writes_nothing hm fun _ => rfl⟩
  obeys_bind ha hf m hm := by
    rcases ha m hm with ⟨bytes, hbytes⟩
    exact hbytes.bind hf
  obeys_fault f m hm := ⟨_, writes_nothing hm fun _ => rfl⟩
  obeys_heap m hm := ⟨_, writes_nothing hm fun _ => rfl⟩
  obeys_growth _ m hm := ⟨_, writes_nothing hm fun _ => rfl⟩
  obeys_lookup _ m hm := ⟨_, writes_nothing hm fun _ => rfl⟩
  obeys_assign _ m hm := ⟨_, writes_nothing hm fun _ => rfl⟩
  obeys_element _ m hm := ⟨_, writes_nothing hm fun _ => rfl⟩
  obeys_write _ m hm := ⟨_, writes_write hm _⟩
  obeys_readLine _ m hm := ⟨_, writes_readLine hm⟩
  obeys_unfinished _ m hm := ⟨_, writes_nothing hm fun _ => rfl⟩
  obeys_refusal _ m hm := ⟨_, writes_nothing hm fun _ => rfl⟩
  obeys_panic _ m hm := ⟨_, writes_nothing hm fun _ => rfl⟩
  obeys_guarded _ ha m hm := by
    rcases ha m hm with ⟨bytes, hbytes⟩
    refine hbytes.recover rfl fun e b m' hb hm' => ?_
    -- Only a fault is taken up, by writing a line.
    cases e <;> cases hb
    exact (writes_write hm' _).bind fun _ m'' hm'' => ⟨_, writes_nothing hm'' fun _ => rfl⟩
  obeys_currentDepth m hm := ⟨_, writes_nothing hm fun _ => rfl⟩
  obeys_deeper ha m hm := by
    rcases ha m.entered hm with ⟨bytes, hbytes⟩
    exact ⟨bytes, hbytes.deeper⟩

theorem cut_evaluate (limits : Limits) (t : Tree) : cuttingDiscipline.Obeys (evaluate limits t) :=
  cuttingDiscipline.obeys_evaluate limits (fun _ => trivial) t

theorem cut_discard (limits : Limits) (t : Tree) :
    cuttingDiscipline.Obeys (discard (evaluate limits t)) :=
  cuttingDiscipline.obeys_bind (cut_evaluate limits t) fun _ => cuttingDiscipline.obeys_pure ()

theorem cut_runTrees (limits : Limits) (trees : List Tree) :
    cuttingDiscipline.Obeys (runTrees limits trees) := by
  induction trees with
  | nil => exact cuttingDiscipline.obeys_pure ()
  | cons t trees ih => exact cuttingDiscipline.obeys_bind (cut_discard limits t) fun _ => ih

/-- What a line of a session writes can be cut anywhere, the report on a malformed tree
    included. -/
theorem cut_respond (limits : Limits) (line : String) :
    cuttingDiscipline.Obeys (respond limits line) := by
  unfold respond
  split
  · exact cuttingDiscipline.obeys_pure ()
  · split
    · exact cuttingDiscipline.obeys_write trivial
    · rename_i t _
      intro m hm
      rcases cut_discard limits t m hm with ⟨bytes, hbytes⟩
      refine hbytes.recover rfl fun e b m' hb hm' => ?_
      -- Of the failures, only a malformed tree is told.
      cases e <;> cases hb
      exact ⟨_, writes_write hm' _⟩

/-- A session is its lines one after another, by induction on the lines that are left. -/
theorem cut_answerLines (limits : Limits) (n : Nat) :
    cuttingDiscipline.Obeys (answerLines limits n) := by
  induction n with
  | zero => exact cuttingDiscipline.obeys_unfinished trivial
  | succ n ih =>
      refine cuttingDiscipline.obeys_bind (cuttingDiscipline.obeys_write trivial) fun _ => ?_
      refine cuttingDiscipline.obeys_bind (cuttingDiscipline.obeys_readLine trivial) fun line? => ?_
      cases line? with
      | none => exact cuttingDiscipline.obeys_pure ()
      | some line => exact cuttingDiscipline.obeys_bind (cut_respond limits line) fun _ => ih

/-- How many lines there are at most depends on the input, which the limit leaves
    alone. -/
theorem cut_session (limits : Limits) : cuttingDiscipline.Obeys (session limits) := by
  refine cuttingDiscipline.obeys_bind (cuttingDiscipline.obeys_write trivial) fun _ m hm => ?_
  rcases cut_answerLines limits (m.input.length + 1) m hm with ⟨bytes, h⟩
  exact ⟨bytes, h.written, h.fits, h.cut⟩

/-- A program or a session whose output is limited ends as it would without the limit, on
    the same machine and with the same output, if there is room for all that it writes.
    Otherwise it fails because the output is full, and what there was room for has been
    written. -/
theorem full_output_ends_the_run (limits : Limits) (m : Machine) (hm : m.output.limit = none) :
    (∀ trees, ∃ bytes, Writes (runTrees limits trees) m bytes) ∧
      ∃ bytes, Writes (session limits) m bytes :=
  ⟨fun trees => cut_runTrees limits trees m hm, cut_session limits m hm⟩

/-- On a machine on which nothing has been written, what is cut off is the output. -/
theorem Writes.cut_start {input : List UInt8} {all : ByteArray}
    (h : Writes a (.start input none) bytes)
    (hall : (a.after (.start input none)).output.written = all) {room : Nat}
    (hroom : room < all.size) :
    ∃ m', a ((Machine.start input none).limited room) = .error (.stream .full) m' ∧
      m'.output.written = all.extract 0 room := by
  have hbytes : ByteArray.empty ++ bytes = all :=
    (congrArg Output.written h.written).symm.trans hall
  rw [ByteArray.empty_append] at hbytes
  -- Nothing was written before, so what is written is the output itself.
  subst hbytes
  rcases h.cut room hroom with ⟨m', hm', ho⟩
  exact ⟨m', hm', (congrArg Output.written ho).trans ByteArray.empty_append⟩

/-- Two statements: one that has a fault, and one that writes. -/
def tellAndPrint : Tree :=
  ⟨"statements", [.seq [.tree "name" [.token "x"], .tree "print" [.tree "string" [.token "a"]]]]⟩

/-- The diagnostic of the first statement is cut off, and that is no fault that a guard
    could take: the second statement does not run. A session is cut off in its answer to a
    line, and does not come to the next prompt. -/
theorem full_output_ends_the_run_diagnostic :
    (Machine.start [] none).output.limit = none ∧
      ((runTrees ⟨8, 8⟩ [tellAndPrint]).after (.start [] none)).output.written =
        "as says: x hasn't been defined!\na\n".toUTF8 ∧
      (∃ m', runTrees ⟨8, 8⟩ [tellAndPrint] ((Machine.start [] none).limited 7) =
        .error (.stream .full) m' ∧ m'.output.written = "as says".toUTF8) ∧
      ((session ⟨8, 8⟩).after (.start "(\n".toUTF8.data.toList none)).output.written =
        "aslang 0.1.0\nas > as says: Error on line 1: Unexpected end of input.\nas > ".toUTF8 ∧
      ∃ m', session ⟨8, 8⟩ ((Machine.start "(\n".toUTF8.data.toList none).limited 20) =
        .error (.stream .full) m' ∧ m'.output.written = "aslang 0.1.0\nas > as".toUTF8 := by
  have htrees : ((runTrees ⟨8, 8⟩ [tellAndPrint]).after (.start [] none)).output.written =
      "as says: x hasn't been defined!\na\n".toUTF8 := by
    rw [ByteArray.ext_iff]
    decide +kernel
  have hsession : ((session ⟨8, 8⟩).after
      (.start "(\n".toUTF8.data.toList none)).output.written =
      "aslang 0.1.0\nas > as says: Error on line 1: Unexpected end of input.\nas > ".toUTF8 := by
    rw [ByteArray.ext_iff]
    decide +kernel
  rcases (full_output_ends_the_run ⟨8, 8⟩ (.start [] none) rfl).1 [tellAndPrint] with ⟨_, hrun⟩
  rcases (full_output_ends_the_run ⟨8, 8⟩ (.start "(\n".toUTF8.data.toList none) rfl).2 with
    ⟨_, hsession'⟩
  -- The output is cut in the middle of a report, in both cases.
  rcases hrun.cut_start htrees (by decide +kernel : 7 < _) with ⟨m₁, hm₁, hcut₁⟩
  rcases hsession'.cut_start hsession (by decide +kernel : 20 < _) with ⟨m₂, hm₂, hcut₂⟩
  refine ⟨rfl, htrees, ⟨m₁, hm₁, hcut₁.trans ?_⟩, hsession, m₂, hm₂, hcut₂.trans ?_⟩
  · rw [ByteArray.ext_iff]
    decide +kernel
  · rw [ByteArray.ext_iff]
    decide +kernel

end TreeScript
