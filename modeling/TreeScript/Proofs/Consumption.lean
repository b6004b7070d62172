import TreeScript.Proofs.Discipline

/-!
# Input Is Read Line by Line

What is read of the input, and that nothing else of it matters. An action takes bytes off
the front of the input. As long as some are left, those that it has taken are whole lines,
and it would have done the same with anything else behind them: it has not looked ahead.
At the end of the input that is different, since an action can notice it, and a last line
needs no line break.

As with the output, the statement is one of a single action, `Consumes`, although it speaks
of all inputs that begin in the same way. Of two actions in a row the first one has the
bytes of the second one behind its own, whatever they are, so the property is closed under
doing one after the other.

The bytes that an action reads are given along with the property, since what is left of the
input after a failure is fixed as well, and an existential would have to be opened at every
action. Of two actions in a row the first one leaves at least what the second one leaves. So
if there are bytes left in the end there were some in between, and what is known of the first
action in that case can be used.

## Main definitions

* `WholeLines`: Bytes that end with a line break, or no bytes.
* `Consumes`: What an action reads, and that it does not depend on what is behind.
* `readingDiscipline`: The actions that read in this way. They may have any effect.

## Theorems

* `takeLine_of_lineFeed`: Where a line ends does not depend on what is behind it.
* `Consumes.bind`, `Consumes.recover`: Two actions in a row read the bytes of both.
* `run_depends_on_input_read`: What a tree leaves unread could be anything else.
* `consumes_nothing`, `consumes_write`: Actions that do not read.
* `consumes_readLine`: Reading a line, the one action that takes bytes.
* `Consumes.andThen`: What two actions in a row have in common, failures or not.
-/

namespace TreeScript

/-- The result on a machine with other bytes to be read. -/
def withInput {α : Type} (bytes : List UInt8) :
    EStateM.Result Failure Machine α → EStateM.Result Failure Machine α
  | .ok v m => .ok v { m with input := bytes }
  | .error e m => .error e { m with input := bytes }

/-- Bytes that are whole lines: the last of them, if there is one, is a line break. -/
def WholeLines (bytes : List UInt8) : Prop := bytes = [] ∨ ∃ before, bytes = before ++ [lineFeed]

variable {α β : Type} {a : Action α} {f : α → Action β} {m m' : Machine} {v : α} {e : Failure}
  {read more bytes : List UInt8}

/-- An action takes the given bytes off the input. If there are bytes left, it has taken
    whole lines, and with anything else behind them it does the same and leaves that. -/
structure Consumes (a : Action α) (m : Machine) (read : List UInt8) : Prop where
  left : m.input = read ++ (a.after m).input
  lines : (a.after m).input ≠ [] → WholeLines read
  only : (a.after m).input ≠ [] → ∀ rest, a { m with input := read ++ rest } = withInput rest (a m)

theorem WholeLines.append (h : WholeLines read) (h' : WholeLines more) :
    WholeLines (read ++ more) := by
  rcases h' with rfl | ⟨before, rfl⟩
  · rwa [List.append_nil]
  · exact .inr ⟨read ++ before, (List.append_assoc ..).symm⟩

/-- An action that has nothing to do with the input reads nothing. -/
theorem consumes_nothing (h : ∀ bytes, a { m with input := bytes } = withInput bytes (a m)) :
    Consumes a m [] := by
  have hself : a m = withInput m.input (a m) := h m.input
  refine ⟨?_, fun _ => .inl rfl, fun _ rest => h rest⟩
  rw [List.nil_append, Action.after, hself]
  cases a m <;> rfl

theorem consumes_write (m : Machine) (s : String) : Consumes (write s) m [] := by
  refine consumes_nothing fun bytes => ?_
  cases h : (m.output.write s).2 <;> simp [write, h, withInput]

/-- One action after another. What comes of the first one decides that the second one is
    run, on what the first one has left. -/
theorem Consumes.andThen {b c : Action β} (ha : Consumes a m read)
    (hb : Consumes b (a.after m) more) (hc : c m = b (a.after m))
    (honly : ∀ rest, a { m with input := read ++ rest } = withInput rest (a m) →
      c { m with input := read ++ rest } = b { a.after m with input := rest }) :
    Consumes c m (read ++ more) := by
  have hafter : c.after m = b.after (a.after m) := by simp only [Action.after, hc]
  -- What the second action leaves, the first one has left too.
  have hleft : (c.after m).input ≠ [] → (a.after m).input ≠ [] := by
    intro hne hnil
    have hall := hb.left
    rw [hnil] at hall
    exact hne (hafter ▸ (List.append_eq_nil_iff.mp hall.symm).2)
  refine ⟨?_, fun hne => ?_, fun hne rest => ?_⟩
  · rw [ha.left, hb.left, hafter, List.append_assoc]
  · exact (ha.lines (hleft hne)).append (hb.lines (hafter ▸ hne))
  · rw [List.append_assoc, honly _ (ha.only (hleft hne) _), hb.only (hafter ▸ hne), hc]

/-- Two actions in a row read what the first reads and then what the second reads. -/
theorem Consumes.bind (ha : Consumes a m read)
    (hf : ∀ v m', ∃ more, Consumes (f v) m' more) : ∃ all, Consumes (a >>= f) m all := by
  cases hr : a m with
  | ok v m' =>
      replace hr := ok_after hr
      rcases hf v (a.after m) with ⟨more, hmore⟩
      refine ⟨_, ha.andThen hmore (bind_of_ok hr) fun rest hrest => ?_⟩
      rw [hr] at hrest
      exact bind_of_ok hrest
  | error e m' =>
      replace hr := error_after hr
      -- The failure stands for the second action, and reads nothing.
      have hthrow : Consumes (throw e : Action β) (a.after m) [] := consumes_nothing fun _ => rfl
      refine ⟨_, ha.andThen hthrow (bind_of_error hr) fun rest hrest => ?_⟩
      rw [hr] at hrest
      exact bind_of_error hrest

/-- What is done one level deeper reads what it reads there. -/
theorem Consumes.deeper (ha : Consumes a m.entered read) :
    Consumes (TreeScript.deeper a) m read := by
  refine ⟨?_, fun hne => ?_, fun hne rest => ?_⟩
  · rw [after_deeper]
    exact ha.left
  · rw [after_deeper] at hne
    exact ha.lines hne
  · rw [after_deeper] at hne
    -- Other bytes on the input do not change the level.
    have honly : a ({ m with input := read ++ rest } : Machine).entered = _ := ha.only hne rest
    cases hr : a m.entered with
    | ok v m' =>
        rw [hr] at honly
        rw [deeper_of_ok hr, deeper_of_ok honly]
        rfl
    | error e m' =>
        rw [hr] at honly
        rw [deeper_of_error hr, deeper_of_error honly]
        rfl

/-- Picking up a failure goes on from the input the failure left, so the lines read before it stay
    read. -/
theorem Consumes.recover {next? : Failure → Option (Action α)} (ha : Consumes a m read)
    (hnext : ∀ e b m', next? e = some b → ∃ more, Consumes b m' more) :
    ∃ all, Consumes (TreeScript.recover a next?) m all := by
  cases hr : a m with
  | ok v m' =>
      replace hr := ok_after hr
      have hpure : Consumes (pure v : Action α) (a.after m) [] := consumes_nothing fun _ => rfl
      refine ⟨_, ha.andThen hpure (recover_of_ok hr next?) fun rest hrest => ?_⟩
      rw [hr] at hrest
      exact recover_of_ok hrest next?
  | error e m' =>
      replace hr := error_after hr
      cases hb : next? e with
      | none =>
          have hthrow : Consumes (throw e : Action α) (a.after m) [] :=
            consumes_nothing fun _ => rfl
          refine ⟨_, ha.andThen hthrow (recover_of_error hr hb) fun rest hrest => ?_⟩
          rw [hr] at hrest
          exact recover_of_error hrest hb
      -- The continuation reads on where the failure has left the input.
      | some b =>
          rcases hnext e b (a.after m) hb with ⟨more, hmore⟩
          refine ⟨_, ha.andThen hmore (recover_of_next hr hb) fun rest hrest => ?_⟩
          rw [hr] at hrest
          exact recover_of_next hrest hb

/-- A line ends with its first line break, whatever is behind it. -/
theorem takeLine_of_lineFeed {before : List UInt8} (h : lineFeed ∉ before) (rest : List UInt8) :
    takeLine (before ++ lineFeed :: rest) = (before ++ [lineFeed], rest) := by
  induction before with
  | nil => rfl
  | cons b before ih =>
      have hb : b ≠ lineFeed := fun he => h (he ▸ List.mem_cons_self)
      rw [List.cons_append, takeLine, if_neg hb, ih fun hmem => h (List.mem_cons_of_mem b hmem)]
      rfl

/-- A line that has bytes behind it ends with a line break. -/
theorem exists_of_takeLine_rest (h : (takeLine bytes).2 ≠ []) :
    ∃ before, lineFeed ∉ before ∧ (takeLine bytes).1 = before ++ [lineFeed] := by
  induction bytes with
  | nil => exact absurd rfl h
  | cons b bytes ih =>
      -- Something is left behind the line only if it was ended by a line feed.
      by_cases hb : b = lineFeed
      · exact ⟨[], by simp, by simp [takeLine, hb]⟩
      · simp only [takeLine, hb, if_false] at h ⊢
        rcases ih h with ⟨before, hmem, he⟩
        exact ⟨b :: before, by simp [hmem, Ne.symm hb], by simp [he]⟩

/-- Reading takes the first line, and whether it is a text makes no difference to that. -/
theorem consumes_readLine (m : Machine) : Consumes readLine m (takeLine m.input).1 := by
  have hafter : (readLine.after m).input = (takeLine m.input).2 :=
    Ends.after (P := fun m' => m'.input = (takeLine m.input).2) (ends_readLine (fun _ => rfl) rfl)
  refine ⟨by rw [hafter, takeLine_append], fun hne => ?_, fun hne rest => ?_⟩
  · rcases exists_of_takeLine_rest (hafter ▸ hne) with ⟨before, _, hline⟩
    exact .inr ⟨before, hline⟩
  · rcases exists_of_takeLine_rest (hafter ▸ hne) with ⟨before, hmem, hline⟩
    -- The same line is found again in front of anything else.
    have hagain : takeLine ((takeLine m.input).1 ++ rest) = ((takeLine m.input).1, rest) := by
      rw [hline, List.append_assoc, List.singleton_append, takeLine_of_lineFeed hmem]
    rcases ht : takeLine m.input with ⟨line, unread⟩
    rw [ht] at hagain
    cases line with
    | nil => simp only [readLine, ht, hagain, withInput]
    | cons b bs => cases hd : decode? (b :: bs) <;> simp only [readLine, ht, hagain, hd, withInput]

/-- The actions that read line by line on every machine. They may have any effect. -/
def readingDiscipline : NestedDiscipline where
  Obeys a := ∀ m : Machine, ∃ read, Consumes a m read
  Allows _ := True
  obeys_pure v m := ⟨_, consumes_nothing fun _ => rfl⟩
  obeys_bind ha hf m := by
    rcases ha m with ⟨read, hread⟩
    exact hread.bind hf
  obeys_fault f m := ⟨_, consumes_nothing fun _ => rfl⟩
  obeys_heap m := ⟨_, consumes_nothing fun _ => rfl⟩
  obeys_growth _ m := ⟨_, consumes_nothing fun _ => rfl⟩
  obeys_lookup _ m := ⟨_, consumes_nothing fun _ => rfl⟩
  obeys_assign _ m := ⟨_, consumes_nothing fun _ => rfl⟩
  obeys_element _ m := ⟨_, consumes_nothing fun _ => rfl⟩
  obeys_write _ m := ⟨_, consumes_write m _⟩
  obeys_readLine _ m := ⟨_, consumes_readLine m⟩
  obeys_unfinished _ m := ⟨_, consumes_nothing fun _ => rfl⟩
  obeys_refusal _ m := ⟨_, consumes_nothing fun _ => rfl⟩
  obeys_panic _ m := ⟨_, consumes_nothing fun _ => rfl⟩
  obeys_guarded _ ha m := by
    rcases ha m with ⟨read, hread⟩
    refine hread.recover fun e b m' hb => ?_
    -- Only a fault is taken up, by writing a line.
    cases e <;> cases hb
    exact (consumes_write m' _).bind fun _ m'' => ⟨_, consumes_nothing fun _ => rfl⟩
  obeys_currentDepth m := ⟨_, consumes_nothing fun _ => rfl⟩
  obeys_deeper ha m := by
    rcases ha m.entered with ⟨read, hread⟩
    exact ⟨read, hread.deeper⟩

/-- Evaluating a tree takes bytes off the front of the input, in whole lines as long as some
    are left, and has not looked at those: if it leaves some unread, it has the same outcome,
    does the same to variables and arrays and writes the same with any other bytes in their
    place, and leaves those. -/
theorem run_depends_on_input_read (limits : Limits) (t : Tree) (m : Machine) :
    (∃ read, m.input = read ++ ((evaluate limits t).after m).input ∧
      (((evaluate limits t).after m).input ≠ [] → WholeLines read)) ∧
    ∀ read unread, m.input = read ++ unread → unread ≠ [] →
      ((evaluate limits t).after m).input = unread →
      ∀ rest, evaluate limits t { m with input := read ++ rest } =
        withInput rest (evaluate limits t m) := by
  rcases readingDiscipline.obeys_evaluate limits (fun _ => trivial) t m with ⟨taken, h⟩
  refine ⟨⟨taken, h.left, h.lines⟩, ?_⟩
  rintro read unread hinput hne rfl rest
  -- What is left is known, so what has been taken is, too.
  have htaken : taken = read := List.append_cancel_right (h.left.symm.trans hinput)
  rw [← htaken]
  exact h.only hne rest

/-- Two statements that read a line each. -/
def readTwice : Tree :=
  ⟨"statements", [.seq [.tree "print" [.tree "input" [.nil]], .tree "input" [.nil]]]⟩

/-- Two lines, of which the second one is not the encoding of a text. -/
def twoLines : List UInt8 := [97, 10, 255, 10]

/-- The second line is taken off the input although it ends the run, and what is behind it
    could be missing. -/
theorem run_depends_on_input_read_undecodable :
    ((evaluate ⟨8, 8⟩ readTwice).after (.start (twoLines ++ [98]) none)).input = [98] ∧
      evaluate ⟨8, 8⟩ readTwice (.start (twoLines ++ [98]) none) =
        .error (.stream .notText) ⟨.empty, .empty, [98], ⟨"a\n".toUTF8, none⟩, 0⟩ ∧
      evaluate ⟨8, 8⟩ readTwice (.start (twoLines ++ []) none) =
        .error (.stream .notText) ⟨.empty, .empty, [], ⟨"a\n".toUTF8, none⟩, 0⟩ := by
  have hends : evaluate ⟨8, 8⟩ readTwice (.start (twoLines ++ [98]) none) =
      .error (.stream .notText) ⟨.empty, .empty, [98], ⟨"a\n".toUTF8, none⟩, 0⟩ := rfl
  have hleft :
      ((evaluate ⟨8, 8⟩ readTwice).after (.start (twoLines ++ [98]) none)).input = [98] := by
    rw [Action.after, hends]
  refine ⟨hleft, hends, ?_⟩
  -- The last byte was not read, so it may as well not be there.
  have hread := run_depends_on_input_read ⟨8, 8⟩ readTwice (.start (twoLines ++ [98]) none)
  have hsame := hread.2 twoLines [98] rfl (by decide) hleft []
  rw [hends] at hsame
  exact hsame

end TreeScript
