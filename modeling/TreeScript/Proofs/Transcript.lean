import TreeScript.Proofs.Detached
import TreeScript.Proofs.Lines

/-!
# Sessions and Programs

A session and a program that have the same trees do the same, although they go about it in
different ways. The session reads a tree when it comes to its line and has a policy for
each failure; the program is read before anything is run and ends with the first failure.
Trees that read nothing do not notice the difference: what they do is decided by variables
and arrays, and these go from one line to the next in both.

The output of a session is a transcript. It is made of what is written in answer to each
line, with a prompt before each answer and one at the end. Where no tree is refused, the
answers alone are the output of the program.

## Main definitions

* `Failure.isFinal`: Whether an evaluation that fails has come to an end.
* `SessionLine.after`, `SessionLine.response`: What a line does, and what is written in
  answer to it.
* `evaluateEach`, `EachEnds`: Trees evaluated one after the other, whatever comes of them,
  and how they end.
* `responses`, `prompted`, `joined`: The answers to some lines, as a session and as a
  program put them together.
* `Answerable`, `Transcribes`: A line that can be answered, and a session that answers
  some lines.

## Theorems

* `answer_on`: The answer to one line.
* `transcribes_cons`: One line more is answered before the others.
* `transcribes_textOf`: The answers to the lines of a text.
* `runTrees_of_lines`: The run of their trees.
* `sessions_agree_with_programs`: Both, for a session and a program with one text.
-/

namespace TreeScript

/-- Whether an evaluation that fails in this way has come to an end. It has not where a loop
    could go on, and neither where the run has been given up. -/
def Failure.isFinal : Failure → Bool
  | .unfinished => false
  | .panicked _ => false
  | _ => true

/-- The line that tells of a malformed tree, if its evaluation ends in that way. -/
def refusalLine : EStateM.Result Failure Machine Value → String
  | .error (.malformed e) _ => "as says: " ++ (Failure.malformed e).message ++ "\n"
  | _ => ""

namespace SessionLine

/-- The machine behind a line, however the evaluation of the tree on it ends. -/
def after (limits : Limits) : SessionLine → Machine → Machine
  | .tree t, m => (evaluate limits t).after m
  | .blank _, m => m

/-- What is written in answer to a line: what the tree writes, and a diagnostic if it is
    malformed. -/
def response (limits : Limits) : SessionLine → Machine → ByteArray
  | .tree t, m => (evaluate limits t).said m ++ (refusalLine (evaluate limits t m)).toUTF8
  | .blank _, _ => .empty

end SessionLine

/-- What is written in answer to each of some lines. -/
def responses (limits : Limits) : List SessionLine → Machine → List ByteArray
  | [], _ => []
  | line :: lines, m => line.response limits m :: responses limits lines (line.after limits m)

/-- The machine behind some trees that are evaluated one after the other, however the
    evaluation of each of them ends. -/
def evaluateEach (limits : Limits) (trees : List Tree) (m : Machine) : Machine :=
  trees.foldl (fun m t => (evaluate limits t).after m) m

/-- Evaluated one after the other in this way, each of the trees yields a value or fails as
    described. -/
def EachEnds (limits : Limits) (fails : Failure → Prop) : List Tree → Machine → Prop
  | [], _ => True
  | t :: trees, m => Ends (evaluate limits t) m (fun _ _ => True) (fun e _ => fails e) ∧
      EachEnds limits fails trees ((evaluate limits t).after m)

/-- The answers as a session puts them together, with a prompt before each of them and one
    at the end. -/
def prompted : List ByteArray → ByteArray
  | [] => prompt.toUTF8
  | answer :: answers => prompt.toUTF8 ++ answer ++ prompted answers

/-- The answers alone. -/
def joined : List ByteArray → ByteArray
  | [] => .empty
  | answer :: answers => answer ++ joined answers

variable {limits : Limits} {line : SessionLine} {lines : List SessionLine} {m : Machine}
  {fails : Failure → Prop} {s : String} {bytes rest : List UInt8} {t : Tree}
  {x : Except Failure Value} {m' : Machine}

/-- A line that can be answered on this machine: the tree on it, if there is one, can be
    read, reads nothing itself, and its evaluation comes to an end. -/
structure Answerable (limits : Limits) (line : SessionLine) (m : Machine) : Prop where
  unlimited : m.output.limit = none
  nesting : ∀ t, line = .tree t → t.nesting ≤ maxNesting
  readsNothing : ∀ t, line = .tree t → t.readsNothing = true
  ends : ∀ t, line = .tree t →
    Ends (evaluate limits t) m (fun _ _ => True) fun e _ => e.isFinal = true

/-- The evaluation of a tree that can be answered yields a value or refuses the tree. -/
theorem Answerable.ok_or_refused (h : Answerable limits (.tree t) m)
    (hx : EndsOnAll (evaluate limits t) m x m') :
    (∃ v, x = .ok v) ∨ ∃ e, x = .error (.malformed e) := by
  have hself := hx.self h.unlimited
  cases x with
  | ok v => exact .inl ⟨v, rfl⟩
  | error e =>
      -- The other failures are excluded: by the guard, by the streams, or by the hypothesis on
      -- ends.
      cases e with
      | fault f => exact absurd hself (guarded_ne_fault _ m _ f)
      | malformed e => exact .inr ⟨e, rfl⟩
      | stream s => exact absurd rfl (hx.works s)
      | unfinished => cases (h.ends t rfl).of_error hself
      | panicked p => cases (h.ends t rfl).of_error hself

/-- The answer to a tree that is not refused is what the tree writes. -/
theorem response_of_ok {v : Value} (hm : m.output.limit = none)
    (hx : EndsOnAll (evaluate limits t) m (.ok v) m') :
    (SessionLine.tree t).response limits m = m'.output.written := by
  have hline : (refusalLine (evaluate limits t m)).toUTF8 = .empty := by
    rw [hx.self hm]
    rfl
  rw [SessionLine.response, hx.said, hline, ByteArray.append_empty]

/-- A tree that is refused for its shape is answered with the message of the refusal. -/
theorem response_of_refused {e : ShapeError} (hm : m.output.limit = none)
    (hx : EndsOnAll (evaluate limits t) m (.error (.malformed e)) m') :
    (SessionLine.tree t).response limits m = m'.output.written ++
      ("as says: " ++ (Failure.malformed e).message ++ "\n").toUTF8 := by
  rw [SessionLine.response, hx.said, hx.self hm]
  rfl

theorem evaluateReporting_on (h : Answerable limits (.tree t) m) (input : List UInt8)
    (before : ByteArray) : evaluateReporting limits t (m.on input before) =
      .ok () (((evaluate limits t).after m).on input
        (before ++ (SessionLine.tree t).response limits m)) := by
  rcases detached_evaluate limits (h.readsNothing t rfl) m with ⟨x, m', hx⟩
  rw [hx.after h.unlimited]
  have hends := hx.ends input before
  rcases h.ok_or_refused hx with ⟨v, rfl⟩ | ⟨e, rfl⟩
  · have hdiscard : discard (evaluate limits t) (m.on input before) = .ok () _ := bind_of_ok hends
    rw [evaluateReporting, recover_of_ok hdiscard, response_of_ok h.unlimited hx]
    rfl
  · -- The refusal is picked up, and its message is written behind what was said before it.
    have hdiscard : discard (evaluate limits t) (m.on input before) = .error (.malformed e) _ :=
      bind_of_error hends
    rw [evaluateReporting, recover_of_next hdiscard rfl, report, write_on,
      response_of_refused h.unlimited hx, ByteArray.append_assoc]
    rfl

/-- The answer to one line. It is the same on all streams, and the next line finds the
    machine that the tree has left. -/
theorem answer_on (h : Answerable limits line m) (input : List UInt8) (before : ByteArray) :
    line.answer limits (m.on input before) =
      .ok () ((line.after limits m).on input (before ++ line.response limits m)) := by
  cases line with
  | tree t => exact evaluateReporting_on h input before
  | blank spaces =>
      rw [SessionLine.response, ByteArray.append_empty]
      rfl

/-- A session that reads a line answers it and goes on with what is behind. -/
theorem answerLines_line (h : Answerable limits line m) (hs : ReadAs line s)
    (hread : ∀ before, readLine (m.on bytes before) = .ok (some s) (m.on rest before)) (n : Nat)
    (before : ByteArray) : answerLines limits (n + 1) (m.on bytes before) =
      answerLines limits n
        ((line.after limits m).on rest (before ++ prompt.toUTF8 ++ line.response limits m)) := by
  have hanswer := answer_on h rest (before ++ prompt.toUTF8)
  rw [← respond_line h.nesting hs] at hanswer
  rw [answerLines, bind_of_ok (write_on prompt m bytes before), bind_of_ok (hread _)]
  exact bind_of_ok hanswer

/-- No line puts a limit on the output. -/
theorem after_unlimited (h : Answerable limits line m) :
    (line.after limits m).output.limit = none := by
  cases line with
  | tree t =>
      rcases detached_evaluate limits (h.readsNothing t rfl) m with ⟨x, m', hx⟩
      rw [SessionLine.after, hx.after h.unlimited]
      rfl
  | blank spaces => exact h.unlimited

theorem evaluateEach_cons (line : SessionLine) (lines : List SessionLine) (m : Machine) :
    evaluateEach limits (treesIn (line :: lines)) m =
      evaluateEach limits (treesIn lines) (line.after limits m) := by
  cases line <;> rfl

/-- A run of several lines ends well when the first line does and the others do from there. -/
theorem eachEnds_cons (h : EachEnds limits fails (treesIn (line :: lines)) m) :
    (∀ t, line = .tree t → Ends (evaluate limits t) m (fun _ _ => True) fun e _ => fails e) ∧
      EachEnds limits fails (treesIn lines) (line.after limits m) := by
  cases line with
  | tree t =>
      refine ⟨?_, h.2⟩
      rintro u ⟨⟩
      exact h.1
  | blank spaces => exact ⟨nofun, h⟩

/-- All lines can be answered, each on the machine that the lines before it leave. -/
def AllAnswerable (limits : Limits) : List SessionLine → Machine → Prop
  | [], _ => True
  | line :: lines, m => Answerable limits line m ∧ AllAnswerable limits lines (line.after limits m)

/-- Lines that end in a final way can all be answered, by induction on the lines. -/
theorem allAnswerable (hm : m.output.limit = none)
    (htrees : ∀ t, .tree t ∈ lines → t.nesting ≤ maxNesting ∧ t.readsNothing = true)
    (hends : EachEnds limits (·.isFinal = true) (treesIn lines) m) :
    AllAnswerable limits lines m := by
  induction lines generalizing m with
  | nil => trivial
  | cons line lines ih =>
      rcases eachEnds_cons hends with ⟨hline, hlines⟩
      have hself : ∀ t, line = .tree t → t.nesting ≤ maxNesting ∧ t.readsNothing = true :=
        fun t ht => htrees t (ht ▸ List.mem_cons_self)
      have h : Answerable limits line m :=
        ⟨hm, fun t ht => (hself t ht).1, fun t ht => (hself t ht).2, hline⟩
      exact ⟨h, ih (after_unlimited h) (fun t ht => htrees t (List.mem_cons_of_mem line ht)) hlines⟩

/-- Within so many lines, a session with these bytes to read answers the given lines and comes
    to its end, whatever has been written before. -/
def Transcribes (limits : Limits) (lines : List SessionLine) (m : Machine) (bytes : List UInt8)
    (n : Nat) : Prop :=
  ∀ before, answerLines limits n (m.on bytes before) =
    .ok () ((evaluateEach limits (treesIn lines) m).on []
      (before ++ prompted (responses limits lines m)))

theorem transcribes_nil (limits : Limits) (m : Machine) (n : Nat) :
    Transcribes limits [] m [] (n + 1) := by
  intro before
  rw [answerLines, bind_of_ok (write_on prompt m [] before)]
  rfl

/-- One line of the transcript in front of the others. -/
theorem transcribes_cons {n : Nat} (h : Answerable limits line m) (hs : ReadAs line s)
    (hread : ∀ before, readLine (m.on bytes before) = .ok (some s) (m.on rest before))
    (hlines : Transcribes limits lines (line.after limits m) rest n) :
    Transcribes limits (line :: lines) m bytes (n + 1) := by
  intro before
  rw [answerLines_line h hs hread, hlines, evaluateEach_cons, responses, prompted]
  simp only [ByteArray.append_assoc]

theorem text_ne_empty (h : line ≠ .blank 0) : line.text ≠ "" := by
  cases line with
  | tree t => simp [SessionLine.text, Tree.text, Tree.written, Tree.toOperand, Operand.written]
  | blank spaces =>
      cases spaces with
      | zero => exact absurd rfl h
      | succ n => simp [SessionLine.text]

/-- A session answers all lines of a text if it may answer one more, since it has to find the
    end of the input too. -/
theorem transcribes_textOf {last? : Option SessionLine} (hlast : last? ≠ some (.blank 0)) {n : Nat}
    (h : AllAnswerable limits (lines ++ last?.toList) m) (hn : (lines ++ last?.toList).length < n) :
    Transcribes limits (lines ++ last?.toList) m (encoded (textOf last? lines)) n := by
  induction lines generalizing m n with
  | nil =>
      cases last? with
      -- There is nothing behind the last line break, so the session ends there.
      | none =>
          cases n with
          | zero => cases hn
          | succ n => exact transcribes_nil limits m n
      | some line =>
          have hne : line.text ≠ "" := text_ne_empty fun he => hlast (congrArg some he)
          match n, hn with
          | n + 2, _ =>
              exact transcribes_cons h.1 (.last line)
                (fun _ => readLine_last (newline_not_mem_line line) hne)
                (transcribes_nil limits _ n)
  | cons line lines ih =>
      cases n with
      | zero => cases hn
      | succ n =>
          -- A line with its line break is read as a whole, and the rest is the text of the other
          -- lines.
          have hrest := ih h.2 (Nat.lt_of_succ_lt_succ hn)
          refine transcribes_cons h.1 (.closed line) (fun _ => ?_) hrest
          rw [textOf, encoded_append]
          exact readLine_closed (newline_not_mem_line line)

theorem length_pos_of_ne_empty (h : s ≠ "") : 0 < (encoded s).length :=
  List.length_pos_iff.mpr fun he => h (eq_empty_of_encoded he)

/-- There are not more lines than bytes. -/
theorem length_le_encoded {last? : Option SessionLine} (hlast : last? ≠ some (.blank 0))
    (lines : List SessionLine) :
    (lines ++ last?.toList).length ≤ (encoded (textOf last? lines)).length := by
  induction lines with
  | nil =>
      cases last? with
      | none => exact Nat.zero_le _
      | some line =>
          exact length_pos_of_ne_empty (text_ne_empty fun he => hlast (congrArg some he))
  | cons line lines ih =>
      -- Every line has a byte of its own, since it ends with a line break.
      have hline : 0 < (encoded (line.text ++ "\n")).length := length_pos_of_ne_empty (by simp)
      rw [textOf, encoded_append]
      simp only [List.cons_append, List.length_cons, List.length_append] at ih ⊢
      omega

/-- A tree that can be answered and is not refused does as a program what it does on its
    line, and has written the answer. -/
theorem runTrees_line (h : Answerable limits line m)
    (hruns : ∀ t, line = .tree t →
      Ends (evaluate limits t) m (fun _ _ => True) fun e _ => e.isRefusal = false) :
    runTrees limits (treesIn [line]) m = .ok () (line.after limits m) ∧
      (line.after limits m).input = m.input ∧
      (line.after limits m).output.written = m.output.written ++ line.response limits m := by
  cases line with
  | tree t =>
      rcases detached_evaluate limits (h.readsNothing t rfl) m with ⟨x, m', hx⟩
      have hself := hx.self h.unlimited
      rcases h.ok_or_refused hx with ⟨v, rfl⟩ | ⟨e, rfl⟩
      · have hdiscard : discard (evaluate limits t) m = .ok () _ := bind_of_ok hself
        rw [SessionLine.after, hx.after h.unlimited, response_of_ok h.unlimited hx]
        exact ⟨bind_of_ok hdiscard, rfl, rfl⟩
      · -- A refusal would end a program, so it was excluded.
        cases (hruns t rfl).of_error hself
  | blank spaces =>
      refine ⟨rfl, rfl, ?_⟩
      rw [SessionLine.response, ByteArray.append_empty]
      rfl

/-- So do all trees, one after the other. -/
theorem runTrees_of_lines (hm : m.output.limit = none) (h : AllAnswerable limits lines m)
    (hruns : EachEnds limits (·.isRefusal = false) (treesIn lines) m) :
    runTrees limits (treesIn lines) m =
      .ok () ((evaluateEach limits (treesIn lines) m).on m.input
        (m.output.written ++ joined (responses limits lines m))) := by
  induction lines generalizing m with
  | nil =>
      rw [responses, joined, ByteArray.append_empty]
      exact congrArg (EStateM.Result.ok ()) (on_self hm).symm
  | cons line lines ih =>
      rcases eachEnds_cons hruns with ⟨hline, hlines⟩
      rcases runTrees_line h.1 hline with ⟨hrun, hinput, hwritten⟩
      have hrest := ih (after_unlimited h.1) h.2 hlines
      -- The trees of a line run first, and the others on the machine that the line leaves.
      have htrees : treesIn (line :: lines) = treesIn [line] ++ treesIn lines :=
        treesIn_append [line] lines
      rw [hinput, hwritten, ← evaluateEach_cons, ByteArray.append_assoc] at hrest
      rw [responses, joined, ← hrest, htrees, runTrees_append]
      exact bind_of_ok hrun

/-- Take trees that can be read back and read nothing themselves, each on a line, with lines
    that are left blank between them, so that evaluated one after the other on a fresh
    machine, whatever comes of them, all come to an end. A session on these lines ends with
    the end of its input, with the variables and arrays that the trees leave in this way, and
    its output is the banner and the transcript. If no tree is refused, the text of the lines
    is a program that runs to its end with the same variables and arrays, and its output are
    the answers without banner and prompts. The last line may lack its line break. -/
theorem sessions_agree_with_programs (limits : Limits) (lines : List SessionLine)
    (last? : Option SessionLine) (input : List UInt8) (hlast : last? ≠ some (.blank 0))
    (htrees : ∀ t, .tree t ∈ lines ++ last?.toList →
      t.nesting ≤ maxNesting ∧ t.readsNothing = true)
    (hends : EachEnds limits (·.isFinal = true) (treesIn (lines ++ last?.toList))
      (.start input none)) :
    let all := lines ++ last?.toList
    let m := Machine.start input none
    session limits (.start (encoded (textOf last? lines)) none) =
        .ok () ((evaluateEach limits (treesIn all) m).on []
          (banner.toUTF8 ++ prompted (responses limits all m))) ∧
      (EachEnds limits (·.isRefusal = false) (treesIn all) m →
        runSource limits (textOf last? lines) m =
          .ok () ((evaluateEach limits (treesIn all) m).on input
            (joined (responses limits all m)))) := by
  intro all m
  have hall : AllAnswerable limits all m := allAnswerable rfl htrees hends
  refine ⟨?_, fun hruns => ?_⟩
  · -- The session greets, and then answers the lines one after another.
    have hbanner := write_on banner m (encoded (textOf last? lines)) .empty
    have hlines := Nat.lt_succ_of_le (length_le_encoded hlast lines)
    have hsession := transcribes_textOf hlast hall hlines (.empty ++ banner.toUTF8)
    rw [ByteArray.empty_append] at hbanner hsession
    exact (bind_of_ok hbanner).trans hsession
  · -- The program runs the same trees, and writes the responses without prompts.
    have hrun := runTrees_of_lines rfl hall hruns
    have hwritten : m.output.written ++ joined (responses limits all m) =
        joined (responses limits all m) := ByteArray.empty_append
    rw [hwritten] at hrun
    rw [runSource_of_ok (readTrees_textOf last? fun t ht => (htrees t ht).1)]
    exact adaptExcept_of_ok hrun

/-- A tree that gives a name a value, one that is malformed, and one that writes the value. -/
def bindName : Tree := ⟨"assign", [.token "x", .tree "string" [.token "a"]]⟩

def bindNothing : Tree := ⟨"assign", []⟩

def printName : Tree := ⟨"print", [.tree "name" [.token "x"]]⟩

/-- The malformed tree is told, and the session goes on with the value that it has. Without
    that tree the text is a program that writes the same but for banner and prompts. -/
theorem sessions_agree_with_programs_refusal :
    (∃ m, session ⟨8, 8⟩ (.start (encoded (textOf (some (.tree printName))
        [.tree bindName, .blank 2, .tree bindNothing])) none) = .ok () m ∧
      m.output.written = ("aslang 0.1.0\nas > as > as > as says: malformed tree: " ++
        "node 'assign' expects 2 operands, found 0\nas > a\nas > ").toUTF8) ∧
    ∃ m, runSource ⟨8, 8⟩ (textOf (some (.tree printName)) [.tree bindName, .blank 2])
        (.start [] none) = .ok () m ∧ m.output.written = "a\n".toUTF8 := by
  have hplain : ∀ t ∈ [bindName, bindNothing, printName],
      t.nesting ≤ maxNesting ∧ t.readsNothing = true := by decide +kernel
  have hsession := (sessions_agree_with_programs ⟨8, 8⟩
    [.tree bindName, .blank 2, .tree bindNothing] (some (.tree printName)) [] nofun
    (fun t ht => hplain t (by simpa using ht)) ⟨trivial, rfl, trivial, trivial⟩).1
  have hprogram := (sessions_agree_with_programs ⟨8, 8⟩ [.tree bindName, .blank 2]
    (some (.tree printName)) [] nofun
    (fun t ht => hplain t (by
      have htree : t = bindName ∨ t = printName := by simpa using ht
      rcases htree with rfl | rfl <;> simp))
    ⟨trivial, trivial, trivial⟩).2 ⟨trivial, trivial, trivial⟩
  -- What was written is compared byte by byte.
  refine ⟨⟨_, hsession, ?_⟩, ⟨_, hprogram, ?_⟩⟩
  · rw [ByteArray.ext_iff]
    decide +kernel
  · rw [ByteArray.ext_iff]
    decide +kernel

end TreeScript
