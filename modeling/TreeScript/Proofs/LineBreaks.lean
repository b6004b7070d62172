import TreeScript.Proofs.Verdict

/-!
# Texts in Two Parts

What the scanner and the reader make of a text that is put together at a line break. No
token and no comment goes on behind a line break, so behind one the scanner is where it is
at the beginning of a text, except that it has found tokens before and that it counts lines
from another number. It does the same from there: `Scanner.behind` is that difference, and
it goes through a step, through a scan and through the end of the text.

So the tokens of a text in two parts are those of the first part and then those of the
second one, moved down by the lines of the first part, and what is wrong with a part is
wrong with the whole. The reader does not look at lines unless it refuses a token, so the
trees of two parts that can be read are those of the whole.

Each part of the scanner is compared with itself behind other lines, in the order in which
they call each other: the beginning of a token, the end of a quoted word, a step, a scan
and the end of the text. An error is moved by as many lines as the scanner is, so the same
equation holds of the steps that fail.

## Main definitions

* `ReadError.moved`, `Placed.moved`: An error and a token so many lines further down.
* `Scanner.behind`: A scanner that has found tokens on lines before.

## Theorems

* `Scanner.step_lineBreak`: A line break ends what is pending, as the end of the text does.
* `Scanner.scan_behind`: Scanning is the same behind other lines.
* `tokens_append_lineBreak`: The tokens of a text in two parts.
* `readTrees_append_lineBreak`: The trees of a text in two parts.
* `Scanner.begin_behind`, `Scanner.step_behind`: One step behind other lines.
* `Scanner.line_of_scan`: The line that the scanner is on, by the line breaks it has read.
* `readTree_lineBreak`: A line break at the end makes no difference to one tree.
-/

namespace TreeScript

/-- The same error so many lines further down. -/
def ReadError.moved (k : Nat) : ReadError → ReadError
  | .unreadable text n => .unreadable text (k + n)
  | .unterminated n => .unterminated (k + n)
  | .unexpected token n => .unexpected token (k + n)
  | .unexpectedEnd n => .unexpectedEnd (k + n)
  | .tagExpected found n => .tagExpected found (k + n)
  | .tooDeep max n => .tooDeep max (k + n)
  | .trailing token n => .trailing token (k + n)

/-- The same token so many lines further down. -/
def Placed.moved (k : Nat) (p : Placed) : Placed := ⟨p.token, k + p.line⟩

namespace Scanner

variable {s s' : Scanner} {c : Char} {cs : List Char}

/-- The scanner behind so many other lines, on which tokens have been found before. -/
def behind (k : Nat) (found : List Placed) (s : Scanner) : Scanner :=
  ⟨k + s.line, s.mode, s.found.map (Placed.moved k) ++ found⟩

variable (k : Nat) (found : List Placed)

/-- The start of a token does not look at the line or at the tokens found before. -/
theorem begin_behind (s : Scanner) (c : Char) : (s.behind k found).begin c =
    ((s.begin c).map (behind k found)).mapError (ReadError.moved k) := by
  unfold begin
  split
  case h_9 =>
      split
      · rfl
      · split <;> rfl
  all_goals rfl

theorem close_behind (s : Scanner) (read : List Char) : (s.behind k found).close read =
    ((s.close read).map (behind k found)).mapError (ReadError.moved k) := by
  unfold close
  split <;> rfl

/-- A step does the same behind other lines. -/
theorem step_behind (s : Scanner) (c : Char) : (s.behind k found).step c =
    ((s.step c).map (behind k found)).mapError (ReadError.moved k) := by
  rcases s with ⟨line, mode, before⟩
  -- The line is only counted and the found tokens are only added to, in each mode.
  cases mode with
  | between => exact begin_behind k found _ c
  | comment =>
      simp only [step, behind]
      split <;> rfl
  | atom read =>
      simp only [step, behind]
      split
      · rfl
      · exact begin_behind k found (emit ⟨line, .atom read, before⟩ _) c
  | quoted read =>
      simp only [step, behind]
      split
      · rfl
      · exact close_behind k found ⟨line, .quoted read, before⟩ read
      · rfl
      · rfl
  | escape read =>
      simp only [step, behind]
      split <;> rfl

/-- So does a scan. -/
theorem scan_behind (s : Scanner) (cs : List Char) : cs.foldlM step (s.behind k found) =
    ((cs.foldlM step s).map (behind k found)).mapError (ReadError.moved k) := by
  induction cs generalizing s with
  | nil => rfl
  | cons c cs ih =>
      rw [List.foldlM_cons, List.foldlM_cons, step_behind]
      cases s.step c with
      | error e => rfl
      | ok s' => exact ih s'

/-- So does the end of the text. -/
theorem finish_behind (s : Scanner) : (s.behind k found).finish =
    (s.finish.map fun ps => found.reverse ++ ps.map (Placed.moved k)).mapError
      (ReadError.moved k) := by
  -- The tokens that have been found before come first.
  have hfound : ∀ ps : List Placed, (ps.map (Placed.moved k) ++ found).reverse =
      found.reverse ++ ps.reverse.map (Placed.moved k) := by simp
  rcases s with ⟨line, mode, before⟩
  cases mode with
  | between => exact congrArg Except.ok (hfound before)
  | comment => exact congrArg Except.ok (hfound before)
  | atom read =>
      exact congrArg Except.ok (hfound (⟨.atom (String.ofList read.reverse), line⟩ :: before))
  | quoted read => rfl
  | escape read => rfl

/-- A line break ends what is pending, as the end of the text does. -/
theorem step_lineBreak (s : Scanner) :
    s.step '\n' = s.finish.map fun ps => ⟨s.line + 1, .between, ps.reverse⟩ := by
  have hbreak : Text.isAtomChar '\n' = false := by decide
  rcases s with ⟨line, mode, before⟩
  cases mode <;> simp [step, finish, begin, emit, nextLine, Except.map, hbreak]

/-- The line changes at a line break only. -/
theorem line_of_begin (hc : c ≠ '\n') (h : s.begin c = .ok s') : s'.line = s.line := by
  unfold begin at h
  split at h
  case h_8 => exact absurd rfl hc
  case h_9 =>
      split at h
      · cases h
        rfl
      · split at h
        · cases h
          rfl
        · cases h
  -- All other characters are marks, and those that open a comment or a quoted word.
  all_goals
    cases h
    rfl

/-- A step that reads no line break stays on its line. -/
theorem line_of_step (hc : c ≠ '\n') (h : s.step c = .ok s') : s'.line = s.line := by
  rcases s with ⟨line, mode, before⟩
  -- Without a line break no mode counts a line.
  cases mode with
  | between => exact line_of_begin hc h
  | comment =>
      simp only [step, hc, if_false] at h
      cases h
      rfl
  | atom read =>
      simp only [step] at h
      split at h
      · cases h
        rfl
      · exact line_of_begin (s := emit ⟨line, .atom read, before⟩ _) hc h
  | quoted read =>
      simp only [step] at h
      split at h
      · cases h
      · unfold close at h
        split at h
        · cases h
          rfl
        · cases h
      · cases h
        rfl
      · cases h
        rfl
  | escape read =>
      simp only [step, hc, if_false] at h
      cases h
      rfl

/-- A scan counts the line breaks. -/
theorem line_of_scan (h : cs.foldlM step s = .ok s') : s'.line = s.line + cs.count '\n' := by
  induction cs generalizing s with
  | nil =>
      cases h
      rfl
  | cons c cs ih =>
      rcases exists_of_foldlM_cons h with ⟨s₁, hstep, hrest⟩
      rw [ih hrest, List.count_cons]
      -- A line break is the one character that moves the line.
      by_cases hc : c = '\n'
      · subst hc
        have hline : s₁.line = s.line + 1 := by
          rw [step_lineBreak] at hstep
          cases hfinish : s.finish with
          | error e => simp [hfinish, Except.map] at hstep
          | ok ps =>
              simp only [hfinish, Except.map] at hstep
              cases hstep
              rfl
        simp only [hline, beq_self_eq_true, if_true]
        omega
      · rw [line_of_step hc hstep, if_neg (by simpa using hc), Nat.add_zero]

end Scanner

/-- The number of the line behind a text that ends with a line break. -/
def linesOf (source : String) : Nat := source.toList.count '\n' + 1

theorem tokens_of_scan {s : Scanner} {source : String}
    (h : source.toList.foldlM Scanner.step Scanner.start = .ok s) : tokens source = s.finish := by
  rw [tokens, h]
  rfl

/-- The rest of a text behind a line break, where tokens have been found before. -/
theorem scan_rest (k : Nat) (found : List Placed) (source : String) :
    ((source.toList.foldlM Scanner.step (Scanner.start.behind k found)) >>= Scanner.finish) =
      ((tokens source).map fun ps => found.reverse ++ ps.map (Placed.moved k)).mapError
        (ReadError.moved k) := by
  rw [Scanner.scan_behind, tokens]
  cases source.toList.foldlM Scanner.step Scanner.start with
  | error e => rfl
  | ok s => exact Scanner.finish_behind k found s

/-- The tokens of a text in two parts, where the scanner can read both: those of the first
    one, and those of the second one on the lines behind. What the scanner cannot read in a
    part, it cannot read in the whole. -/
theorem tokens_append_lineBreak (source rest : String) : tokens (source ++ "\n" ++ rest) =
    (tokens source).bind fun ps =>
      ((tokens rest).map fun qs => ps ++ qs.map (Placed.moved (linesOf source))).mapError
        (ReadError.moved (linesOf source)) := by
  have htext : (source ++ "\n" ++ rest).toList = source.toList ++ '\n' :: rest.toList := by simp
  rw [tokens, htext, List.foldlM_append]
  cases hscan : source.toList.foldlM Scanner.step Scanner.start with
  | error e =>
      rw [tokens, hscan]
      rfl
  | ok s =>
      rw [tokens_of_scan hscan]
      -- What ends the first part there also ends it at the line break.
      have hbreak := s.step_lineBreak
      cases hfinish : s.finish with
      | error e =>
          rw [hfinish] at hbreak
          change (('\n' :: rest.toList).foldlM Scanner.step s >>= Scanner.finish) = .error e
          rw [List.foldlM_cons, hbreak]
          rfl
      | ok ps =>
          rw [hfinish] at hbreak
          have hline : s.line = linesOf source := by
            rw [Scanner.line_of_scan hscan, linesOf, Nat.add_comm]
            rfl
          have hstart : s.step '\n' = .ok (Scanner.start.behind (linesOf source) ps.reverse) := by
            rw [hbreak, ← hline]
            rfl
          have hrest := scan_rest (linesOf source) ps.reverse rest
          rw [List.reverse_reverse, ← foldlM_cons_of_ok hstart] at hrest
          exact hrest

/-- A line break at the end of a text makes no difference. -/
theorem tokens_lineBreak (source : String) : tokens (source ++ "\n") = tokens source := by
  have happend := tokens_append_lineBreak source ""
  have hrest : tokens "" = .ok [] := rfl
  rw [String.append_empty, hrest] at happend
  rw [happend]
  cases tokens source with
  | error e => rfl
  | ok ps => exact congrArg Except.ok (List.append_nil ps)

/-- A line break at the end of a text adds nothing to it. -/
theorem readTree_lineBreak (source : String) : readTree (source ++ "\n") = readTree source := by
  rw [readTree, readTree, tokens_lineBreak]

theorem spelledRow_append {trees rest : List Tree} {ts us : List Token} (h : SpelledRow trees ts)
    (h' : SpelledRow rest us) : SpelledRow (trees ++ rest) (ts ++ us) := by
  induction h with
  | nil => exact h'
  | cons ht _ ih =>
      rw [List.cons_append, List.append_assoc]
      exact .cons ht ih

/-- The trees of a text in two parts that can be read are those of the first part and then
    those of the second one. -/
theorem readTrees_append_lineBreak {source rest : String} {trees more : List Tree}
    (h : readTrees source = .ok trees) (h' : readTrees rest = .ok more) :
    readTrees (source ++ "\n" ++ rest) = .ok (trees ++ more) := by
  rcases exists_of_bind h with ⟨ps, hps, htrees⟩
  rcases exists_of_bind h' with ⟨qs, hqs, hmore⟩
  have htokens : tokens (source ++ "\n" ++ rest) =
      .ok (ps ++ qs.map (Placed.moved (linesOf source))) := by
    rw [tokens_append_lineBreak, hps, hqs]
    rfl
  rw [readTrees_of_tokens htokens, treesOf_eq_ok_iff, List.map_append, List.map_map]
  -- Which trees are spelled does not depend on the lines.
  exact spelledRow_append (treesOf_eq_ok_iff.mp htrees) (treesOf_eq_ok_iff.mp hmore)

end TreeScript
