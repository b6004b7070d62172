import TreeScript.Proofs.Flat
import TreeScript.Proofs.Fold
import TreeScript.Token.Scan

/-!
# Scanning Spelled Tokens

What the scanner makes of the characters that a token is spelled with. A bare
word has no end of its own: the scanner is still in the middle of it when its
last character has been read, and only what comes behind settles that it is
over. So the state behind a token is never stated itself; `Scanner.settle` ends
a bare word that is pending, and every lemma says what the settled scanner is.

A character that cannot stand in a bare word is read from a scanner as it is
read from the settled one. That is the only fact about neighbours: all tokens
but bare words may follow any token directly, and a bare word may follow what is
settled.

`Scans` asks for the settled scanner behind a text, from any scanner between tokens on. It
is stated for all of them because a text is put together of pieces, each scanned where the
one before has ended, with the tokens found there. What the characters of a quoted word
mean is not looked at until it is closed, so scanning one is by induction on its
characters, and what has been read of it is kept as it stands.

## Main definitions

* `Token.spelled`, `Token.Spellable`: The characters of a token, and whether they
  say it.
* `Scanner.settle`: The scanner with a pending word ended.
* `Scans`: Characters that are read as the given tokens.

## Theorems

* `Scanner.step_of_loose`: A pending word ends before a character that is not part of it.
* `Scanner.scan_quoted`, `Scanner.scan_atom`: Scanning the characters of one word.
* `Scans.token`, `Scans.append_mark`, `Scans.mark_append`, `Scans.append_space`:
  Putting texts together.
* `finish_of_loose`: What the end of the text makes of the scanner.
* `tokens_of_scans`: The tokens of a text that is scanned on one line.
* `Scanner.begin_atomChar`, `Scanner.scan_atom_rest`: The first character of a bare word, and the others.
* `Scanner.step_quoted`, `Scanner.step_escape`: Characters of a quoted word.
* `Scanner.newline_not_mem_escape`, `Scanner.newline_not_mem_bare`: No word is spelled over a line break.
-/

namespace TreeScript

namespace Token

/-- The characters that a token is spelled with. -/
def spelled : Token → List Char
  | .openParen => ['(']
  | .closeParen => [')']
  | .openBracket => ['[']
  | .closeBracket => [']']
  | .nil => ['~']
  | .quoted w => Text.enclose (Text.escape w.toList)
  | .atom w => w.toList

/-- Whether a token can be spelled: a bare word has to be one. -/
def Spellable : Token → Prop
  | .atom w => Text.isBare w.toList = true
  | _ => True

end Token

namespace Scanner

/-- The scanner with the bare word ended that it may be in the middle of. -/
def settle (s : Scanner) : Scanner :=
  match s.mode with
  | .atom read => s.emit (.atom (String.ofList read.reverse))
  | _ => s

/-- The scanner is between tokens or in a bare word, which may end anywhere. -/
def Loose (s : Scanner) : Prop := s.mode = .between ∨ ∃ read, s.mode = .atom read

theorem settle_of_between {s : Scanner} (h : s.mode = .between) : s.settle = s := by
  rw [settle, h]

theorem settle_of_atom {s : Scanner} {read : List Char} (h : s.mode = .atom read) :
    s.settle = s.emit (.atom (String.ofList read.reverse)) := by
  rw [settle, h]

/-- A scanner that settles between tokens was between them or in a bare word. -/
theorem loose_of_settle {s : Scanner} (h : s.settle.mode = .between) : s.Loose := by
  unfold settle at h
  split at h
  · rename_i read hm
    exact .inr ⟨read, hm⟩
  · exact .inl h

theorem enter_between {s : Scanner} (h : s.mode = .between) : s.enter .between = s := by
  rw [enter, ← h]

/-- A pending word ends before a character that is not part of it. -/
theorem step_of_loose {s : Scanner} {c : Char} (hs : s.Loose) (hc : Text.isAtomChar c = false) :
    s.step c = s.settle.begin c := by
  rcases hs with hs | ⟨read, hs⟩
  · rw [settle_of_between hs, step, hs]
  · rw [settle_of_atom hs, step, hs]
    simp only [hc, Bool.false_eq_true, if_false]

/-- A character of an atom opens an atom. -/
theorem begin_atomChar {s : Scanner} {c : Char} (hc : Text.isAtomChar c = true) :
    s.begin c = .ok (s.enter (.atom [c])) := by
  -- Neither layout nor a character with a meaning of its own is part of a word.
  have hlayout : isLayout c = false := by
    refine Bool.eq_false_iff.mpr fun h => ?_
    simp only [isLayout, Bool.or_eq_true, beq_iff_eq] at h
    rcases h with ((rfl | rfl) | rfl) | rfl <;> exact absurd hc (by decide)
  unfold begin
  split
  · exact absurd hc (by decide)
  · exact absurd hc (by decide)
  · exact absurd hc (by decide)
  · exact absurd hc (by decide)
  · exact absurd hc (by decide)
  · exact absurd hc (by decide)
  · exact absurd hc (by decide)
  · exact absurd hc (by decide)
  · simp only [hlayout, hc, Bool.false_eq_true, if_false, if_true]

/-- All characters of a bare word behind the first are added to it. -/
theorem scan_atom_rest (s : Scanner) {cs : List Char} (hcs : ∀ c ∈ cs, Text.isAtomChar c = true)
    (read : List Char) :
    cs.foldlM step (s.enter (.atom read)) = .ok (s.enter (.atom (cs.reverse ++ read))) := by
  induction cs generalizing read with
  | nil => rfl
  | cons c cs ih =>
      have hc : (s.enter (.atom read)).step c = .ok (s.enter (.atom (c :: read))) := by
        simp only [step, enter, hcs c List.mem_cons_self, if_true]
      rw [foldlM_cons_of_ok hc, ih (fun d hd => hcs d (List.mem_cons_of_mem c hd))]
      simp

/-- Any character but three is one of a quoted word that has been opened. -/
theorem step_quoted {c : Char} (s : Scanner) (read : List Char) (hquote : c ≠ '"')
    (hbackslash : c ≠ '\\') (hbreak : c ≠ '\n') :
    (s.enter (.quoted read)).step c = .ok (s.enter (.quoted (c :: read))) := by
  simp only [step, enter]

/-- After a backslash any character but a line break is taken as it stands; it is resolved when
    the token is closed. -/
theorem step_escape {l : Char} (s : Scanner) (read : List Char) (hl : l ≠ '\n') :
    (s.enter (.escape read)).step l = .ok (s.enter (.quoted (l :: '\\' :: read))) := by
  simp only [step, enter, if_neg hl]

theorem ne_newline_of_escapeLetter? {c l : Char} (h : Text.escapeLetter? c = some l) :
    l ≠ '\n' := by
  rintro rfl
  exact absurd (Text.escaped?_of_escapeLetter? h) (by simp [Text.escaped?])

/-- A line break is always escaped in a quoted word. -/
theorem newline_not_mem_escape (cs : List Char) : '\n' ∉ Text.escape cs := by
  induction cs with
  | nil => simp [Text.escape]
  | cons c cs ih =>
      rw [Text.escape]
      cases hl : Text.escapeLetter? c with
      | none =>
          have hc : c ≠ '\n' := by
            rintro rfl
            exact absurd hl (by decide)
          simpa [ih] using hc.symm
      | some l => simpa [ih] using (ne_newline_of_escapeLetter? hl).symm

theorem newline_not_mem_bare {cs : List Char} (h : Text.isBare cs = true) : '\n' ∉ cs := by
  intro hmem
  simp only [Text.isBare, Bool.and_eq_true, List.all_eq_true] at h
  exact absurd (h.2 _ hmem) (by decide)

/-- The body of a quoted word is read to its end. -/
theorem scan_escaped (s : Scanner) (cs read : List Char) :
    (Text.escape cs).foldlM step (s.enter (.quoted read)) =
      .ok (s.enter (.quoted ((Text.escape cs).reverse ++ read))) := by
  induction cs generalizing read with
  | nil => rfl
  | cons c cs ih =>
      rw [Text.escape]
      cases hl : Text.escapeLetter? c with
      | none =>
          have hplain : c ≠ '"' ∧ c ≠ '\\' ∧ c ≠ '\n' := by
            refine ⟨?_, ?_, ?_⟩ <;> rintro rfl <;> exact absurd hl (by decide)
          rw [foldlM_cons_of_ok (step_quoted s read hplain.1 hplain.2.1 hplain.2.2), ih]
          simp
      | some l =>
          -- The escape takes two steps, and the second one ends no line.
          have hbackslash : (s.enter (.quoted read)).step '\\' = .ok (s.enter (.escape read)) := rfl
          have hne := ne_newline_of_escapeLetter? hl
          rw [foldlM_cons_of_ok hbackslash, foldlM_cons_of_ok (step_escape s read hne), ih]
          simp

/-- A quoted word is read from a scanner that is between tokens. -/
theorem scan_quoted {s : Scanner} (hs : s.mode = .between) (cs : List Char) :
    (Text.enclose (Text.escape cs)).foldlM step s =
      .ok (s.emit (.quoted (String.ofList cs))) := by
  have hopen : s.step '"' = .ok (s.enter (.quoted [])) := by
    rw [step, hs]
    rfl
  -- The quote behind the body resolves the escapes that the body has kept.
  have hclose : (s.enter (.quoted ((Text.escape cs).reverse ++ []))).step '"' =
      .ok (s.emit (.quoted (String.ofList cs))) := by
    simp only [step, enter, close, List.append_nil, List.reverse_reverse, Text.unescape_escape]
    rfl
  rw [Text.enclose, foldlM_cons_of_ok hopen, foldlM_append_of_ok (scan_escaped s cs []),
    foldlM_cons_of_ok hclose]
  rfl

/-- A bare word is read from a scanner that is between tokens, and is pending
    then. -/
theorem scan_atom {s : Scanner} (hs : s.mode = .between) {cs : List Char}
    (hcs : Text.isBare cs = true) :
    cs.foldlM step s = .ok (s.enter (.atom cs.reverse)) := by
  cases cs with
  | nil => cases hcs
  | cons c cs =>
      simp only [Text.isBare, List.isEmpty_cons, Bool.not_false, Bool.true_and,
        List.all_eq_true] at hcs
      have hfirst : s.step c = .ok (s.enter (.atom [c])) := by
        rw [step, hs]
        exact begin_atomChar (hcs c List.mem_cons_self)
      rw [foldlM_cons_of_ok hfirst,
        scan_atom_rest s (fun d hd => hcs d (List.mem_cons_of_mem c hd)), List.reverse_cons]

end Scanner

open Scanner

/-- Characters that a scanner between tokens reads as the given tokens, except
    that the last of them may still be pending. -/
def Scans (cs : List Char) (ts : List Token) : Prop :=
  ∀ s : Scanner, s.mode = .between →
    ∃ s', cs.foldlM step s = .ok s' ∧ s'.settle = ts.foldl emit s

theorem mode_emits {s : Scanner} (hs : s.mode = .between) (ts : List Token) :
    (ts.foldl emit s).mode = .between := by
  induction ts generalizing s with
  | nil => exact hs
  | cons t ts ih => exact ih rfl

/-- Emitting tokens puts them on top of those already found, on the current line. -/
theorem found_emits (s : Scanner) (ts : List Token) :
    (ts.foldl emit s).found = (onLine s.line ts).reverse ++ s.found := by
  induction ts generalizing s with
  | nil => rfl
  | cons t ts ih =>
      rw [List.foldl_cons, ih]
      simp [onLine, emit]

/-- A token that is no word is one character, which ends a pending word. -/
theorem exists_mark {t : Token} (ht : t.word? = none) :
    ∃ c, t.spelled = [c] ∧ ∀ s : Scanner, s.Loose → s.step c = .ok (s.settle.emit t) := by
  cases t with
  | openParen => exact ⟨'(', rfl, fun s hs => step_of_loose hs (by decide)⟩
  | closeParen => exact ⟨')', rfl, fun s hs => step_of_loose hs (by decide)⟩
  | openBracket => exact ⟨'[', rfl, fun s hs => step_of_loose hs (by decide)⟩
  | closeBracket => exact ⟨']', rfl, fun s hs => step_of_loose hs (by decide)⟩
  | nil => exact ⟨'~', rfl, fun s hs => step_of_loose hs (by decide)⟩
  | quoted w => cases ht
  | atom w => cases ht

namespace Scans

variable {cs ds : List Char} {ts us : List Token}

theorem nil : Scans [] [] := fun s hs => ⟨s, rfl, settle_of_between hs⟩

theorem loose {s s' : Scanner} (hs : s.mode = .between) (h : s'.settle = ts.foldl emit s) :
    s'.Loose :=
  loose_of_settle (h ▸ mode_emits hs ts)

/-- A token that is no word may stand directly behind anything. -/
theorem append_mark {t : Token} (h : Scans cs ts) (ht : t.word? = none) :
    Scans (cs ++ t.spelled) (ts ++ [t]) := by
  intro s hs
  rcases h s hs with ⟨s', hfold, hsettle⟩
  rcases exists_mark ht with ⟨c, hc, hstep⟩
  refine ⟨s'.settle.emit t, ?_, ?_⟩
  · rw [foldlM_append_of_ok hfold, hc, foldlM_cons_of_ok (hstep s' (loose hs hsettle))]
    rfl
  · rw [settle_of_between rfl, hsettle, List.foldl_append]
    rfl

/-- The characters of a token are scanned as that token. -/
theorem token {t : Token} (ht : t.Spellable) : Scans t.spelled [t] := by
  intro s hs
  cases t with
  | quoted w =>
      refine ⟨_, scan_quoted hs w.toList, ?_⟩
      rw [String.ofList_toList]
      rfl
  | atom w =>
      -- The word is pending, and settling it gives the token.
      refine ⟨_, scan_atom hs ht, ?_⟩
      rw [settle_of_atom rfl, List.reverse_reverse]
      exact congrArg (fun w => s.emit (.atom w)) String.ofList_toList
  | openParen => exact append_mark (t := .openParen) nil rfl s hs
  | closeParen => exact append_mark (t := .closeParen) nil rfl s hs
  | openBracket => exact append_mark (t := .openBracket) nil rfl s hs
  | closeBracket => exact append_mark (t := .closeBracket) nil rfl s hs
  | nil => exact append_mark (t := .nil) nil rfl s hs

/-- Anything may stand directly behind a token that is no word. -/
theorem mark_append {t : Token} (ht : t.word? = none) (h : Scans cs ts) :
    Scans (t.spelled ++ cs) (t :: ts) := by
  intro s hs
  rcases exists_mark ht with ⟨c, hc, hstep⟩
  rcases h (s.emit t) rfl with ⟨s', hfold, hsettle⟩
  refine ⟨s', ?_, hsettle⟩
  have hfirst := hstep s (.inl hs)
  rw [settle_of_between hs] at hfirst
  rw [hc, List.singleton_append, foldlM_cons_of_ok hfirst, hfold]

/-- Anything may stand behind anything with a space between. -/
theorem append_space (h : Scans cs ts) (h' : Scans ds us) :
    Scans (cs ++ ' ' :: ds) (ts ++ us) := by
  intro s hs
  rcases h s hs with ⟨s₁, hfold, hsettle⟩
  -- The space settles the scanner and does nothing else.
  have hbetween : s₁.settle.mode = .between := hsettle ▸ mode_emits hs ts
  have hspace : s₁.step ' ' = .ok s₁.settle := by
    rw [step_of_loose (loose hs hsettle) (by decide)]
    exact congrArg Except.ok (enter_between hbetween)
  rcases h' s₁.settle hbetween with ⟨s₂, hfold', hsettle'⟩
  refine ⟨s₂, ?_, ?_⟩
  · rw [foldlM_append_of_ok hfold, foldlM_cons_of_ok hspace, hfold']
  · rw [hsettle', hsettle, List.foldl_append]

end Scans

/-- The end of the text settles the scanner. -/
theorem finish_of_loose {s : Scanner} (hs : s.Loose) : s.finish = .ok s.settle.found.reverse := by
  rcases hs with hm | ⟨read, hm⟩
  · rw [settle_of_between hm, finish, hm]
  · rw [settle_of_atom hm, finish, hm]

/-- The tokens of a text without line breaks, all of them on the first line. -/
theorem tokens_of_scans {cs : List Char} {ts : List Token} (h : Scans cs ts) :
    tokens (String.ofList cs) = .ok (onLine 1 ts) := by
  rcases h start rfl with ⟨s, hfold, hsettle⟩
  have hfound : s.settle.found.reverse = onLine 1 ts := by
    rw [hsettle, found_emits]
    simp [start]
  rw [tokens, String.toList_ofList, hfold, ← hfound]
  exact finish_of_loose (Scans.loose rfl hsettle)

end TreeScript
