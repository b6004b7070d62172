import Mathlib.Data.List.Chain
import TreeScript.Proofs.Scanning

/-!
# Layout

What may stand between tokens, and that it makes no difference but for the lines. A separator
is made of the characters of layout and of comments with the line breaks that end them; it may
be empty, except between two bare words, which would be one word without it. What a comment
says does not matter, and neither does it matter what a quoted word looks like inside.

Behind a token the scanner is between tokens, or a bare word is pending. The first character
behind a pending word settles it, unless that character goes on with the word, and that is
what the condition on bare words excludes. So a separator and the token behind it are always
read as from the settled scanner, and one induction over the pieces of a text is enough.

A token stands on the line that the line breaks before it lead to. None of them is in a token:
quoted words escape theirs.

The induction carries a scanner that is loose, and not one between tokens, since the token
in front may be a bare word that is still pending. `Scanner.down` moves a scanner by a
number of lines, and a separator does that and nothing else to the settled one.

## Main definitions

* `Separator`: What may stand between tokens.
* `Piece`, `laidOut`: A token behind a separator, and the text of some of them.
* `LaidOut`: The conditions on such a text.
* `placedBehind`: The tokens of a text with the lines that they stand on.

## Theorems

* `Scanner.scan_of_loose`: What cannot go on with a pending word is read as from the settled scanner.
* `Scanner.scan_separator`: A separator only counts its line breaks.
* `scan_laidOut`: The pieces of a text are read one after the other.
* `layout_makes_no_difference`: The tokens of a text that is laid out in any way.
* `Scanner.scan_comment`, `Scanner.scan_token`: Comments and tokens, character by character.
* `scan_piece`: A separator and the token behind it.
* `newline_not_mem_spelled`: No token is spelled over a line break.
-/

namespace TreeScript

/-- The characters of layout. -/
def layout : List Char := [' ', '\t', '\r', Char.ofNat 0x0C, '\n']

/-- What may stand between tokens: any number of characters of layout, and of comments, each
    with the line break that ends it. -/
inductive Separator : List Char → Prop where
  | nil : Separator []
  | blank {c : Char} {cs : List Char} : c ∈ layout → Separator cs → Separator (c :: cs)
  | comment (text : List Char) {cs : List Char} : '\n' ∉ text → Separator cs →
      Separator (';' :: (text ++ '\n' :: cs))

/-- A token with what stands before it. -/
structure Piece where
  gap : List Char
  token : Token
  deriving DecidableEq, Inhabited

/-- The characters of some pieces in order, and of what stands behind the last one. -/
def laidOut : List Piece → List Char → List Char
  | [], last => last
  | p :: pieces, last => p.gap ++ p.token.spelled ++ laidOut pieces last

/-- The tokens of some pieces behind a part of the text, each of them on the line to which the
    line breaks before it lead. -/
def placedBehind : List Char → List Piece → List Placed
  | _, [] => []
  | before, p :: pieces => ⟨p.token, 1 + (before ++ p.gap).count '\n'⟩ ::
      placedBehind (before ++ p.gap ++ p.token.spelled) pieces

/-- Whether a token is a bare word. -/
def Token.isAtom : Token → Bool
  | .atom _ => true
  | _ => false

/-- A piece that can stand behind another one: two bare words have something between them. -/
def Piece.Follows (p q : Piece) : Prop :=
  p.token.isAtom = true → q.token.isAtom = true → q.gap ≠ []

/-- Pieces that make up a text: tokens that can be spelled, with separators before, between and
    behind them. -/
structure LaidOut (pieces : List Piece) (last : List Char) : Prop where
  gaps : ∀ p ∈ pieces, Separator p.gap
  last : Separator last
  spellable : ∀ p ∈ pieces, p.token.Spellable
  apart : pieces.IsChain Piece.Follows

variable {s : Scanner} {c : Char} {cs gap last : List Char} {t : Token} {p : Piece}
  {pieces : List Piece}

theorem placedBehind_tokens (before : List Char) (pieces : List Piece) :
    (placedBehind before pieces).map Placed.token = pieces.map Piece.token := by
  induction pieces generalizing before with
  | nil => rfl
  | cons p pieces ih => rw [placedBehind, List.map_cons, List.map_cons, ih]

/-- No token is spelled over a line break, quoted ones included, since they escape it. -/
theorem newline_not_mem_spelled (ht : t.Spellable) : '\n' ∉ t.spelled := by
  cases t with
  | quoted w => simpa [Token.spelled, Text.enclose] using Scanner.newline_not_mem_escape w.toList
  | atom w => exact Scanner.newline_not_mem_bare ht
  | _ => decide

namespace Scanner

/-- The scanner so many lines further down. -/
def down (k : Nat) (s : Scanner) : Scanner := { s with line := s.line + k }

theorem down_down (k l : Nat) (s : Scanner) : (s.down k).down l = s.down (k + l) := by
  simp only [down, Nat.add_assoc]

theorem mode_settle (hs : s.Loose) : s.settle.mode = .between := by
  rcases hs with hm | ⟨read, hm⟩
  · rw [settle_of_between hm, hm]
  · rw [settle_of_atom hm]
    rfl

/-- What cannot go on with a pending word is read as from the settled scanner. -/
theorem scan_of_loose (hs : s.Loose) (hc : Text.isAtomChar c = false) :
    (c :: cs).foldlM step s = (c :: cs).foldlM step s.settle := by
  have hm := mode_settle hs
  -- The first character settles the word, and does the same if it has been settled already.
  rw [List.foldlM_cons, List.foldlM_cons, step_of_loose hs hc, step_of_loose (.inl hm) hc,
    settle_of_between hm]

theorem nextLine_enter (hs : s.mode = .between) (mode : Mode) :
    (s.enter mode).nextLine = s.down 1 := by
  simp only [nextLine, enter, down, ← hs]

/-- A character of layout does nothing, or ends the line. -/
theorem step_layout (hs : s.mode = .between) (hc : c ∈ layout) :
    s.step c = .ok (s.down ([c].count '\n')) := by
  have hself : s.enter .between = s := enter_between hs
  have hnext := nextLine_enter hs .between
  rw [hself] at hnext
  simp only [layout, List.mem_cons, List.not_mem_nil, or_false] at hc
  rw [step, hs]
  -- Of the five layout characters only the last one is a line break.
  rcases hc with rfl | rfl | rfl | rfl | rfl
  · exact congrArg Except.ok hself
  · exact congrArg Except.ok hself
  · exact congrArg Except.ok hself
  · exact congrArg Except.ok hself
  · exact congrArg Except.ok hnext

/-- The text of a comment does nothing. -/
theorem scan_comment (s : Scanner) {text : List Char} (h : '\n' ∉ text) :
    text.foldlM step (s.enter .comment) = .ok (s.enter .comment) := by
  induction text with
  | nil => rfl
  | cons c text ih =>
      have hc : c ≠ '\n' := fun he => h (he ▸ List.mem_cons_self)
      have hstep : (s.enter .comment).step c = .ok (s.enter .comment) := by
        simp only [step, enter, if_neg hc]
      rw [foldlM_cons_of_ok hstep, ih fun hmem => h (List.mem_cons_of_mem c hmem)]

/-- A separator only counts its line breaks. -/
theorem scan_separator (hs : s.mode = .between) (h : Separator gap) :
    gap.foldlM step s = .ok (s.down (gap.count '\n')) := by
  induction h generalizing s with
  | nil => rfl
  | @blank c cs hc _ ih =>
      have hsame : (s.down ([c].count '\n')).mode = .between := hs
      rw [foldlM_cons_of_ok (step_layout hs hc), ih hsame, down_down, ← List.count_append]
      rfl
  | @comment text cs htext _ ih =>
      have hopen : s.step ';' = .ok (s.enter .comment) := by
        rw [step, hs]
        rfl
      have hclose : (s.enter .comment).step '\n' = .ok (s.down 1) := by
        rw [← nextLine_enter hs .comment]
        rfl
      have hsame : (s.down 1).mode = .between := hs
      -- The line break that ends the comment is the only one in it.
      have hcount : (';' :: (text ++ '\n' :: cs)).count '\n' = 1 + cs.count '\n' := by
        rw [List.count_cons_of_ne (by decide), List.count_append, List.count_eq_zero.mpr htext,
          List.count_cons_self]
        omega
      rw [foldlM_cons_of_ok hopen, foldlM_append_of_ok (scan_comment s htext),
        foldlM_cons_of_ok hclose, ih hsame, down_down, hcount]

/-- Behind a token it is found, and only a bare word is still pending. -/
theorem scan_token (hs : s.mode = .between) (ht : t.Spellable) :
    ∃ s', t.spelled.foldlM step s = .ok s' ∧ s'.settle = s.emit t ∧
      (t.isAtom = false → s'.mode = .between) := by
  rcases Scans.token ht s hs with ⟨s', hfold, hsettle⟩
  refine ⟨s', hfold, hsettle, fun hatom => ?_⟩
  cases hw : t.word? with
  | none =>
      rcases exists_mark hw with ⟨c, hc, hstep⟩
      rw [hc, foldlM_cons_of_ok (hstep s (.inl hs))] at hfold
      cases hfold
      rfl
  | some w =>
      -- The quote at the end of a quoted word ends it.
      cases t with
      | quoted w =>
          rw [Token.spelled, scan_quoted hs] at hfold
          cases hfold
          rfl
      | atom w => cases hatom
      | _ => cases hw

end Scanner

open Scanner

/-- Neither a separator nor a token that is no bare word goes on with a pending word. -/
theorem Separator.head (h : Separator (c :: cs)) : Text.isAtomChar c = false := by
  cases h with
  | blank hc _ =>
      simp only [layout, List.mem_cons, List.not_mem_nil, or_false] at hc
      rcases hc with rfl | rfl | rfl | rfl | rfl <;> decide
  | comment text _ _ => decide

/-- A token that is no atom begins with a character that ends an atom. -/
theorem exists_head_spelled (h : t.isAtom = false) :
    ∃ c cs, t.spelled = c :: cs ∧ Text.isAtomChar c = false := by
  cases t with
  | atom w => cases h
  | _ => exact ⟨_, _, rfl, by decide⟩

/-- A piece is read as from the settled scanner, unless it is a bare word that nothing stands
    before. -/
theorem scan_piece_settle (hs : s.Loose) (hgap : Separator p.gap)
    (hfirst : p.token.isAtom = true → p.gap = [] → s.mode = .between) :
    (p.gap ++ p.token.spelled).foldlM step s = (p.gap ++ p.token.spelled).foldlM step s.settle := by
  rcases p with ⟨gap, t⟩
  cases gap with
  | cons c cs => exact scan_of_loose hs hgap.head
  | nil =>
      cases hatom : t.isAtom with
      | true => rw [settle_of_between (hfirst hatom rfl)]
      | false =>
          -- Without a separator it is the token that settles a pending word.
          rcases exists_head_spelled hatom with ⟨c, cs, hspelled, hc⟩
          rw [List.nil_append, hspelled]
          exact scan_of_loose hs hc

/-- Behind a piece its token is found, on the line that its separator leads to. -/
theorem scan_piece (hs : s.Loose) (hgap : Separator p.gap) (ht : p.token.Spellable)
    (hfirst : p.token.isAtom = true → p.gap = [] → s.mode = .between) :
    ∃ s', (p.gap ++ p.token.spelled).foldlM step s = .ok s' ∧
      s'.settle = (s.settle.down (p.gap.count '\n')).emit p.token ∧
      (p.token.isAtom = false → s'.mode = .between) := by
  have hm := mode_settle hs
  have hdown : (s.settle.down (p.gap.count '\n')).mode = .between := hm
  rcases scan_token hdown ht with ⟨s', hfold, hsettle, hclosed⟩
  refine ⟨s', ?_, hsettle, hclosed⟩
  rw [scan_piece_settle hs hgap hfirst, foldlM_append_of_ok (scan_separator hm hgap), hfold]

theorem LaidOut.tail (h : LaidOut (p :: pieces) last) : LaidOut pieces last where
  gaps q hq := h.gaps q (List.mem_cons_of_mem p hq)
  last := h.last
  spellable q hq := h.spellable q (List.mem_cons_of_mem p hq)
  apart := (List.isChain_cons.mp h.apart).2

/-- Behind the last piece there is only a separator, which may end a pending word. -/
theorem scan_last (hs : s.Loose) (h : Separator last) :
    ∃ s', last.foldlM step s = .ok s' ∧ s'.Loose ∧ s'.settle.found = s.settle.found := by
  cases last with
  | nil => exact ⟨s, rfl, hs, rfl⟩
  -- The first character of the rest ends a bare word, since it is layout or a comment.
  | cons c cs =>
      have hm := mode_settle hs
      have hdown : (s.settle.down ((c :: cs).count '\n')).mode = .between := hm
      refine ⟨_, (scan_of_loose hs h.head).trans (scan_separator hm h), .inl hdown, ?_⟩
      rw [settle_of_between hdown]
      rfl

/-- The pieces of a text are read one after the other, from any place that is not inside
    another token. -/
theorem scan_laidOut (before : List Char) (h : LaidOut pieces last) (hs : s.Loose)
    (hline : s.settle.line = 1 + before.count '\n')
    (hfirst : ∀ p ∈ pieces.head?, p.token.isAtom = true → p.gap = [] → s.mode = .between) :
    ∃ s', (laidOut pieces last).foldlM step s = .ok s' ∧ s'.Loose ∧
      s'.settle.found = (placedBehind before pieces).reverse ++ s.settle.found := by
  -- By induction on the pieces. In between only a bare word can be pending, and then the next
  -- piece does not begin with another one.
  induction pieces generalizing s before with
  | nil => exact scan_last hs h.last
  | cons p pieces ih =>
      have hspellable := h.spellable p List.mem_cons_self
      rcases scan_piece hs (h.gaps p List.mem_cons_self) hspellable (hfirst p rfl) with
        ⟨s₁, hfold, hsettle, hclosed⟩
      have hloose : s₁.Loose := loose_of_settle (by rw [hsettle]; rfl)
      -- There are no line breaks in the token.
      have hplace : s₁.settle.line =
          1 + (before ++ p.gap ++ p.token.spelled).count '\n' := by
        rw [hsettle, List.count_append, List.count_append,
          List.count_eq_zero.mpr (newline_not_mem_spelled hspellable)]
        exact (congrArg (· + _) hline).trans (Nat.add_assoc _ _ _)
      have hnext : ∀ q ∈ pieces.head?, q.token.isAtom = true → q.gap = [] →
          s₁.mode = .between := by
        intro q hq hatom hgap
        cases hp : p.token.isAtom with
        | false => exact hclosed hp
        | true => exact absurd hgap ((List.isChain_cons.mp h.apart).1 q hq hp hatom)
      rcases ih _ h.tail hloose hplace hnext with ⟨s', hrest, hloose', hfound⟩
      refine ⟨s', ?_, hloose', ?_⟩
      · rw [laidOut, foldlM_append_of_ok hfold, hrest]
      · have htoken : s₁.settle.found =
            ⟨p.token, 1 + (before ++ p.gap).count '\n'⟩ :: s.settle.found := by
          rw [hsettle, List.count_append, ← Nat.add_assoc, ← hline]
          rfl
        rw [hfound, htoken, placedBehind, List.reverse_cons]
        exact (List.append_assoc _ [_] _).symm

/-- The tokens of a text that is laid out in any way are those of its pieces, in order, each
    of them on the line whose number is one more than the number of line breaks before it. -/
theorem layout_makes_no_difference (pieces : List Piece) (last : List Char)
    (h : LaidOut pieces last) :
    tokens (String.ofList (laidOut pieces last)) = .ok (placedBehind [] pieces) ∧
      (placedBehind [] pieces).map Placed.token = pieces.map Piece.token := by
  refine ⟨?_, placedBehind_tokens [] pieces⟩
  have hstart : start.Loose := .inl rfl
  rcases scan_laidOut [] h hstart rfl fun _ _ _ _ => rfl with ⟨s, hfold, hloose, hfound⟩
  rw [tokens, String.toList_ofList, hfold]
  refine (finish_of_loose hloose).trans ?_
  -- Nothing has been found before the first piece.
  rw [hfound]
  simp [start, settle]

/-- Delimiters in comments and in quoted words are no tokens, and a comment counts a line. -/
theorem layout_makes_no_difference_comment :
    let pieces : List Piece := [⟨[' ', ';', '"', '(', '\n', '\t'], .openParen⟩, ⟨[], .atom "a"⟩,
      ⟨['\n'], .atom "b"⟩, ⟨[], .quoted "; [\"\n"⟩, ⟨[], .atom "c"⟩,
      ⟨[';', 'x', '\n', '\n'], .closeParen⟩]
    let last := ['\r', ';', '~', '\n']
    LaidOut pieces last ∧
      tokens " ;\"(\n\t(a\nb\"; [\\\"\\n\"c;x\n\n)\r;~\n" = .ok [⟨.openParen, 2⟩, ⟨.atom "a", 2⟩,
        ⟨.atom "b", 3⟩, ⟨.quoted "; [\"\n", 3⟩, ⟨.atom "c", 3⟩, ⟨.closeParen, 5⟩] := by
  intro pieces last
  have hopen : Separator [' ', ';', '"', '(', '\n', '\t'] :=
    .blank (by decide) (.comment ['"', '('] (by decide) (.blank (by decide) .nil))
  have hbreak : Separator ['\n'] := .blank (by decide) .nil
  have hclose : Separator [';', 'x', '\n', '\n'] := .comment ['x'] (by decide) hbreak
  have hlast : Separator last := .blank (by decide) (.comment ['~'] (by decide) .nil)
  -- The quoted word stands between two bare ones, so no gap is needed there.
  have h : LaidOut pieces last :=
    { gaps := by
        simpa only [pieces, List.forall_mem_cons, List.not_mem_nil, false_imp_iff, implies_true]
          using ⟨hopen, .nil, hbreak, .nil, .nil, hclose, trivial⟩
      last := hlast
      spellable := by
        have hwords : ∀ w ∈ ["a", "b", "c"], Text.isBare w.toList = true := by decide
        simpa [pieces, Token.Spellable] using hwords
      apart := by simp [pieces, Piece.Follows, Token.isAtom] }
  exact ⟨h, (layout_makes_no_difference pieces last h).1⟩

end TreeScript
