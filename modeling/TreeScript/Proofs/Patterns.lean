import Mathlib.Data.Nat.Find
import TreeScript.Proofs.Layout

/-!
# Token Patterns

The scanner by the patterns of its tokens. What the tokens of a text are is a matter of
seven patterns: the five marks, quoted words, quoted words that lack the quote at their end,
bare words, comments, line breaks and other layout. At each place the longest part of the
text counts that one of them matches; it is a token, or nothing, or an error, and the next
place is behind it. Where no pattern matches anything, the character there is an error.

The scanner knows nothing of this. It goes from one character to the next and never takes
one back, and what it is in the middle of is all that it has of a pattern. That it finds
the same tokens has two reasons. A pattern that it is in the middle of can be told by its
first character. And the longest match is over at a character that could not go on with it,
which is what the scanner looks at: behind a bare word or a comment there is such a
character or the end of the text, and a quoted word that lacks its quote stands before a
line break or at the end, or else it could be longer or be a whole quoted word.

`Lexed` is the reading by patterns, as a relation. Nothing in it says that there is only one
pattern with a longest match, or that there is a longest match at all. The first follows
from `Lexed.scanned`, where the pattern is any one and the result is always that of the
scanner, and the second holds because there are only so many characters.

## Main definitions

* `QuotedBody`: What may stand between the quotes of a quoted word.
* `Pattern`, `Pattern.Matches`: The patterns and what they match.
* `Pattern.token?`: What becomes of the characters that a pattern matches.
* `Longest`: The longest match at the beginning of a text.
* `Lexed`: The tokens of a text by its longest matches.

## Theorems

* `scanned_of_ok`, `scanned_of_error`: What the scanner makes of a longest match.
* `Lexed.scanned`: The scanner finds what the patterns say.
* `exists_longest`: There is a longest match if there is any.
* `tokens_eq_iff`: The tokens of a text are those by longest matches.
-/

namespace TreeScript

open Scanner

/-- What may stand between the quotes of a quoted word: characters that stand for themselves,
    and pairs of a backslash and a character, all of them on one line. -/
inductive QuotedBody : List Char → Prop where
  | nil : QuotedBody []
  | plain {c : Char} {cs : List Char} : c ≠ '"' → c ≠ '\\' → c ≠ '\n' → QuotedBody cs →
      QuotedBody (c :: cs)
  | pair {c : Char} {cs : List Char} : c ≠ '\n' → QuotedBody cs → QuotedBody ('\\' :: c :: cs)

/-- The patterns of tokens and of what stands between them. -/
inductive Pattern where
  /-- A token that is one character. -/
  | mark (t : Token)
  /-- A quoted word. -/
  | quoted
  /-- A quoted word without the quote at its end. -/
  | unterminated
  /-- A bare word. -/
  | atom
  /-- A comment, up to the end of its line. -/
  | comment
  /-- A line break. -/
  | lineBreak
  /-- Layout other than line breaks. -/
  | blanks
  deriving DecidableEq, Inhabited

namespace Pattern

/-- What a pattern matches. -/
def Matches : Pattern → List Char → Prop
  | mark t, cs => t.word? = none ∧ cs = t.spelled
  | quoted, cs => ∃ body, QuotedBody body ∧ cs = Text.enclose body
  | unterminated, cs => ∃ body, QuotedBody body ∧ cs = '"' :: body
  | atom, cs => Text.isBare cs = true
  | comment, cs => ∃ text, '\n' ∉ text ∧ cs = ';' :: text
  | lineBreak, cs => cs = ['\n']
  | blanks, cs => cs ≠ [] ∧ ∀ c ∈ cs, isLayout c = true

/-- What becomes of the characters that a pattern matches on a line: a token, nothing, or an
    error. The escapes of a quoted word are resolved between its quotes. -/
def token? (line : Nat) : Pattern → List Char → Except ReadError (Option Token)
  | mark t, _ => .ok (some t)
  | quoted, cs => match Text.unescape cs.tail.dropLast with
    | some w => .ok (some (.quoted (String.ofList w)))
    | none => .error (.unreadable (String.ofList cs) line)
  | unterminated, _ => .error (.unterminated line)
  | atom, cs => .ok (some (.atom (String.ofList cs)))
  | _, _ => .ok none

/-- A quoted pattern is a token when the escapes in its body can be resolved. -/
theorem token?_quoted (line : Nat) (body : List Char) :
    quoted.token? line (Text.enclose body) = match Text.unescape body with
      | some w => .ok (some (.quoted (String.ofList w)))
      | none => .error (.unreadable (String.ofList (Text.enclose body)) line) := by
  have hinner : (Text.enclose body).tail.dropLast = body := by simp [Text.enclose]
  simp only [token?, hinner]

/-- How many lines a match of the pattern takes. -/
def lines : Pattern → Nat
  | lineBreak => 1
  | _ => 0

/-- No pattern matches the empty text, so each token takes the text further. -/
theorem Matches.ne_nil {p : Pattern} {cs : List Char} (h : p.Matches cs) : cs ≠ [] := by
  rintro rfl
  -- Every pattern asks for a first character.
  cases p with
  | mark t =>
      rcases h with ⟨ht, hcs⟩
      cases t with
      | quoted w => cases ht
      | atom w => cases ht
      | _ => cases hcs
  | quoted =>
      rcases h with ⟨_, _, hcs⟩
      cases hcs
  | unterminated =>
      rcases h with ⟨_, _, hcs⟩
      cases hcs
  | atom => cases h
  | comment =>
      rcases h with ⟨_, _, hcs⟩
      cases hcs
  | lineBreak => cases h
  | blanks => exact h.1 rfl

end Pattern

/-- The pattern matches a part at the beginning of a text, and none matches a longer one. -/
structure Longest (p : Pattern) (lexeme rest : List Char) : Prop where
  fits : p.Matches lexeme
  longest : ∀ (q : Pattern) (other : List Char), q.Matches other → other <+: lexeme ++ rest →
    other.length ≤ lexeme.length

/-- What a text comes to, from a line on, if the longest match counts at each place: the
    tokens that are found, each with its line, or the first error. -/
inductive Lexed : Nat → List Char → Except ReadError (List Placed) → Prop where
  | done (line : Nat) : Lexed line [] (.ok [])
  | refused {line : Nat} {c : Char} {cs : List Char} :
      (∀ (p : Pattern) (lexeme : List Char), p.Matches lexeme → ¬lexeme <+: c :: cs) →
      Lexed line (c :: cs) (.error (.unreadable (String.singleton c) line))
  | fails {line : Nat} {p : Pattern} {lexeme rest : List Char} {e : ReadError} :
      Longest p lexeme rest → p.token? line lexeme = .error e →
      Lexed line (lexeme ++ rest) (.error e)
  | goesOn {line : Nat} {p : Pattern} {lexeme rest : List Char} {t? : Option Token}
      {r : Except ReadError (List Placed)} : Longest p lexeme rest →
      p.token? line lexeme = .ok t? → Lexed (line + p.lines) rest r →
      Lexed line (lexeme ++ rest) (r.map ((t?.map (Placed.mk · line)).toList ++ ·))

variable {p : Pattern} {s s' : Scanner} {c : Char} {cs rest lexeme body : List Char} {line : Nat}
  {found : List Placed} {t? : Option Token} {e : ReadError} {r : Except ReadError (List Placed)}

namespace Scanner

/-- What becomes of the rest of a text. -/
def scanned (s : Scanner) (cs : List Char) : Except ReadError (List Placed) := do
  let s ← cs.foldlM step s
  s.finish

theorem scanned_append_of_ok (h : cs.foldlM step s = .ok s') :
    s.scanned (cs ++ rest) = s'.scanned rest := by
  unfold scanned
  rw [foldlM_append_of_ok h]

theorem scanned_cons_of_ok (h : s.step c = .ok s') : s.scanned (c :: cs) = s'.scanned cs := by
  unfold scanned
  rw [foldlM_cons_of_ok h]

theorem scanned_cons_of_error (h : s.step c = .error e) : s.scanned (c :: cs) = .error e := by
  unfold scanned
  rw [List.foldlM_cons, h]
  rfl

/-- A pending word is over if nothing goes on with it. -/
theorem scanned_settle (hs : s.Loose)
    (hrest : ∀ c, rest.head? = some c → Text.isAtomChar c = false) :
    s.scanned rest = s.settle.scanned rest := by
  cases rest with
  | nil =>
      have hm := mode_settle hs
      have hend : s.finish = s.settle.finish := by
        rw [finish_of_loose hs, finish_of_loose (.inl hm), settle_of_between hm]
      exact hend
  -- A character that is not part of a word ends the word first.
  | cons c cs =>
      unfold scanned
      rw [scan_of_loose hs (hrest c rfl)]

/-- A comment is over at the end of its line. -/
theorem scanned_comment (hs : s.mode = .between)
    (hrest : ∀ c, rest.head? = some c → c = '\n') :
    (s.enter .comment).scanned rest = s.scanned rest := by
  cases rest with
  -- At the end of the text the comment is dropped.
  | nil =>
      have hend : (s.enter .comment).finish = s.finish := by
        unfold finish
        rw [hs]
        rfl
      exact hend
  | cons c cs =>
      cases hrest c rfl
      -- At a line break it is dropped too, and the line is counted as it would be without it.
      have hbreak : s.step '\n' = .ok (s.down 1) := by
        rw [← nextLine_enter hs .between, step, hs, enter_between hs]
        rfl
      have hclose : (s.enter .comment).step '\n' = .ok (s.down 1) := by
        rw [← nextLine_enter hs .comment]
        rfl
      rw [scanned_cons_of_ok hclose, scanned_cons_of_ok hbreak]

/-- The body of a quoted word is read as it is. -/
theorem scan_body (s : Scanner) (h : QuotedBody body) (read : List Char) :
    body.foldlM step (s.enter (.quoted read)) = .ok (s.enter (.quoted (body.reverse ++ read))) := by
  induction h generalizing read with
  | nil => rfl
  | @plain c cs hquote hbackslash hbreak _ ih =>
      rw [foldlM_cons_of_ok (step_quoted s read hquote hbackslash hbreak), ih]
      simp
  -- The escape is read as a pair, and neither of its characters ends the word.
  | @pair c cs hbreak _ ih =>
      have hopen : (s.enter (.quoted read)).step '\\' = .ok (s.enter (.escape read)) := rfl
      rw [foldlM_cons_of_ok hopen, foldlM_cons_of_ok (step_escape s read hbreak), ih]
      simp

/-- Behind the body, the scanner is in the middle of the quoted word. -/
theorem scanned_opened (hs : s.mode = .between) (h : QuotedBody body) :
    s.scanned ('"' :: (body ++ rest)) = (s.enter (.quoted body.reverse)).scanned rest := by
  have hopen : s.step '"' = .ok (s.enter (.quoted [])) := by
    rw [step, hs]
    rfl
  rw [scanned_cons_of_ok hopen, scanned_append_of_ok (scan_body s h []), List.append_nil]

/-- Up to the closing quote the scanner collects the body, by the structure of the body. -/
theorem scanned_enclose (hs : s.mode = .between) (h : QuotedBody body) :
    s.scanned (Text.enclose body ++ rest) =
      (s.enter (.quoted body.reverse)).scanned ('"' :: rest) := by
  have hparts : Text.enclose body ++ rest = '"' :: (body ++ '"' :: rest) := by
    simp [Text.enclose]
  rw [hparts, scanned_opened hs h]

/-- Layout between tokens leaves the scanner where it was. -/
theorem scan_blanks (hs : s.mode = .between) (h : ∀ c ∈ cs, isLayout c = true) :
    cs.foldlM step s = .ok s := by
  induction cs with
  | nil => rfl
  | cons c cs ih =>
      have hc := h c List.mem_cons_self
      have hstep : s.step c = .ok s := by
        simp only [isLayout, Bool.or_eq_true, beq_iff_eq] at hc
        rw [step, hs]
        rcases hc with ((rfl | rfl) | rfl) | rfl <;>
          exact congrArg Except.ok (enter_between hs)
      rw [foldlM_cons_of_ok hstep, ih fun d hd => h d (List.mem_cons_of_mem c hd)]

end Scanner

namespace Longest

/-- A longest match cannot be made longer. -/
theorem not_matches (h : Longest p lexeme (c :: rest)) {more : List Char} (hmore : more <+: rest)
    (q : Pattern) : ¬q.Matches (lexeme ++ c :: more) := by
  intro hq
  have hprefix : lexeme ++ c :: more <+: lexeme ++ c :: rest :=
    (List.prefix_append_right_inj lexeme).mpr (List.cons_prefix_cons.mpr ⟨rfl, hmore⟩)
  have hle := h.longest q _ hq hprefix
  rw [List.length_append, List.length_cons] at hle
  omega

/-- Behind a bare word there is no character that could go on with it. -/
theorem head_atom (h : Longest .atom lexeme rest) (hc : rest.head? = some c) :
    Text.isAtomChar c = false := by
  cases rest with
  | nil => cases hc
  | cons d rest =>
      cases hc
      -- One more character of a word would have made the lexeme longer.
      refine Bool.eq_false_iff.mpr fun hatom => h.not_matches (List.nil_prefix) .atom ?_
      have hfits : Text.isBare lexeme = true := h.fits
      simp only [Text.isBare, Bool.and_eq_true, List.all_eq_true] at hfits
      simp only [Pattern.Matches, Text.isBare, List.all_append, List.all_cons, hatom]
      simpa using hfits.2

/-- Behind a comment there is a line break. -/
theorem head_comment (h : Longest .comment lexeme rest) (hc : rest.head? = some c) : c = '\n' := by
  cases rest with
  | nil => cases hc
  | cons d rest =>
      cases hc
      by_contra hne
      rcases h.fits with ⟨text, htext, rfl⟩
      refine h.not_matches List.nil_prefix .comment ⟨text ++ [c], ?_, rfl⟩
      simpa [htext] using Ne.symm hne

end Longest

theorem QuotedBody.append {body' : List Char} (h : QuotedBody body) (h' : QuotedBody body') :
    QuotedBody (body ++ body') := by
  induction h with
  | nil => exact h'
  | plain hquote hbackslash hbreak _ ih => exact .plain hquote hbackslash hbreak ih
  | pair hbreak _ ih => exact .pair hbreak ih

/-- Behind a quoted word that lacks its quote, the line ends or the text does, perhaps within a
    pair. -/
theorem scanned_unterminated (h : Longest .unterminated ('"' :: body) rest)
    (hbody : QuotedBody body) (s : Scanner) (read : List Char) :
    (s.enter (.quoted read)).scanned rest = .error (.unterminated s.line) := by
  cases rest with
  | nil => rfl
  | cons c rest =>
      by_cases hbreak : c = '\n'
      · subst hbreak
        exact scanned_cons_of_error rfl
      -- A closing quote would make this a quoted word, which is longer.
      by_cases hquote : c = '"'
      · subst hquote
        exact absurd ⟨body, hbody, rfl⟩ (h.not_matches List.nil_prefix .quoted)
      by_cases hbackslash : c = '\\'
      · subst hbackslash
        have hopen : (s.enter (.quoted read)).step '\\' = .ok (s.enter (.escape read)) := rfl
        rw [scanned_cons_of_ok hopen]
        cases rest with
        | nil => rfl
        | cons d rest =>
            -- A pair behind the backslash would make the body longer.
            by_cases hd : d = '\n'
            · subst hd
              exact scanned_cons_of_error rfl
            · have hlonger := hbody.append (.pair hd .nil)
              exact absurd ⟨_, hlonger, rfl⟩
                (h.not_matches (List.prefix_append [d] rest) .unterminated)
      · have hlonger := hbody.append (.plain hquote hbackslash hbreak .nil)
        exact absurd ⟨_, hlonger, rfl⟩ (h.not_matches List.nil_prefix .unterminated)

/-- What the scanner makes of a longest match that is a token or nothing. -/
theorem scanned_of_ok (h : Longest p lexeme rest) (ht : p.token? line lexeme = .ok t?)
    (found : List Placed) : (Scanner.mk line .between found).scanned (lexeme ++ rest) =
      (Scanner.mk (line + p.lines) .between
        ((t?.map (Placed.mk · line)).toList ++ found)).scanned rest := by
  -- The scanner stands between tokens. One case for each pattern that the lexeme may fit.
  let s : Scanner := ⟨line, .between, found⟩
  cases p with
  | mark t =>
      rcases h.fits with ⟨hw, rfl⟩
      cases ht
      rcases exists_mark hw with ⟨c, hc, hstep⟩
      rw [hc]
      exact scanned_cons_of_ok (hstep s (.inl rfl))
  | quoted =>
      rcases h.fits with ⟨body, hbody, rfl⟩
      rw [Pattern.token?_quoted] at ht
      cases hw : Text.unescape body with
      | none =>
          rw [hw] at ht
          cases ht
      | some w =>
          rw [hw] at ht
          cases ht
          have hclose : (s.enter (.quoted body.reverse)).step '"' =
              .ok (s.emit (.quoted (String.ofList w))) := by
            simp only [step, enter, close, List.reverse_reverse, hw]
            rfl
          rw [scanned_enclose (s := s) rfl hbody, scanned_cons_of_ok hclose]
          rfl
  | unterminated => cases ht
  | atom =>
      cases ht
      -- The word is emitted when the next character ends it, which being longest makes sure of.
      have hscan := scan_atom (s := s) rfl h.fits
      rw [scanned_append_of_ok hscan, scanned_settle (.inr ⟨_, rfl⟩) fun c hc => h.head_atom hc,
        settle_of_atom rfl, List.reverse_reverse]
      rfl
  | comment =>
      cases ht
      rcases h.fits with ⟨text, htext, rfl⟩
      have hopen : s.step ';' = .ok (s.enter .comment) := rfl
      rw [List.cons_append, scanned_cons_of_ok hopen, scanned_append_of_ok (scan_comment s htext),
        scanned_comment rfl fun c hc => h.head_comment hc]
      rfl
  | lineBreak =>
      cases ht
      cases h.fits
      exact scanned_cons_of_ok rfl
  | blanks =>
      cases ht
      exact scanned_append_of_ok (scan_blanks rfl h.fits.2)

/-- What it makes of one that is an error. -/
theorem scanned_of_error (h : Longest p lexeme rest) (ht : p.token? line lexeme = .error e)
    (found : List Placed) :
    (Scanner.mk line .between found).scanned (lexeme ++ rest) = .error e := by
  let s : Scanner := ⟨line, .between, found⟩
  cases p with
  | quoted =>
      rcases h.fits with ⟨body, hbody, rfl⟩
      rw [Pattern.token?_quoted] at ht
      cases hw : Text.unescape body with
      | some w =>
          rw [hw] at ht
          cases ht
      | none =>
          rw [hw] at ht
          cases ht
          -- The escape is found to be wrong at the closing quote.
          have hclose : (s.enter (.quoted body.reverse)).step '"' =
              .error (.unreadable (String.ofList (Text.enclose body)) line) := by
            simp only [step, enter, close, List.reverse_reverse, hw]
            rfl
          rw [scanned_enclose (s := s) rfl hbody, scanned_cons_of_error hclose]
  | unterminated =>
      cases ht
      rcases h.fits with ⟨body, hbody, rfl⟩
      rw [List.cons_append, scanned_opened (s := s) rfl hbody]
      exact scanned_unterminated h hbody s _
  | _ => cases ht

/-- A character at which no pattern matches is an error. -/
theorem begin_refused (h : ∀ (p : Pattern) (lexeme : List Char), p.Matches lexeme →
    ¬lexeme <+: c :: cs) (s : Scanner) :
    s.begin c = .error (.unreadable (String.singleton c) s.line) := by
  have hone : ∀ p : Pattern, ¬p.Matches [c] := fun p hp => h p [c] hp ⟨cs, rfl⟩
  -- Each case of the scanner would make a lexeme of this character alone.
  unfold begin
  split
  · exact absurd ⟨rfl, rfl⟩ (hone (.mark .openParen))
  · exact absurd ⟨rfl, rfl⟩ (hone (.mark .closeParen))
  · exact absurd ⟨rfl, rfl⟩ (hone (.mark .openBracket))
  · exact absurd ⟨rfl, rfl⟩ (hone (.mark .closeBracket))
  · exact absurd ⟨rfl, rfl⟩ (hone (.mark .nil))
  · exact absurd ⟨[], nofun, rfl⟩ (hone .comment)
  · exact absurd ⟨[], .nil, rfl⟩ (hone .unterminated)
  · exact absurd rfl (hone .lineBreak)
  · have hlayout : isLayout c = false := by
      refine Bool.eq_false_iff.mpr fun hc => hone .blanks ⟨nofun, fun d hd => ?_⟩
      cases List.mem_singleton.mp hd
      exact hc
    have hatom : Text.isAtomChar c = false := by
      refine Bool.eq_false_iff.mpr fun hc => hone .atom ?_
      simp [Pattern.Matches, Text.isBare, hc]
    rw [if_neg (Bool.eq_false_iff.mp hlayout), if_neg (Bool.eq_false_iff.mp hatom)]

/-- The scanner finds what the patterns say, behind what it has found before. -/
theorem Lexed.scanned (h : Lexed line cs r) (found : List Placed) :
    (Scanner.mk line .between found).scanned cs = r.map (found.reverse ++ ·) := by
  induction h generalizing found with
  | done line => exact congrArg Except.ok (List.append_nil _).symm
  | refused hnone => exact scanned_cons_of_error (begin_refused hnone _)
  | fails hlongest he => exact scanned_of_error hlongest he found
  | @goesOn line p lexeme rest t? r hlongest ht _ ih =>
      rw [scanned_of_ok hlongest ht, ih]
      -- The token of this lexeme stands in front of those of the rest.
      cases r with
      | error e => rfl
      | ok ps => cases t? <;> simp [Except.map]

/-- Of the parts at the beginning of a text that some pattern matches, if there are any, one is
    the longest. -/
theorem exists_longest (h : ∃ (p : Pattern) (lexeme : List Char), p.Matches lexeme ∧
    lexeme <+: cs) : ∃ p lexeme rest, lexeme ++ rest = cs ∧ Longest p lexeme rest := by
  classical
  let matched : Nat → Prop := fun n => ∃ (p : Pattern) (lexeme : List Char), p.Matches lexeme ∧
    lexeme <+: cs ∧ lexeme.length = n
  rcases h with ⟨p₀, lexeme₀, hp₀, hprefix₀⟩
  have hgreatest : matched (Nat.findGreatest matched cs.length) :=
    Nat.findGreatest_spec hprefix₀.length_le ⟨p₀, lexeme₀, hp₀, hprefix₀, rfl⟩
  rcases hgreatest with ⟨p, lexeme, hp, ⟨rest, hrest⟩, hlength⟩
  refine ⟨p, lexeme, rest, hrest, hp, fun q other hq hother => ?_⟩
  rw [hrest] at hother
  rw [hlength]
  exact Nat.le_findGreatest hother.length_le ⟨q, other, hq, hother, rfl⟩

/-- Every text comes to something. -/
theorem exists_lexed (line : Nat) (cs : List Char) : ∃ r, Lexed line cs r := by
  -- Something is matched at each place, so that less is left behind it.
  induction hn : cs.length using Nat.strongRecOn generalizing line cs with
  | ind n ih =>
      cases cs with
      | nil => exact ⟨_, .done line⟩
      | cons c cs =>
          by_cases h : ∃ (p : Pattern) (lexeme : List Char), p.Matches lexeme ∧ lexeme <+: c :: cs
          · rcases exists_longest h with ⟨p, lexeme, rest, hparts, hlongest⟩
            have hpos := List.length_pos_iff.mpr hlongest.fits.ne_nil
            rw [← hparts] at hn ⊢
            rw [List.length_append] at hn
            cases ht : p.token? line lexeme with
            | error e => exact ⟨_, .fails hlongest ht⟩
            | ok t? =>
                rcases ih rest.length (by omega) (line + p.lines) rest rfl with ⟨r, hr⟩
                exact ⟨_, .goesOn hlongest ht hr⟩
          · exact ⟨_, .refused fun p lexeme hp hprefix => h ⟨p, lexeme, hp, hprefix⟩⟩

/-- The tokens of a text, or the error in it, are those that its longest matches come to, and
    these come to nothing else. -/
theorem tokens_eq_iff {source : String} : tokens source = r ↔ Lexed 1 source.toList r := by
  have hfound : ∀ {r}, Lexed 1 source.toList r → tokens source = r := by
    intro r hr
    have hscan : tokens source = r.map ([] ++ ·) := hr.scanned []
    cases r <;> exact hscan
  refine ⟨?_, hfound⟩
  rintro rfl
  rcases exists_lexed 1 source.toList with ⟨r, hr⟩
  rwa [hfound hr]

end TreeScript
