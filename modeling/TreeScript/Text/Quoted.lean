import TreeScript.Text.Blank

/-!
# Quoted and Bare Words

How tree text writes a word. A word that is one atom stands bare; every other
word stands between double quotes, on one line, with five characters written
as a backslash and a letter.

`escape` and `unescape` are the two directions of the quoted form. `unescape`
refuses a backslash before any other letter, so each text has exactly one
escaped form that holds no bare line break and no bare quote.

Which words may stand bare is decided by characters alone, and no word is reserved. So the
quotes around a word never matter for what it says.

## Main definitions

* `isAtomChar`: Whether a character may stand in a bare word.
* `isBare`: Whether a word may stand bare.
* `escape`, `unescape`: The body of the quoted form and its reading.
* `word`: The written form of a word, bare where that is possible.

## Theorems

* `unescape_escape`: Reading the quoted form of a word gives the word back.
-/

namespace TreeScript

namespace Text

/-- Whether a character has a meaning of its own in tree text. -/
def isDelimiter (c : Char) : Bool :=
  c == '(' || c == ')' || c == '[' || c == ']' || c == '~' || c == ';' || c == '"'

/-- Whether a character may stand in a bare word. -/
def isAtomChar (c : Char) : Bool :=
  !isBlank c && !isDelimiter c

/-- Whether a word may stand bare: it is not empty and holds neither blanks nor
    delimiters. -/
def isBare (cs : List Char) : Bool :=
  !cs.isEmpty && cs.all isAtomChar

/-- The letter that stands behind a backslash for this character, if it may not
    stand for itself between quotes. -/
def escapeLetter? : Char → Option Char
  | '"' => some '"'
  | '\\' => some '\\'
  | '\n' => some 'n'
  | '\t' => some 't'
  | '\r' => some 'r'
  | _ => none

/-- The character that a backslash and this letter stand for. -/
def escaped? : Char → Option Char
  | '"' => some '"'
  | '\\' => some '\\'
  | 'n' => some '\n'
  | 't' => some '\t'
  | 'r' => some '\r'
  | _ => none

/-- The body of the quoted form of a word. -/
def escape : List Char → List Char
  | [] => []
  | c :: cs => match escapeLetter? c with
    | some l => '\\' :: l :: escape cs
    | none => c :: escape cs

/-- The word that the body of a quoted form stands for, or `none` if a backslash
    stands before a letter that it has no meaning with. -/
def unescape : List Char → Option (List Char)
  | [] => some []
  | ['\\'] => none
  | '\\' :: l :: cs => do
      let c ← escaped? l
      let rest ← unescape cs
      pure (c :: rest)
  | c :: cs => (unescape cs).map (c :: ·)

/-- A text between double quotes. -/
def enclose (body : List Char) : List Char :=
  '"' :: (body ++ ['"'])

/-- The written form of a word: bare if it is an atom, quoted otherwise. -/
def word (cs : List Char) : List Char :=
  if isBare cs then cs else enclose (escape cs)

theorem escaped?_of_escapeLetter? {c l : Char} (h : escapeLetter? c = some l) :
    escaped? l = some c := by
  unfold escapeLetter? at h
  split at h <;> simp_all <;> subst h <;> rfl

theorem ne_backslash_of_escapeLetter? {c : Char} (h : escapeLetter? c = none) : c ≠ '\\' := by
  intro e
  subst e
  exact absurd h (by decide)

/-- Reading the quoted form of a word gives the word back. -/
@[simp]
theorem unescape_escape (cs : List Char) : unescape (escape cs) = some cs := by
  induction cs with
  | nil => rfl
  | cons c cs ih =>
    unfold escape
    split
    · rename_i l hl
      simp [unescape, escaped?_of_escapeLetter? hl, ih]
    · rename_i hc
      have hne := ne_backslash_of_escapeLetter? hc
      rw [unescape.eq_def]
      split <;> simp_all

end Text

end TreeScript
