import TreeScript.ReadError
import TreeScript.Text.Quoted

/-!
# Scanning

The tokens of a text. The scanner reads one character at a time and keeps
three things: the line it is on, what it is in the middle of, and the tokens
found so far. Scanning a text is folding the step over its characters, so the
scan of a concatenation continues the scan of its first part.

A bare word ends before the first character that cannot stand in it. A quoted
word is read whole before its escapes are resolved, so a bad escape condemns
the word and not the place of the escape. Blanks separate tokens, but only the
space, the tab, the form feed and the two line-break characters are layout; any
other blank between tokens is an error.

## Main definitions

* `Scanner`: What the scanner knows between two characters.
* `Scanner.step`: Reading one character.
* `Scanner.finish`: The end of the text.
* `tokens`: The tokens of a text, each with its line.
-/

namespace TreeScript

/-- What a scanner is in the middle of. Characters read are kept latest
    first. -/
inductive Scanner.Mode where
  /-- Between tokens. -/
  | between
  /-- In a comment, which runs to the end of the line. -/
  | comment
  /-- In a bare word. -/
  | atom (read : List Char)
  /-- Between the quotes of a quoted word. -/
  | quoted (read : List Char)
  /-- Behind a backslash in a quoted word. -/
  | escape (read : List Char)
  deriving DecidableEq, Inhabited

/-- What a scanner knows between two characters. -/
structure Scanner where
  /-- The number of the line being read. -/
  line : Nat
  /-- What the scanner is in the middle of. -/
  mode : Scanner.Mode
  /-- The tokens found so far, latest first. -/
  found : List Placed
  deriving DecidableEq, Inhabited

namespace Scanner

/-- The scanner before the first character of a text. -/
def start : Scanner := ⟨1, .between, []⟩

/-- The scanner with one more token, between tokens again. -/
def emit (s : Scanner) (t : Token) : Scanner :=
  { s with mode := .between, found := ⟨t, s.line⟩ :: s.found }

/-- The scanner in another mode. -/
def enter (s : Scanner) (m : Mode) : Scanner :=
  { s with mode := m }

/-- The scanner at the beginning of the next line. -/
def nextLine (s : Scanner) : Scanner :=
  { s with line := s.line + 1, mode := .between }

/-- Whether a character other than a line feed is mere layout between
    tokens. -/
def isLayout (c : Char) : Bool :=
  c == ' ' || c == '\t' || c == '\r' || c == Char.ofNat 0x0C

/-- Reads a character that no token is open at. -/
def begin (s : Scanner) (c : Char) : Except ReadError Scanner :=
  match c with
  | '(' => .ok (s.emit .openParen)
  | ')' => .ok (s.emit .closeParen)
  | '[' => .ok (s.emit .openBracket)
  | ']' => .ok (s.emit .closeBracket)
  | '~' => .ok (s.emit .nil)
  | ';' => .ok (s.enter .comment)
  | '"' => .ok (s.enter (.quoted []))
  | '\n' => .ok s.nextLine
  | c =>
    if isLayout c then .ok (s.enter .between)
    else if Text.isAtomChar c then .ok (s.enter (.atom [c]))
    else .error (.unreadable (String.singleton c) s.line)

/-- Closes a quoted word whose body has been read. -/
def close (s : Scanner) (read : List Char) : Except ReadError Scanner :=
  match Text.unescape read.reverse with
  | some w => .ok (s.emit (.quoted (String.ofList w)))
  | none => .error (.unreadable (String.ofList (Text.enclose read.reverse)) s.line)

/-- Reads one character. -/
def step (s : Scanner) (c : Char) : Except ReadError Scanner :=
  match s.mode with
  | .between => s.begin c
  | .comment => .ok (if c = '\n' then s.nextLine else s)
  | .atom read =>
    if Text.isAtomChar c then .ok (s.enter (.atom (c :: read)))
    -- A bare word ends at the first character that is not part of one, which begins what comes
    -- next.
    else (s.emit (.atom (String.ofList read.reverse))).begin c
  | .quoted read => match c with
    | '\n' => .error (.unterminated s.line)
    | '"' => s.close read
    -- Escapes are kept as they are and resolved when the word is closed.
    | '\\' => .ok (s.enter (.escape read))
    | c => .ok (s.enter (.quoted (c :: read)))
  | .escape read =>
    if c = '\n' then .error (.unterminated s.line)
    else .ok (s.enter (.quoted (c :: '\\' :: read)))

/-- The tokens found, once the text has ended. -/
def finish (s : Scanner) : Except ReadError (List Placed) :=
  match s.mode with
  | .between => .ok s.found.reverse
  | .comment => .ok s.found.reverse
  | .atom read => .ok (s.emit (.atom (String.ofList read.reverse))).found.reverse
  | .quoted _ => .error (.unterminated s.line)
  | .escape _ => .error (.unterminated s.line)

end Scanner

/-- The tokens of a text, each with the line it stands on. -/
def tokens (source : String) : Except ReadError (List Placed) := do
  let s ← source.toList.foldlM Scanner.step Scanner.start
  s.finish

end TreeScript
