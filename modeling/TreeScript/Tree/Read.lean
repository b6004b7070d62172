import TreeScript.Token.Scan
import TreeScript.Tree.Basic

/-!
# Reading Trees

The trees of a text. The reader takes one token at a time; between two tokens
it keeps the trees already complete and the brackets still open. Reading is
folding the step over the tokens, so a text is refused at the first token that
no continuation could mend.

An open bracket holds what has been read inside it. The outermost open bracket
always belongs to a tree; this is built into the type `Open`, so closing a
bracket always has somewhere to put the result.

## Main definitions

* `Open`: The innermost open bracket, with those around it.
* `Reader`: What the reader knows between two tokens.
* `Reader.step`: Reading one token.
* `readTrees`: All trees of a text.
* `readTree`: The only tree of a text.
-/

namespace TreeScript

/-- How many brackets may be open at once. -/
def maxNesting : Nat := 256

/-- The innermost open bracket and those around it. Operands that have been
    read are kept latest first. -/
inductive Open where
  /-- A tree that stands in no other. -/
  | root (tag : String) (read : List Operand)
  /-- A tree inside another bracket. -/
  | tree (tag : String) (read : List Operand) (outer : Open)
  /-- A sequence inside another bracket. -/
  | seq (read : List Operand) (outer : Open)

namespace Open

/-- The number of open brackets. -/
def depth : Open → Nat
  | .root _ _ => 1
  | .tree _ _ outer => outer.depth + 1
  | .seq _ outer => outer.depth + 1

/-- The same brackets with one more operand in the innermost. -/
def push (o : Operand) : Open → Open
  | .root tag read => .root tag (o :: read)
  | .tree tag read outer => .tree tag (o :: read) outer
  | .seq read outer => .seq (o :: read) outer

end Open

/-- What a reader knows between two tokens. Complete trees are kept latest
    first. -/
inductive Reader where
  /-- No bracket is open. -/
  | outside (trees : List Tree)
  /-- A tree has just been opened, inside the given brackets if there are
      any. -/
  | tagWanted (trees : List Tree) (outer : Option Open)
  /-- Brackets are open. -/
  | inside (trees : List Tree) (here : Open)

namespace Reader

/-- Reads a token that no bracket is open at. -/
def stepOutside (trees : List Tree) (p : Placed) : Except ReadError Reader :=
  match p.token with
  | .openParen => .ok (.tagWanted trees none)
  | t => .error (.unexpected t p.line)

/-- Reads the token behind the bracket that opens a tree. -/
def stepTag (trees : List Tree) (outer : Option Open) (p : Placed) : Except ReadError Reader :=
  match p.token.word? with
  | none => .error (.tagExpected p.token p.line)
  | some tag => match outer with
    | none => .ok (.inside trees (.root tag []))
    | some o => .ok (.inside trees (.tree tag [] o))

/-- Reads the bracket that closes a tree. -/
def closeTree (trees : List Tree) (here : Open) (line : Nat) : Except ReadError Reader :=
  match here with
  | .root tag read => .ok (.outside (⟨tag, read.reverse⟩ :: trees))
  | .tree tag read outer => .ok (.inside trees (outer.push (.tree tag read.reverse)))
  | .seq _ _ => .error (.unexpected .closeParen line)

/-- Reads the bracket that closes a sequence. -/
def closeSeq (trees : List Tree) (here : Open) (line : Nat) : Except ReadError Reader :=
  match here with
  | .seq read outer => .ok (.inside trees (outer.push (.seq read.reverse)))
  | .root _ _ => .error (.unexpected .closeBracket line)
  | .tree _ _ _ => .error (.unexpected .closeBracket line)

/-- Reads a token inside brackets. -/
def stepInside (trees : List Tree) (here : Open) (p : Placed) : Except ReadError Reader :=
  match p.token with
  | .openParen =>
    -- The bracket that would be one too many is refused itself, on its own line.
    if here.depth < maxNesting then .ok (.tagWanted trees (some here))
    else .error (.tooDeep maxNesting p.line)
  | .openBracket =>
    if here.depth < maxNesting then .ok (.inside trees (.seq [] here))
    else .error (.tooDeep maxNesting p.line)
  | .closeParen => closeTree trees here p.line
  | .closeBracket => closeSeq trees here p.line
  | .nil => .ok (.inside trees (here.push .nil))
  | .quoted w => .ok (.inside trees (here.push (.token w)))
  | .atom w => .ok (.inside trees (here.push (.token w)))

/-- Reads one token of a text that may hold any number of trees. -/
def step (r : Reader) (p : Placed) : Except ReadError Reader :=
  match r with
  | .outside trees => stepOutside trees p
  | .tagWanted trees outer => stepTag trees outer p
  | .inside trees here => stepInside trees here p

/-- Reads one token of a text that must hold one tree: nothing may stand behind
    it. -/
def stepOnly (r : Reader) (p : Placed) : Except ReadError Reader :=
  match r with
  -- This comes before the token is looked at, so it is the same error for every token.
  | .outside (_ :: _) => .error (.trailing p.token p.line)
  | r => r.step p

end Reader

/-- The line on which the tokens end, the first line if there are none. -/
def endLine (ps : List Placed) : Nat :=
  (ps.getLast?.map Placed.line).getD 1

/-- All trees that the tokens spell, in order. -/
def treesOf (ps : List Placed) : Except ReadError (List Tree) := do
  match ← ps.foldlM Reader.step (.outside []) with
  | .outside trees => .ok trees.reverse
  | _ => .error (.unexpectedEnd (endLine ps))

/-- The one tree that the tokens spell. -/
def treeOf (ps : List Placed) : Except ReadError Tree := do
  match ← ps.foldlM Reader.stepOnly (.outside []) with
  | .outside [t] => .ok t
  | _ => .error (.unexpectedEnd (endLine ps))

/-- All trees of a text, in order. -/
def readTrees (source : String) : Except ReadError (List Tree) := do
  treesOf (← tokens source)

/-- The only tree of a text. -/
def readTree (source : String) : Except ReadError Tree := do
  treeOf (← tokens source)

end TreeScript
