import TreeScript.Proofs.Scanning
import TreeScript.Proofs.Verdict
import TreeScript.Tree.Print

/-!
# Printing and Reading Back

The text of a tree is read back as that tree. The proof goes through the tokens:
`Operand.tokens` are the ones that the printer means to write, with every word
bare or quoted as it needs to be. The scanner finds them in the text, all on the
first line, and the reader makes the tree of them.

The printer decides between bare and quoted words by looking at the characters,
the scanner by the character that a word begins with. The two agree because a
bare word is not empty and holds nothing that ends it.

A tree that is nested deeper than the reader allows is refused at the first
bracket beyond the bound, so for every tree the answer is known exactly.

Operands and rows of operands are printed by mutual recursion, so what is said of one is
said of the other in the same proof. A row is printed with a space between two pieces and
none at its ends, and `scans_spaced` follows that: it takes a piece that is scanned
already, be it a tag or an operand, and adds the operands behind it.

Nothing is unfolded of the scanner here. That a spelled token is scanned as itself, and
that pieces which are set apart do not run into each other, are lemmas of the scanner.

## Main definitions

* `Operand.tokens`: The tokens that an operand is written with.

## Theorems

* `scans_written`: The characters of an operand are scanned as its tokens.
* `newline_not_mem_written`: An operand is written on one line.
* `readTree_text`: What reading the text of a tree gives.
* `Operand.plain_tokens`: The tokens of an operand spell it.
* `scans_word`, `scans_spaced`: A word, and a row of operands behind a piece.
* `readTree_text_eq`: What reading the text gives, by the nesting of the tree.
-/

namespace TreeScript

open Operand

/-- The token that a word is written as. -/
def Token.ofWord (w : String) : Token :=
  if Text.isBare w.toList then .atom w else .quoted w

theorem Token.spelled_ofWord (w : String) : (Token.ofWord w).spelled = Text.word w.toList := by
  unfold Token.ofWord Text.word
  split <;> rfl

theorem Token.spellable_ofWord (w : String) : (Token.ofWord w).Spellable := by
  unfold Token.ofWord
  split
  · assumption
  · trivial

theorem Token.plain_ofWord (w : String) : (Token.ofWord w).plain = .atom w := by
  unfold Token.ofWord
  split <;> rfl

namespace Operand

mutual

/-- The tokens that an operand is written with. -/
def tokens : Operand → List Token
  | .tree tag os => .openParen :: (.ofWord tag :: tokensEach os ++ [.closeParen])
  | .token w => [.ofWord w]
  | .seq os => .openBracket :: (tokensEach os ++ [.closeBracket])
  | .nil => [.nil]

/-- The tokens of operands that stand in a row. -/
def tokensEach : List Operand → List Token
  | [] => []
  | o :: os => o.tokens ++ tokensEach os

end

mutual

/-- The tokens written for an operand spell it. -/
theorem plain_tokens (o : Operand) : o.tokens.map Token.plain = o.flat := by
  cases o with
  | tree tag os =>
      simp only [tokens, flat, List.cons_append, List.map_cons, List.map_append, List.map_nil,
        plain_tokensEach os, Token.plain_ofWord]
      rfl
  | token w => simp only [tokens, flat, List.map_cons, List.map_nil, Token.plain_ofWord]
  | seq os =>
      simp only [tokens, flat, List.map_cons, List.map_append, List.map_nil, plain_tokensEach os]
      rfl
  | nil => rfl

theorem plain_tokensEach (os : List Operand) :
    (tokensEach os).map Token.plain = flatEach os := by
  cases os with
  | nil => rfl
  | cons o os => rw [tokensEach, List.map_append, plain_tokens o, plain_tokensEach os, flatEach]

end

end Operand

theorem spaced_cons_cons (p q : List Char) (pieces : List (List Char)) :
    spaced (p :: q :: pieces) = p ++ ' ' :: spaced (q :: pieces) := by
  simp [spaced, List.intercalate]

theorem spaced_singleton (p : List Char) : spaced [p] = p := by
  simp [spaced, List.intercalate]

theorem scans_word (w : String) : Scans (Text.word w.toList) [.ofWord w] := by
  rw [← Token.spelled_ofWord]
  exact Scans.token (Token.spellable_ofWord w)

mutual

/-- The characters of an operand are scanned as its tokens. -/
theorem scans_written (o : Operand) : Scans o.written o.tokens := by
  cases o with
  | tree tag os =>
      -- Brackets may touch their neighbours; between pieces stands a space.
      have hbody := scans_spaced (scans_word tag) os
      exact Scans.mark_append (t := .openParen) rfl (hbody.append_mark (t := .closeParen) rfl)
  | token w => exact scans_word w
  | seq os =>
      have hbody := scans_writtenEach os
      exact Scans.mark_append (t := .openBracket) rfl (hbody.append_mark (t := .closeBracket) rfl)
  | nil => exact Scans.token (t := .nil) trivial

/-- Operands behind a piece of text, each with a space before it. -/
theorem scans_spaced {cs : List Char} {ts : List Token} (h : Scans cs ts) (os : List Operand) :
    Scans (spaced (cs :: writtenEach os)) (ts ++ tokensEach os) := by
  cases os with
  | nil =>
      rw [writtenEach, tokensEach, spaced_singleton, List.append_nil]
      exact h
  | cons o os =>
      rw [writtenEach, spaced_cons_cons]
      exact h.append_space (scans_spaced (scans_written o) os)

/-- Operands set apart by one blank are scanned one by one. -/
theorem scans_writtenEach (os : List Operand) :
    Scans (spaced (writtenEach os)) (tokensEach os) := by
  cases os with
  | nil => exact Scans.nil
  | cons o os => exact scans_spaced (scans_written o) os

end

/-- A word is written on one line, since a line break in it is escaped. -/
theorem newline_not_mem_word (w : List Char) : '\n' ∉ Text.word w := by
  unfold Text.word
  split
  · rename_i hbare
    exact Scanner.newline_not_mem_bare hbare
  · simpa [Text.enclose] using Scanner.newline_not_mem_escape w

mutual

/-- An operand is written on one line. -/
theorem newline_not_mem_written (o : Operand) : '\n' ∉ o.written := by
  cases o with
  | tree tag os =>
      simpa [written] using newline_not_mem_spaced (newline_not_mem_word tag.toList) os
  | token w => exact newline_not_mem_word w.toList
  | seq os =>
      simpa [written] using newline_not_mem_writtenEach os
  | nil => decide

theorem newline_not_mem_spaced {cs : List Char} (h : '\n' ∉ cs) (os : List Operand) :
    '\n' ∉ spaced (cs :: writtenEach os) := by
  cases os with
  | nil => rwa [writtenEach, spaced_singleton]
  | cons o os =>
      rw [writtenEach, spaced_cons_cons]
      simpa [h] using newline_not_mem_spaced (newline_not_mem_written o) os

theorem newline_not_mem_writtenEach (os : List Operand) : '\n' ∉ spaced (writtenEach os) := by
  cases os with
  | nil => simp [writtenEach, spaced, List.intercalate]
  | cons o os => exact newline_not_mem_spaced (newline_not_mem_written o) os

end

/-- Reading the text of a tree gives the tree, or the first bracket beyond the
    bound on nesting. -/
theorem readTree_text_eq (t : Tree) :
    readTree t.text =
      if t.nesting ≤ maxNesting then .ok t else .error (.tooDeep maxNesting 1) := by
  have hflat : (onLine 1 t.toOperand.tokens).map (·.token.plain) = t.flat := by
    rw [map_token_plain, onLine_tokens, plain_tokens]
    rfl
  have hread := read_tree follows_stepOnly t hflat
  have hscan : TreeScript.tokens t.text = .ok (onLine 1 t.toOperand.tokens) :=
    tokens_of_scans (scans_written t.toOperand)
  rw [readTree_of_tokens hscan]
  by_cases hle : t.nesting ≤ maxNesting
  · rw [if_pos hle]
    exact treeOf_of_ok (hread.accepts hle)
  · -- Whichever bracket is refused, it stands on the first line.
    rcases hread.refuses hle with ⟨p, hp, he⟩
    rcases List.mem_map.mp hp with ⟨k, _, rfl⟩
    rw [if_neg hle]
    exact treeOf_of_error he

/-- The text of a tree stands on one line, and reading it gives the tree back, or
    the bracket that is one too many if the tree is nested too deeply. So trees
    that may be read have different texts, and whatever has been read can be
    written and read again. -/
theorem readTree_text :
    (∀ t : Tree, '\n' ∉ t.text.toList ∧
      readTree t.text =
        if t.nesting ≤ maxNesting then .ok t else .error (.tooDeep maxNesting 1)) ∧
    (∀ t u : Tree, t.nesting ≤ maxNesting → u.nesting ≤ maxNesting → t.text = u.text → t = u) ∧
    (∀ source t, readTree source = .ok t → readTree t.text = .ok t) ∧
    (∀ source trees, readTrees source = .ok trees → ∀ t ∈ trees, readTree t.text = .ok t) := by
  have hback : ∀ t : Tree, t.nesting ≤ maxNesting → readTree t.text = .ok t := by
    intro t ht
    rw [readTree_text_eq, if_pos ht]
  refine ⟨fun t => ⟨?_, readTree_text_eq t⟩, fun t u ht hu htext => ?_, fun source t h => ?_,
    fun source trees h t ht => ?_⟩
  · rw [Tree.text, String.toList_ofList]
    exact newline_not_mem_written t.toOperand
  · -- One text is read in one way only.
    have hread := hback t ht
    rw [htext, hback u hu] at hread
    exact (Except.ok.inj hread).symm
  · exact hback t (nesting_le_of_readTree h)
  · exact hback t (nesting_le_of_readTrees h t ht)

/-- A tree whose tag and words have to be quoted, as it is read and as it is
    written. -/
theorem readTree_text_quoted :
    readTree "(\"\" [\"a b\" ~]\n \"\\\"\\n\" \"c\")" =
      .ok ⟨"", [.seq [.token "a b", .nil], .token "\"\n", .token "c"]⟩ ∧
    readTree (Tree.text ⟨"", [.seq [.token "a b", .nil], .token "\"\n", .token "c"]⟩) =
      .ok ⟨"", [.seq [.token "a b", .nil], .token "\"\n", .token "c"]⟩ :=
  ⟨rfl, readTree_text.2.2.1 "(\"\" [\"a b\" ~]\n \"\\\"\\n\" \"c\")" _ rfl⟩

end TreeScript
