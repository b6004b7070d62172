import TreeScript.Proofs.Consumption
import TreeScript.Proofs.RoundTrip
import TreeScript.Proofs.Splitting

/-!
# The Lines of a Session

What a session makes of the lines that a user writes for it: trees, each on one line, and
lines that are left blank. Reading a line takes just this line, since the text of a tree
holds no line break and no other character has the byte of one in its encoding; decoding
its bytes gives the text back, and reading the text gives the tree back. Only the last line
may lack its line break.

The same text is a program, whose trees are those of the lines in order.

A line is written by its user as characters and read by the session as bytes, so the two
have to be kept apart. All that is needed of the encoding is `lineFeed_mem_encoded`: bytes
below 128 are characters of their own, and every other character is encoded with bytes
from 128 on. A line break in the bytes is then a line break in the text, and the text has
none.

A blank line is not an empty one, as it may hold spaces. What a session skips for being blank,
the scanner of a program skips too.

## Main definitions

* `SessionLine`, `SessionLine.text`: A line with a tree, and a blank one.
* `textOf`, `treesIn`: The text of some lines, and the trees on them.
* `encoded`: The bytes of a text.

## Theorems

* `lineFeed_mem_encoded`: Only a line break is encoded with the byte that ends a line.
* `readLine_closed`, `readLine_last`: The first line of some, and the last one.
* `respond_line`: How a session answers a line.
* `readTrees_textOf`: The trees of the whole text.
* `decode?_encoded`: The bytes of a text are decoded to it.
* `newline_not_mem_line`: A line has no line break inside.
* `readTrees_spaces`, `readTrees_line`: What one line has for a part in the trees of a text.
-/

namespace TreeScript

/-- A line that is written for a session: a tree, or so many spaces. -/
inductive SessionLine where
  | tree (t : Tree)
  | blank (spaces : Nat)
  deriving DecidableEq, Inhabited

namespace SessionLine

/-- The text of a line, without the line break behind it. -/
def text : SessionLine → String
  | .tree t => t.text
  | .blank spaces => String.ofList (List.replicate spaces ' ')

/-- The tree on a line. -/
def tree? : SessionLine → Option Tree
  | .tree t => some t
  | .blank _ => none

end SessionLine

/-- The text of some lines, and of a last one without a line break if there is one. -/
def textOf (last? : Option SessionLine) : List SessionLine → String
  | [] => (last?.map SessionLine.text).getD ""
  | line :: lines => line.text ++ "\n" ++ textOf last? lines

/-- The trees on some lines. -/
def treesIn (lines : List SessionLine) : List Tree := lines.filterMap SessionLine.tree?

/-- The bytes that a text is encoded with. -/
def encoded (s : String) : List UInt8 := s.toUTF8.data.toList

variable {line : SessionLine} {s : String} {bytes rest : List UInt8} {store : Store} {heap : Heap}
  {output : Output} {depth : Nat} {limits : Limits}

theorem encoded_append (s s' : String) : encoded (s ++ s') = encoded s ++ encoded s' := by
  simp [encoded]

theorem encoded_eq_flatMap (s : String) :
    encoded s = s.toList.flatMap String.utf8EncodeChar := by
  rw [encoded, String.toUTF8_eq_toByteArray, ← String.utf8Encode_toList, List.utf8Encode,
    List.data_toByteArray]

/-- The bytes of a character that takes more than one are not those of characters that
    take one. -/
theorem high_of_mem {c : Char} {b : UInt8} (hc : 127 < c.val.toNat)
    (h : b ∈ String.utf8EncodeChar c) : 128 ≤ b.toNat := by
  have hhigh : ∀ n, 128 ≤ n → n < 256 → 128 ≤ (UInt8.ofNat n).toNat := by
    intro n hle hlt
    rw [UInt8.toNat_ofNat']
    omega
  unfold String.utf8EncodeChar at h
  dsimp only at h
  rw [if_neg (by omega)] at h
  -- Two, three or four bytes, and each of them has its high bit set.
  split at h
  · simp only [List.mem_cons, List.not_mem_nil, or_false] at h
    rcases h with rfl | rfl <;> exact hhigh _ (by omega) (by omega)
  · split at h
    · simp only [List.mem_cons, List.not_mem_nil, or_false] at h
      rcases h with rfl | rfl | rfl <;> exact hhigh _ (by omega) (by omega)
    · simp only [List.mem_cons, List.not_mem_nil, or_false] at h
      rcases h with rfl | rfl | rfl | rfl <;> exact hhigh _ (by omega) (by omega)

/-- The byte of a line feed stands in no other character's encoding, so lines can be cut in the
    bytes. -/
theorem eq_newline_of_mem {c : Char} (h : lineFeed ∈ String.utf8EncodeChar c) : c = '\n' := by
  by_cases hc : 127 < c.val.toNat
  · exact absurd (high_of_mem hc h) (by decide)
  · have hone : String.utf8EncodeChar c = [UInt8.ofNat c.val.toNat] := if_pos (by omega)
    rw [hone, List.mem_singleton] at h
    have hbyte : lineFeed.toNat = c.val.toNat % 2 ^ 8 := h ▸ UInt8.toNat_ofNat'
    have hten : lineFeed.toNat = 10 := rfl
    exact Char.ext (UInt32.toNat_inj.mp (show c.val.toNat = 10 by omega))

/-- Only a line break is encoded with the byte that ends a line. -/
theorem lineFeed_mem_encoded (h : lineFeed ∈ encoded s) : '\n' ∈ s.toList := by
  rw [encoded_eq_flatMap] at h
  rcases List.mem_flatMap.mp h with ⟨c, hc, hmem⟩
  rwa [eq_newline_of_mem hmem] at hc

/-- Decoding gives a text back. -/
theorem decode?_encoded (s : String) : decode? (encoded s) = some s := by
  unfold decode? encoded String.fromUTF8?
  rw [Array.toArray_toList]
  exact dif_pos s.isValidUTF8

theorem eq_empty_of_encoded (h : encoded s = []) : s = "" := by
  have hdecode := decode?_encoded s
  rw [h] at hdecode
  exact Option.some.inj (hdecode.symm.trans (decode?_encoded ""))

theorem takeLine_of_not_mem (h : lineFeed ∉ bytes) : takeLine bytes = (bytes, []) := by
  induction bytes with
  | nil => rfl
  | cons b bytes ih =>
      have hb : b ≠ lineFeed := fun he => h (he ▸ List.mem_cons_self)
      rw [takeLine, if_neg hb, ih fun hmem => h (List.mem_cons_of_mem b hmem)]

theorem readLine_of_takeLine (hne : s ≠ "") (h : takeLine bytes = (encoded s, rest)) :
    readLine ⟨store, heap, bytes, output, depth⟩ =
      .ok (some s) ⟨store, heap, rest, output, depth⟩ := by
  have hdecode := decode?_encoded s
  cases hs : encoded s with
  | nil => exact absurd (eq_empty_of_encoded hs) hne
  | cons b bs =>
      rw [hs] at h hdecode
      simp only [readLine, h, hdecode]

/-- A line with a line break is read as it is, and what is behind it is left. -/
theorem readLine_closed (hs : '\n' ∉ s.toList) :
    readLine ⟨store, heap, encoded (s ++ "\n") ++ rest, output, depth⟩ =
      .ok (some (s ++ "\n")) ⟨store, heap, rest, output, depth⟩ := by
  refine readLine_of_takeLine (by simp) ?_
  have hbreak : encoded "\n" = [lineFeed] := rfl
  rw [encoded_append, hbreak, List.append_assoc]
  exact takeLine_of_lineFeed (fun h => hs (lineFeed_mem_encoded h)) rest

/-- The last line may have none. -/
theorem readLine_last (hs : '\n' ∉ s.toList) (hne : s ≠ "") :
    readLine ⟨store, heap, encoded s, output, depth⟩ =
      .ok (some s) ⟨store, heap, [], output, depth⟩ :=
  readLine_of_takeLine hne (takeLine_of_not_mem fun h => hs (lineFeed_mem_encoded h))

/-- The text of a session line is one line. -/
theorem newline_not_mem_line (line : SessionLine) : '\n' ∉ line.text.toList := by
  cases line with
  | tree t =>
      rw [SessionLine.text, Tree.text, String.toList_ofList]
      exact newline_not_mem_written t.toOperand
  | blank spaces =>
      rw [SessionLine.text, String.toList_ofList, List.mem_replicate]
      exact fun h => absurd h.2 (by decide)

/-- A line as it is read: it ends with a line break unless it is the last one. -/
inductive ReadAs : SessionLine → String → Prop where
  | closed (line : SessionLine) : ReadAs line (line.text ++ "\n")
  | last (line : SessionLine) : ReadAs line line.text

theorem isBlankLine_tree {t : Tree} (h : ReadAs (.tree t) s) : isBlankLine s = false := by
  have hopen : Text.isBlank '(' = false := by decide
  cases h <;> simp [isBlankLine, SessionLine.text, Tree.text, Tree.written, Tree.toOperand,
    Operand.written, hopen]

theorem isBlankLine_blank {spaces : Nat} (h : ReadAs (.blank spaces) s) : isBlankLine s = true := by
  have hspace : Text.isBlank ' ' = true := by decide
  have hbreak : Text.isBlank '\n' = true := by decide
  cases h <;> simp [isBlankLine, SessionLine.text, hspace, hbreak]

theorem readTree_of_readAs {t : Tree} (ht : t.nesting ≤ maxNesting) (h : ReadAs (.tree t) s) :
    readTree s = .ok t := by
  have hback : readTree t.text = .ok t := by rw [readTree_text_eq, if_pos ht]
  cases h with
  | closed => exact (readTree_lineBreak t.text).trans hback
  | last => exact hback

/-- How a session answers a line: not at all, or by evaluating the tree. -/
def SessionLine.answer (limits : Limits) : SessionLine → Action Unit
  | .tree t => evaluateReporting limits t
  | .blank _ => pure ()

/-- What a session answers to a line is the answer to what the line holds. -/
theorem respond_line (hline : ∀ t, line = .tree t → t.nesting ≤ maxNesting)
    (h : ReadAs line s) : respond limits s = line.answer limits := by
  unfold respond
  cases line with
  | tree t =>
      have hread := readTree_of_readAs (hline t rfl) h
      simp only [isBlankLine_tree h, hread, SessionLine.answer]
      rfl
  | blank spaces => rw [if_pos (isBlankLine_blank h), SessionLine.answer]

/-- A program of one line is the row of the tree on it. -/
theorem readTrees_text {t : Tree} (ht : t.nesting ≤ maxNesting) :
    readTrees t.text = .ok [t] := by
  have hback : readTree t.text = .ok t := by rw [readTree_text_eq, if_pos ht]
  rcases exists_of_bind hback with ⟨ps, hps, htree⟩
  rw [readTrees_of_tokens hps, treesOf_eq_ok_iff, spelledRow_singleton_iff]
  exact treeOf_eq_ok_iff.mp htree

theorem scan_spaces (spaces : Nat) :
    (List.replicate spaces ' ').foldlM Scanner.step Scanner.start = .ok Scanner.start := by
  induction spaces with
  | zero => rfl
  | succ n ih => exact ih

theorem readTrees_spaces (spaces : Nat) : readTrees (SessionLine.blank spaces).text = .ok [] := by
  have htokens : tokens (SessionLine.blank spaces).text = .ok [] := by
    rw [tokens, SessionLine.text, String.toList_ofList, scan_spaces]
    rfl
  rw [readTrees_of_tokens htokens]
  rfl

theorem readTrees_line (hline : ∀ t, line = .tree t → t.nesting ≤ maxNesting) :
    readTrees line.text = .ok (treesIn [line]) := by
  cases line with
  | tree t => exact readTrees_text (hline t rfl)
  | blank spaces => exact readTrees_spaces spaces

theorem treesIn_append (lines more : List SessionLine) :
    treesIn (lines ++ more) = treesIn lines ++ treesIn more := List.filterMap_append

/-- The trees of the whole text are those on the lines. -/
theorem readTrees_textOf (last? : Option SessionLine) {lines : List SessionLine}
    (h : ∀ t, .tree t ∈ lines ++ last?.toList → t.nesting ≤ maxNesting) :
    readTrees (textOf last? lines) = .ok (treesIn (lines ++ last?.toList)) := by
  induction lines with
  | nil =>
      cases last? with
      | none => rfl
      | some line => exact readTrees_line fun t ht => h t (List.mem_singleton.mpr ht.symm)
  | cons line lines ih =>
      have hline := readTrees_line fun t ht => h t (ht ▸ List.mem_cons_self)
      have hlines := ih fun t ht => h t (List.mem_cons_of_mem line ht)
      -- Trees of two texts are read from both, with a line break between them.
      have htext := readTrees_append_lineBreak hline hlines
      rwa [← treesIn_append, List.singleton_append] at htext

end TreeScript
