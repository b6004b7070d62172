import Mathlib.Data.List.DropRight
import TreeScript.Eval.InputLine

/-!
# Digit Separators

A line of input is a number if its word is one, the word being what is left without the line
break and without the blanks at both ends. Underscores may stand in the word, each of them
between two digits, and then it is read as if there were none. In any other place an underscore
makes the line a text, and a text is the line as it is, but for the line break: neither its
blanks nor its underscores are touched.

The line break is taken away before the blanks are, and the separators are looked at after
that. What is taken away at the ends of a line does not reach a place between two digits, so a
separator that is put in there, or taken out, is one in the word, and nothing else changes.

`IsBody` and `IsWord` describe the two steps without the functions that take them: a line
is put together of a word, blanks and a line break, and the conditions at the seams say
that no more could have been taken away. Each line has a body and each body a word, and
both are found by the functions, so a statement on any body and any word is one on every
line.

## Main definitions

* `IsBody`, `IsWord`: A line without its line break, and without the blanks around that.
* `SeparatesDigits`: Each underscore stands between two digits.

## Theorems

* `IsBody.lineBody_eq`, `IsWord.trim_eq_word`: What is taken away from a line.
* `wellSeparated_iff`: How separators are checked.
* `inputValue_of_word`: The value of a line with a given word.
* `inputValue_separator`: A separator between two digits does not change a number.
* `separators_are_read_exactly`: Numbers and texts among lines.
* `exists_isBody`, `exists_isWord`: Each line has a body, and each body a word.
* `IsBody.behind`, `trim_between`: Nothing is taken away between two digits.
* `readSeparated?_separator`: Reading a word with one separator more.
-/

namespace TreeScript

variable {line body word p q : List Char} {a b c : Char} {x : Float}

/-- The body of a line is the line without the line break that may end it. -/
inductive IsBody : List Char → List Char → Prop where
  | broken (body : List Char) : IsBody (body ++ ['\r', '\n']) body
  | lineFeed {body : List Char} : body.getLast? ≠ some '\r' → IsBody (body ++ ['\n']) body
  | unbroken {body : List Char} : body.getLast? ≠ some '\n' → IsBody body body

/-- Each line has a body. -/
theorem exists_isBody (line : List Char) : ∃ body, IsBody line body := by
  by_cases hlast : line.getLast? = some '\n'
  · rcases List.getLast?_eq_some_iff.mp hlast with ⟨rest, rfl⟩
    by_cases hreturn : rest.getLast? = some '\r'
    · rcases List.getLast?_eq_some_iff.mp hreturn with ⟨body, rfl⟩
      exact ⟨body, by rw [List.append_assoc]; exact .broken body⟩
    · exact ⟨rest, .lineFeed hreturn⟩
  · exact ⟨line, .unbroken hlast⟩

/-- The body of a line is the only text that can stand before its line ending. -/
theorem IsBody.lineBody_eq (h : IsBody line body) : lineBody line = body := by
  unfold lineBody
  -- The line ends with both characters, with the line feed alone, or with neither.
  cases h with
  | broken => simp
  | lineFeed hlast =>
      rw [← List.head?_reverse] at hlast
      rw [List.reverse_concat]
      split
      · simp_all
      · rename_i hbody
        rw [← (List.cons.inj hbody).2, List.reverse_reverse]
      · simp_all
  | unbroken hlast =>
      rw [← List.head?_reverse] at hlast
      split <;> simp_all

/-- What stands in front of a digit is not touched when the line break is taken away. -/
theorem IsBody.behind (h : IsBody q body) (hc : c.isDigit = true) :
    IsBody (p ++ c :: q) (p ++ c :: body) := by
  have hfeed : c ≠ '\n' := by
    rintro rfl
    cases hc
  have hreturn : c ≠ '\r' := by
    rintro rfl
    cases hc
  have hlast : ∀ d, c ≠ d → ∀ cs : List Char, cs.getLast? ≠ some d →
      (p ++ c :: cs).getLast? ≠ some d := by
    intro d hd cs hcs
    cases cs with
    | nil => simpa using hd
    | cons e cs => simpa [List.getLast?_append, List.getLast?_cons_cons] using hcs
  -- The digit is not part of the line ending, so the ending stays what it was.
  cases h with
  | broken =>
      have hbroken := IsBody.broken (p ++ c :: body)
      rwa [List.append_assoc] at hbroken
  | lineFeed hbody =>
      have hbroken := IsBody.lineFeed (hlast '\r' hreturn body hbody)
      rwa [List.append_assoc] at hbroken
  | unbroken hbody => exact .unbroken (hlast '\n' hfeed body hbody)

/-- The word of a body is what stands between the blanks at its two ends. -/
def IsWord (body word : List Char) : Prop :=
  ∃ before after, body = before ++ word ++ after ∧ (∀ c ∈ before, Text.isBlank c = true) ∧
    (∀ c ∈ after, Text.isBlank c = true) ∧ (∀ c ∈ word.head?, Text.isBlank c = false) ∧
    ∀ c ∈ word.getLast?, Text.isBlank c = false

/-- Blanks in front of a character that is none are taken away, and nothing else is. -/
theorem dropWhile_append_cons {f : Char → Bool} (hc : f c = false) :
    (p ++ c :: q).dropWhile f = p.dropWhile f ++ c :: q := by
  rw [List.dropWhile_append, List.dropWhile_cons_of_neg (by simp [hc])]
  split
  · rename_i hempty
    rw [List.isEmpty_iff.mp hempty, List.nil_append]
  · rfl

theorem rdropWhile_append_cons {f : Char → Bool} (hc : f c = false) :
    (p ++ c :: q).rdropWhile f = p ++ c :: q.rdropWhile f := by
  have hsplit : (p ++ c :: q).reverse = q.reverse ++ c :: p.reverse := by simp
  unfold List.rdropWhile
  rw [hsplit, dropWhile_append_cons hc]
  simp

theorem trim_eq (cs : List Char) :
    Text.trim cs = (cs.dropWhile Text.isBlank).rdropWhile Text.isBlank := rfl

/-- Each body has a word. -/
theorem exists_isWord (body : List Char) : ∃ word, IsWord body word := by
  have hfront := List.takeWhile_append_dropWhile (p := Text.isBlank) (l := body)
  generalize hrest : body.dropWhile Text.isBlank = rest at hfront
  have hback := List.rdropWhile_append_rtakeWhile (p := Text.isBlank) (l := rest)
  refine ⟨rest.rdropWhile Text.isBlank, body.takeWhile Text.isBlank,
    rest.rtakeWhile Text.isBlank, ?_, ?_, ?_, ?_, ?_⟩
  · rw [List.append_assoc, hback, hfront]
  · exact fun c hc => List.mem_takeWhile_imp hc
  · exact fun c hc => List.mem_rtakeWhile_imp hc
  · -- The word begins like what is left when the blanks in front of it are gone.
    intro c hc
    have hhead : rest.head? = some c := by
      rw [← hback, List.head?_append, Option.mem_def.mp hc, Option.some_or]
    have hnot := List.head?_dropWhile_not Text.isBlank body
    rw [hrest, hhead] at hnot
    exact hnot
  · intro c hc
    rcases List.getLast?_eq_some_iff.mp hc with ⟨init, hword⟩
    have hne : rest.rdropWhile Text.isBlank ≠ [] := by simp [hword]
    have hnot := List.rdropWhile_last_not Text.isBlank rest hne
    rw [List.getLast_congr hne (by simp) hword, List.getLast_concat] at hnot
    exact Bool.eq_false_iff.mpr hnot

/-- The word of a body is what trimming leaves. -/
theorem IsWord.trim_eq_word (h : IsWord body word) : Text.trim body = word := by
  rcases h with ⟨before, after, rfl, hbefore, hafter, hhead, hlast⟩
  rw [trim_eq, List.append_assoc, List.dropWhile_append_of_pos hbefore]
  by_cases hempty : word = []
  · rw [hempty, List.nil_append, List.dropWhile_eq_nil_iff.mpr hafter]
    rfl
  · -- The word stops the trimming on either side, since its first and last characters are no
    -- blanks.
    have hfront : (word ++ after).dropWhile Text.isBlank = word ++ after := by
      rcases List.exists_cons_of_ne_nil hempty with ⟨c, rest, rfl⟩
      rw [List.cons_append, List.dropWhile_cons_of_neg (by simp [hhead c rfl])]
    have hback : (word ++ after).rdropWhile Text.isBlank = word := by
      rcases (List.eq_nil_or_concat word).resolve_left hempty with ⟨init, c, rfl⟩
      rw [List.concat_eq_append] at hlast ⊢
      rw [List.append_assoc, List.singleton_append, rdropWhile_append_cons (hlast c (by simp)),
        List.rdropWhile_eq_nil_iff.mpr hafter]
    rw [hfront, hback]

/-- Each underscore stands between two digits. -/
def SeparatesDigits (word : List Char) : Prop :=
  ∀ before after, word = before ++ '_' :: after →
    (∃ c ∈ before.getLast?, c.isDigit = true) ∧ ∃ c ∈ after.head?, c.isDigit = true

/-- The check of the separators, behind a character that may be there. It looks at each
    underscore with its two neighbours. -/
theorem wellSeparated_iff_behind (previous : Option Char) (cs : List Char) :
    wellSeparated previous cs = true ↔ ∀ before after, cs = before ++ '_' :: after →
      (∃ c ∈ before.getLast?.or previous, c.isDigit = true) ∧
        ∃ c ∈ after.head?, c.isDigit = true := by
  induction cs generalizing previous with
  | nil => simp [wellSeparated]
  | cons c cs ih =>
      -- Behind the first character, that one is the neighbour of what is first there.
      have hlast : ∀ before : List Char, (c :: before).getLast?.or previous =
          before.getLast?.or (some c) := by
        intro before
        cases before <;> simp [List.getLast?_cons]
      have hlater : (∀ before after, c :: cs = c :: before ++ '_' :: after →
          (∃ d ∈ (c :: before).getLast?.or previous, d.isDigit = true) ∧
            ∃ d ∈ after.head?, d.isDigit = true) ↔ wellSeparated (some c) cs = true := by
        simp only [ih, hlast, List.cons_append, List.cons.injEq, true_and]
      have hsplit : (∀ before after, c :: cs = before ++ '_' :: after →
          (∃ d ∈ before.getLast?.or previous, d.isDigit = true) ∧
            ∃ d ∈ after.head?, d.isDigit = true) ↔
          (c = '_' → (∃ d ∈ previous, d.isDigit = true) ∧ ∃ d ∈ cs.head?, d.isDigit = true) ∧
            wellSeparated (some c) cs = true := by
        rw [← hlater]
        constructor
        · intro h
          refine ⟨?_, fun before after heq => h (c :: before) after heq⟩
          rintro rfl
          exact h [] cs rfl
        · rintro ⟨hfirst, hrest⟩ before after heq
          cases before with
          | nil =>
              cases heq
              exact hfirst rfl
          | cons d before =>
              cases heq
              exact hrest before after rfl
      rw [hsplit]
      by_cases hc : c = '_'
      · subst hc
        simp only [wellSeparated, separates, Bool.and_eq_true, Option.any_eq_true, forall_const]
        exact Iff.rfl
      · have hskip : wellSeparated previous (c :: cs) = wellSeparated (some c) cs := by
          simp [wellSeparated]
        simp [hskip, hc]

/-- The check of the separators of a word looks at all of them. -/
theorem wellSeparated_iff : wellSeparated none word = true ↔ SeparatesDigits word := by
  rw [wellSeparated_iff_behind]
  simp only [Option.or_none, SeparatesDigits]

/-- One separator more between two digits is not noticed. -/
theorem wellSeparated_separator (previous : Option Char) (p q : List Char)
    (ha : a.isDigit = true) (hb : b.isDigit = true) :
    wellSeparated previous (p ++ a :: '_' :: b :: q) =
      wellSeparated previous (p ++ a :: b :: q) := by
  have hdigit : ∀ c previous (cs : List Char), c.isDigit = true →
      wellSeparated previous (c :: cs) = wellSeparated (some c) cs := by
    intro c previous cs hc
    have hne : c ≠ '_' := by
      rintro rfl
      cases hc
    simp [wellSeparated]
  induction p generalizing previous with
  | nil =>
      simp only [List.nil_append, hdigit a _ _ ha, hdigit b _ _ hb]
      simp [wellSeparated, separates, ha, hb, hdigit b _ _ hb]
  -- In front of the two digits the check only looks one character ahead.
  | cons c p ih =>
      by_cases hc : c = '_'
      · have hhead : (p ++ a :: '_' :: b :: q).head? = (p ++ a :: b :: q).head? := by
          simp [List.head?_append]
        simp only [hc, List.cons_append, wellSeparated, separates, hhead, ih]
      · simp only [List.cons_append]
        simp [wellSeparated, ih]

/-- A separator between two digits may be put in or left out. -/
theorem readSeparated?_separator (p q : List Char) (ha : a.isDigit = true)
    (hb : b.isDigit = true) :
    readSeparated? (p ++ a :: '_' :: b :: q) = readSeparated? (p ++ a :: b :: q) := by
  have hletters : (a :: '_' :: b :: q).filter (· != '_') = (a :: b :: q).filter (· != '_') := by
    by_cases hau : a = '_' <;> simp [hau]
  unfold readSeparated?
  rw [wellSeparated_separator none p q ha hb, List.filter_append, List.filter_append, hletters]

/-- The value of a line with a given word. -/
theorem inputValue_of_word {line : String} (hbody : IsBody line.toList body)
    (hword : IsWord body word) : inputValue line = match readSeparated? word with
      | some x => .float x
      | none => .text (String.ofList body) := by
  show (match readSeparated? (Text.trim (lineBody line.toList)) with
    | some x => Value.float x
    | none => .text (String.ofList (lineBody line.toList))) = _
  rw [hbody.lineBody_eq, hword.trim_eq_word]

theorem isBlank_of_isDigit (hc : c.isDigit = true) : Text.isBlank c = false := by
  have hrange := Char.isDigit_iff_toNat.mp hc
  simp only [Char.reduceToNat] at hrange
  simp only [Text.isBlank, Text.inRanges, Text.blankRanges, List.any_cons, List.any_nil,
    Bool.or_eq_false_iff, Bool.and_eq_false_iff, decide_eq_false_iff_not, and_true]
  omega

/-- What stands between two characters that are no blanks is not touched by taking away the
    blanks around a text. -/
theorem trim_between (p cs q : List Char) (ha : Text.isBlank a = false)
    (hb : Text.isBlank b = false) :
    Text.trim (p ++ a :: (cs ++ b :: q)) =
      p.dropWhile Text.isBlank ++ a :: (cs ++ b :: q.rdropWhile Text.isBlank) := by
  rw [trim_eq, dropWhile_append_cons ha, ← List.cons_append, ← List.append_assoc,
    rdropWhile_append_cons hb]
  simp

/-- A line that goes on between two digits has the same number with a separator there. -/
theorem inputValue_separator (p q : List Char) (ha : a.isDigit = true) (hb : b.isDigit = true) :
    inputValue (String.ofList (p ++ a :: '_' :: b :: q)) = .float x ↔
      inputValue (String.ofList (p ++ a :: b :: q)) = .float x := by
  rcases exists_isBody q with ⟨body, hq⟩
  -- Neither the line break nor the blanks reach the two digits.
  have hwith : IsBody (p ++ a :: '_' :: b :: q) (p ++ a :: '_' :: b :: body) := by
    have h := hq.behind (p := p ++ [a, '_']) hb
    simpa using h
  have hwithout : IsBody (p ++ a :: b :: q) (p ++ a :: b :: body) := by
    have h := hq.behind (p := p ++ [a]) hb
    simpa using h
  have hblanks := isBlank_of_isDigit ha
  have hblanks' := isBlank_of_isDigit hb
  have htrim : Text.trim (p ++ a :: '_' :: b :: body) = _ :=
    trim_between p ['_'] body hblanks hblanks'
  have htrim' : Text.trim (p ++ a :: b :: body) = _ :=
    trim_between p [] body hblanks hblanks'
  unfold inputValue
  simp only [String.toList_ofList, hwith.lineBody_eq, hwithout.lineBody_eq, htrim, htrim',
    List.singleton_append, List.nil_append, readSeparated?_separator _ _ ha hb]
  cases readSeparated? (p.dropWhile Text.isBlank ++ a :: b :: body.rdropWhile Text.isBlank) with
  | none => exact ⟨nofun, nofun⟩
  | some _ => exact Iff.rfl

/-- A line without its line break and without the blanks at both ends of that is its word. If
    each underscore of the word stands between two digits, the line is the float that the word
    without its underscores spells, if it spells one. All other lines are texts, and a text is
    the line without its line break, unchanged. A separator between two digits can be put into
    a line, or taken out of it, without a change to the number that the line is. -/
theorem separators_are_read_exactly (line : String) :
    (∃ body word, IsBody line.toList body ∧ IsWord body word) ∧
    (∀ body word, IsBody line.toList body → IsWord body word →
      (SeparatesDigits word → inputValue line = match readFloat? (word.filter (· != '_')) with
        | some x => .float x
        | none => .text (String.ofList body)) ∧
      (¬ SeparatesDigits word → inputValue line = .text (String.ofList body)) ∧
      ∀ s, inputValue line = .text s → s = String.ofList body) ∧
    ∀ p q a b x, a.isDigit = true → b.isDigit = true → line.toList = p ++ a :: b :: q →
      (inputValue (String.ofList (p ++ a :: '_' :: b :: q)) = .float x ↔
        inputValue line = .float x) := by
  refine ⟨?_, fun body word hbody hword => ?_, fun p q a b x ha hb hline => ?_⟩
  · rcases exists_isBody line.toList with ⟨body, hbody⟩
    rcases exists_isWord body with ⟨word, hword⟩
    exact ⟨body, word, hbody, hword⟩
  · have hvalue := inputValue_of_word hbody hword
    refine ⟨fun hseparated => ?_, fun hseparated => ?_, fun s hs => ?_⟩
    · rw [hvalue, readSeparated?, if_pos (wellSeparated_iff.mpr hseparated)]
    · rw [hvalue, readSeparated?, if_neg (mt wellSeparated_iff.mp hseparated)]
    · -- A text is never anything but the body, whatever the word looks like.
      rw [hvalue] at hs
      split at hs
      · cases hs
      · exact (Value.text.inj hs).symm
  · rw [← String.ofList_toList (s := line), hline]
    exact inputValue_separator p q ha hb

/-- A number with a separator stands between blanks and a line break, a word with two underscores
    in a row is a text that keeps its blank, and a separator is put into a number. -/
theorem separators_are_read_exactly_blanks :
    IsBody "\t1_0.5 \r\n".toList "\t1_0.5 ".toList ∧ IsWord "\t1_0.5 ".toList "1_0.5".toList ∧
    SeparatesDigits "1_0.5".toList ∧ inputValue "\t1_0.5 \r\n" = .float 10.5 ∧
    ¬ SeparatesDigits "1__0".toList ∧ inputValue "1__0 " = .text "1__0 " ∧
    inputValue "1_2\n" = .float 12.0 := by
  rcases separators_are_read_exactly "\t1_0.5 \r\n" with ⟨-, hnumber, -⟩
  rcases separators_are_read_exactly "1__0 " with ⟨-, htext, -⟩
  rcases separators_are_read_exactly "12\n" with ⟨-, -, hseparator⟩
  have hbody : IsBody "\t1_0.5 \r\n".toList "\t1_0.5 ".toList :=
    .broken "\t1_0.5 ".toList
  have hblank : ∀ b, Text.isBlank b = true → ∀ c ∈ [b], Text.isBlank c = true := fun b hb =>
    List.forall_mem_singleton.mpr hb
  have hword : IsWord "\t1_0.5 ".toList "1_0.5".toList :=
    ⟨['\t'], [' '], rfl, hblank '\t' rfl, hblank ' ' rfl, by rintro _ ⟨⟩; rfl,
      by rintro _ ⟨⟩; rfl⟩
  have hseparated : SeparatesDigits "1_0.5".toList := wellSeparated_iff.mp (by decide)
  -- Two separators in a row keep the line from being a number.
  have hbody' : IsBody "1__0 ".toList "1__0 ".toList := .unbroken (by decide)
  have hword' : IsWord "1__0 ".toList "1__0".toList :=
    ⟨[], [' '], rfl, nofun, hblank ' ' rfl, by rintro _ ⟨⟩; rfl, by rintro _ ⟨⟩; rfl⟩
  have hdoubled : ¬ SeparatesDigits "1__0".toList := mt wellSeparated_iff.mpr (by decide)
  refine ⟨hbody, hword, hseparated, ?_, hdoubled, ?_, ?_⟩
  · rw [(hnumber _ _ hbody hword).1 hseparated]
    decide +kernel
  · exact (htext _ _ hbody' hword').2.1 hdoubled
  · exact (hseparator [] ['\n'] '1' '2' 12.0 (by decide) (by decide) (by decide)).mpr
      (by decide +kernel)

end TreeScript
