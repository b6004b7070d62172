import TreeScript.Proofs.Grammar

/-!
# What the Reader Answers

The answer to every token list, told apart by how much of the list the grammar
allows. There are four cases, and each is met by exactly one kind of answer: the
list is a sentence; a sentence ends before the list does; the list ends before a
sentence does; or there is a first token with which no sentence can go on.

`Verdict` names the cases, `verdict_treeOf` says that the reader's answer always
belongs to one of them, and the lemmas before the last section say that a case
determines the answer.

The cases exclude each other, but this does not have to be shown from the grammar. The
reader gives one answer, every answer has a verdict, and a list that is in one case cannot
get the answer of another. So the equivalences at the end follow from `verdict_treeOf` and
from one lemma for each case, that it leads to its answer.

What is blamed on a token is left to the reader: the grammar says where the text goes
wrong for good, and not which of the errors a token there should be given.

## Main definitions

* `Verdict`: How an answer follows from the tokens.
* `FirstUnviable`: The place of the first token that no sentence can go on with.

## Theorems

* `verdict_treeOf`: Every answer is one that the tokens call for.
* `treeOf_eq_ok_iff`, `treeOf_eq_trailing`, `treeOf_eq_cut_iff`: What calls for
  which answer.
* `treesOf_eq_ok_iff`: The same for texts of several trees.
* `reading_is_exact`: Reading a text follows the grammar.
* `treeOf_of_stepOnly_error`: An error at a token is an error of the whole list.
* `exists_of_treeOf_eq_trailing`: What is reported as trailing stands behind a sentence.
* `row_of_flat`, `read_of_row`: Rows of sentences.
-/

namespace TreeScript

/-- The token at this place is the first that no sentence can go on with. -/
def FirstUnviable (ps : List Placed) (i : Nat) : Prop :=
  (∀ j ≤ i, Viable ((ps.take j).map Placed.token)) ∧
    ¬ Viable ((ps.take (i + 1)).map Placed.token)

/-- How an answer follows from the tokens. -/
inductive Verdict (ps : List Placed) : Except ReadError Tree → Prop
  | tree {t : Tree} (h : t.Spelled (ps.map Placed.token)) : Verdict ps (.ok t)
  | trailing {i : Nat} (hi : i < ps.length) (h : Sentence ((ps.take i).map Placed.token)) :
      Verdict ps (.error (.trailing ps[i].token ps[i].line))
  | cut (h : ProperPrefix (ps.map Placed.token)) :
      Verdict ps (.error (.unexpectedEnd (endLine ps)))
  | blamed {i : Nat} {e : ReadError} (hi : i < ps.length) (h : FirstUnviable ps i)
      (he : ps[i].Blamed e) : Verdict ps (.error e)

section

variable {ps : List Placed}

theorem treeOf_of_ok {t : Tree}
    (h : ps.foldlM Reader.stepOnly (.outside []) = .ok (.outside [t])) : treeOf ps = .ok t := by
  rw [treeOf, h]
  rfl

/-- A reading that stops anywhere but behind one tree has come to an unexpected end. -/
theorem treeOf_of_ok_ne {r : Reader} (h : ps.foldlM Reader.stepOnly (.outside []) = .ok r)
    (hr : ∀ t, r ≠ .outside [t]) : treeOf ps = .error (.unexpectedEnd (endLine ps)) := by
  rw [treeOf, h]
  cases r with
  | outside trees =>
      cases trees with
      | nil => rfl
      | cons t rest =>
          -- One tree is excluded, so there are none or several.
          cases rest with
          | nil => exact absurd rfl (hr t)
          | cons u rest => rfl
  | tagWanted _ _ => rfl
  | inside _ _ => rfl

theorem treeOf_of_error {e : ReadError}
    (h : ps.foldlM Reader.stepOnly (.outside []) = .error e) : treeOf ps = .error e := by
  rw [treeOf, h]
  rfl

theorem foldlM_take_succ {i : Nat} (hi : i < ps.length) {r : Reader}
    (h : (ps.take i).foldlM Reader.stepOnly (.outside []) = .ok r) :
    (ps.take (i + 1)).foldlM Reader.stepOnly (.outside []) = r.stepOnly ps[i] := by
  rw [List.take_succ_eq_append_getElem hi, foldlM_append_of_ok h, List.foldlM_cons]
  exact bind_pure _

/-- An error at a token is an error of the whole list. -/
theorem treeOf_of_stepOnly_error {i : Nat} (hi : i < ps.length) {r : Reader} {e : ReadError}
    (h : (ps.take i).foldlM Reader.stepOnly (.outside []) = .ok r)
    (he : r.stepOnly ps[i] = .error e) : treeOf ps = .error e := by
  apply treeOf_of_error
  rw [← List.take_append_drop (i + 1) ps]
  exact foldlM_append_of_error ((foldlM_take_succ hi h).trans he)

/-- Every answer is one that the tokens call for. -/
theorem verdict_treeOf (ps : List Placed) : Verdict ps (treeOf ps) := by
  cases h : ps.foldlM Reader.stepOnly (.outside []) with
  | ok r =>
      by_cases hr : ∃ t, r = .outside [t]
      · rcases hr with ⟨t, rfl⟩
        rw [treeOf_of_ok h]
        exact .tree (readOnly_eq_ok_iff.mp h)
      · -- The reader still waits for something, so the tokens are too few.
        have hr : ∀ t, r ≠ .outside [t] := fun t ht => hr ⟨t, ht⟩
        rcases exists_sentence_of_readOnly h with ⟨rest, hrest, hne⟩
        rw [treeOf_of_ok_ne h hr]
        exact .cut ⟨rest, hne hr, hrest⟩
  | error e =>
      rcases exists_of_foldlM_error h with ⟨i, hi, r, hr, he⟩
      rw [treeOf_of_error h]
      rcases stepOnly_error (only_of_readOnly hr) he with ⟨t, rfl, rfl⟩ | hblamed
      · exact .trailing hi (readOnly_eq_ok_iff.mp hr).1
      · -- Up to the token there was no error, and from there on there is one.
        have hbefore := fun j hj => viable_take (j := j) hj (viable_iff.mpr ⟨r, hr⟩)
        refine .blamed hi ⟨hbefore, fun hv => ?_⟩ hblamed
        rcases viable_iff.mp hv with ⟨r', hr'⟩
        rw [foldlM_take_succ hi hr, he] at hr'
        cases hr'

/-- A tree is read exactly from its own spellings. -/
theorem treeOf_eq_ok_iff {t : Tree} :
    treeOf ps = .ok t ↔ t.Spelled (ps.map Placed.token) := by
  refine ⟨fun h => ?_, fun h => treeOf_of_ok (readOnly_eq_ok_iff.mpr h)⟩
  have hv := verdict_treeOf ps
  rw [h] at hv
  cases hv with
  | tree ht => exact ht

/-- A token after a whole sentence is trailing. -/
theorem treeOf_eq_trailing {i : Nat} (hi : i < ps.length)
    (h : Sentence ((ps.take i).map Placed.token)) :
    treeOf ps = .error (.trailing ps[i].token ps[i].line) := by
  rcases exists_tree_of_sentence h with ⟨t, ht⟩
  exact treeOf_of_stepOnly_error hi (readOnly_eq_ok_iff.mpr ht) rfl

/-- The converse: what is reported as trailing stands after a sentence. -/
theorem exists_of_treeOf_eq_trailing {k : Token} {n : Nat}
    (h : treeOf ps = .error (.trailing k n)) :
    ∃ i, ∃ hi : i < ps.length, Sentence ((ps.take i).map Placed.token) ∧
      k = ps[i].token ∧ n = ps[i].line := by
  have hv := verdict_treeOf ps
  rw [h] at hv
  cases hv with
  | trailing hi hs => exact ⟨_, hi, hs, rfl, rfl⟩
  | blamed hi hf he => rcases he with he | he | he <;> cases he

/-- A proper beginning of a sentence ends unexpectedly, on the last line. -/
theorem treeOf_eq_cut (h : ProperPrefix (ps.map Placed.token)) :
    treeOf ps = .error (.unexpectedEnd (endLine ps)) := by
  rcases h with ⟨rest, hne, hs⟩
  rcases viable_iff.mp ⟨rest, hs⟩ with ⟨r, hr⟩
  refine treeOf_of_ok_ne hr fun t ht => ?_
  -- Were the reader done, the rest of the sentence would stand behind a complete tree.
  subst ht
  rw [← onLine_tokens 1 rest, ← List.map_append] at hs
  rcases exists_tree_of_sentence hs with ⟨u, hu⟩
  have hi : ps.length < (ps ++ onLine 1 rest).length := by
    have := List.length_pos_iff.mpr hne
    simp only [List.length_append, onLine, List.length_map]
    omega
  have htake : Sentence (((ps ++ onLine 1 rest).take ps.length).map Placed.token) := by
    rw [List.take_left]
    exact (readOnly_eq_ok_iff.mp hr).1
  have htrailing := treeOf_eq_trailing hi htake
  rw [treeOf_eq_ok_iff.mpr hu] at htrailing
  cases htrailing

theorem treeOf_eq_cut_iff {n : Nat} : treeOf ps = .error (.unexpectedEnd n) ↔
    n = endLine ps ∧ ProperPrefix (ps.map Placed.token) := by
  constructor
  · intro h
    have hv := verdict_treeOf ps
    rw [h] at hv
    cases hv with
    | cut hp => exact ⟨rfl, hp⟩
    | blamed hi hf he => rcases he with he | he | he <;> cases he
  · rintro ⟨rfl, hp⟩
    exact treeOf_eq_cut hp

/-- Tokens that spell several trees are a row of their spellings. -/
theorem row_of_flat {trees : List Tree} {ts : List Token}
    (hflat : Reader.flatTrees trees = ts.map Token.plain)
    (hnest : ∀ t ∈ trees, t.nesting ≤ maxNesting) : SpelledRow trees ts := by
  induction trees generalizing ts with
  | nil =>
      rw [List.map_eq_nil_iff.mp hflat.symm]
      exact .nil
  | cons t trees ih =>
      rcases List.map_eq_append_iff.mp hflat.symm with ⟨ts, us, rfl, ht, hus⟩
      -- The tokens of the first tree come off the front; the rest is shorter by one.
      have hsentence := sentence_iff.mpr ⟨t, ht.symm, hnest t List.mem_cons_self⟩
      exact .cons ⟨hsentence, ht.symm⟩ (ih hus.symm fun u hu => hnest u (List.mem_cons_of_mem t hu))

/-- A row that spells trees is read as these trees, by induction on the trees. -/
theorem read_of_row {trees : List Tree} {ts : List Token} (h : SpelledRow trees ts) :
    ∀ (ps : List Placed) (before : List Tree), ps.map Placed.token = ts →
      ps.foldlM Reader.step (.outside before) = .ok (.outside (trees.reverse ++ before)) := by
  -- The trees before are part of the statement, since each tree is put in front of them.
  induction h with
  | nil =>
      intro ps before hps
      rw [List.map_eq_nil_iff.mp hps]
      rfl
  | @cons t ts trees us ht _ ih =>
      intro ps before hps
      rcases List.map_eq_append_iff.mp hps with ⟨ps, qs, rfl, hp, hq⟩
      have hflat : ps.map (·.token.plain) = t.flat := by
        rw [ht.2, ← hp, List.map_map]
        rfl
      have hread := (read_tree (follows_step before) t hflat).accepts ht.nesting_le
      rw [foldlM_append_of_ok hread, ih qs (t :: before) hq, List.reverse_cons, List.append_assoc]
      rfl

/-- All trees of a token list are read just if it is a row of sentences. -/
theorem treesOf_eq_ok_iff {trees : List Tree} :
    treesOf ps = .ok trees ↔ SpelledRow trees (ps.map Placed.token) := by
  constructor
  · intro h
    rcases exists_of_bind h with ⟨r, hread, h⟩
    -- Only a reader that stands outside of all brackets has something to return.
    cases r with
    | outside read =>
        cases h
        refine row_of_flat ?_ fun t ht => ?_
        · rw [List.map_map]
          exact Reader.read_flat hread
        · exact Reader.read_fits Reader.fits_start hread t (List.mem_reverse.mp ht)
    | tagWanted _ _ => cases h
    | inside _ _ => cases h
  · intro h
    rw [treesOf, read_of_row h ps [] rfl, List.append_nil]
    exact congrArg Except.ok (List.reverse_reverse trees)

end

theorem spelledRow_singleton_iff {t : Tree} {ts : List Token} :
    SpelledRow [t] ts ↔ t.Spelled ts := by
  constructor
  · intro h
    cases h with
    | cons ht hs =>
        cases hs with
        | nil => rwa [List.append_nil]
  · intro h
    rw [← List.append_nil ts]
    exact .cons h .nil

theorem readTree_of_tokens {source : String} {ps : List Placed} (h : tokens source = .ok ps) :
    readTree source = treeOf ps := by
  rw [readTree, h]
  rfl

theorem readTrees_of_tokens {source : String} {ps : List Placed} (h : tokens source = .ok ps) :
    readTrees source = treesOf ps := by
  rw [readTrees, h]
  rfl

theorem nesting_le_of_readTrees {source : String} {trees : List Tree}
    (h : readTrees source = .ok trees) : ∀ t ∈ trees, t.nesting ≤ maxNesting := by
  rcases exists_of_bind h with ⟨ps, _, hps⟩
  exact (treesOf_eq_ok_iff.mp hps).nesting_le

theorem nesting_le_of_readTree {source : String} {t : Tree} (h : readTree source = .ok t) :
    t.nesting ≤ maxNesting := by
  rcases exists_of_bind h with ⟨ps, _, hps⟩
  exact (treeOf_eq_ok_iff.mp hps).nesting_le

/-- Reading a text that can be scanned follows the grammar. One tree is read just
    if the tokens are a sentence that spells it. If a sentence ends early, the
    token behind it is trailing, and only then is one. If the tokens end early,
    the end is unexpected, and only then is it. In all other cases the error
    blames the first token with which no sentence can go on. Several trees are
    read just if the tokens are a row of sentences. -/
theorem reading_is_exact (source : String) :
    (∀ ps, tokens source = .ok ps →
      (∀ t, readTree source = .ok t ↔ t.Spelled (ps.map Placed.token)) ∧
      (∀ i (hi : i < ps.length), Sentence ((ps.take i).map Placed.token) →
        readTree source = .error (.trailing ps[i].token ps[i].line)) ∧
      (∀ k n, readTree source = .error (.trailing k n) →
        ∃ i, ∃ hi : i < ps.length, Sentence ((ps.take i).map Placed.token) ∧
          k = ps[i].token ∧ n = ps[i].line) ∧
      (∀ n, readTree source = .error (.unexpectedEnd n) ↔
        n = endLine ps ∧ ProperPrefix (ps.map Placed.token)) ∧
      (¬ Sentence (ps.map Placed.token) →
        (∀ i < ps.length, ¬ Sentence ((ps.take i).map Placed.token)) →
        ¬ ProperPrefix (ps.map Placed.token) →
        ∃ i, ∃ hi : i < ps.length, FirstUnviable ps i ∧
          ∃ e, readTree source = .error e ∧ ps[i].Blamed e) ∧
      (∀ trees, readTrees source = .ok trees ↔ SpelledRow trees (ps.map Placed.token))) ∧
    ∀ t, readTree source = .ok t ↔ readTrees source = .ok [t] := by
  constructor
  · intro ps hps
    rw [readTree_of_tokens hps, readTrees_of_tokens hps]
    refine ⟨fun _ => treeOf_eq_ok_iff, fun _ => treeOf_eq_trailing,
      fun _ _ => exists_of_treeOf_eq_trailing, fun _ => treeOf_eq_cut_iff, ?_,
      fun _ => treesOf_eq_ok_iff⟩
    -- The first three cases of the verdict are excluded, so the fourth one is left.
    intro hsentence hearly hprefix
    generalize hanswer : treeOf ps = answer
    have hv := verdict_treeOf ps
    rw [hanswer] at hv
    cases hv with
    | tree h => exact absurd h.1 hsentence
    | trailing hi h => exact absurd h (hearly _ hi)
    | cut h => exact absurd h hprefix
    | @blamed i e hi h he => exact ⟨i, hi, h, e, rfl, he⟩
  · intro t
    cases hps : tokens source with
    | error e =>
        rw [readTree, readTrees, hps]
        exact iff_of_false (by nofun) (by nofun)
    | ok ps =>
        rw [readTree_of_tokens hps, readTrees_of_tokens hps, treeOf_eq_ok_iff, treesOf_eq_ok_iff,
          spelledRow_singleton_iff]

/-- A second tree on the third line, behind a tree with a sequence in it. -/
theorem reading_is_exact_two_trees :
    tokens "(a [~\n\"b c\"]) ; d\n(e)" = .ok
      [⟨.openParen, 1⟩, ⟨.atom "a", 1⟩, ⟨.openBracket, 1⟩, ⟨.nil, 1⟩, ⟨.quoted "b c", 2⟩,
        ⟨.closeBracket, 2⟩, ⟨.closeParen, 2⟩, ⟨.openParen, 3⟩, ⟨.atom "e", 3⟩,
        ⟨.closeParen, 3⟩] ∧
    readTree "(a [~\n\"b c\"]) ; d\n(e)" = .error (.trailing .openParen 3) := by
  have hscan : tokens "(a [~\n\"b c\"]) ; d\n(e)" = .ok
      [⟨.openParen, 1⟩, ⟨.atom "a", 1⟩, ⟨.openBracket, 1⟩, ⟨.nil, 1⟩, ⟨.quoted "b c", 2⟩,
        ⟨.closeBracket, 2⟩, ⟨.closeParen, 2⟩, ⟨.openParen, 3⟩, ⟨.atom "e", 3⟩,
        ⟨.closeParen, 3⟩] := by
    rfl
  refine ⟨hscan, ((reading_is_exact _).1 _ hscan).2.1 7 (by decide) ?_⟩
  -- The first seven tokens are a sentence, with a sequence as its operand.
  have hseq : Derives 255 .operand [.openBracket, .nil, .quoted "b c", .closeBracket] :=
    .seq (.more .empty (.more (.word rfl) .none))
  exact .tree rfl (.more hseq .none)

end TreeScript
