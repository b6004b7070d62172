import TreeScript.Proofs.Reading

/-!
# The Grammar of Tree Text

Which token lists are trees, and that the reader agrees. The grammar is the one
that the notation is described by, with the bound on nesting built in: `Derives`
counts down the brackets that may still be opened. It knows nothing of the
reader, and neither lines nor the quotes of a word take part in it.

The reader is exact in three ways. It accepts a token list just if that is a
sentence, and then yields the tree that the tokens flatten to. It stays without
an error just as long as some sentence begins with what it has read, so an
error always lies at the first token that no continuation could mend. And which
kind of error it is follows from how much of the list is a sentence.

Sentences are compared with the reader by way of trees. A token list is a sentence if it
is what some tree flattens to, within the bound, and it is the reader that builds such a
tree or fails; neither direction needs an induction on derivations beyond `derives_iff`.
That what is read can be completed is constructive: the brackets that are still open are
closed, and a tag is supplied where one is wanted.

## Main definitions

* `Derives`: The phrases of the grammar.
* `Sentence`, `Viable`, `ProperPrefix`: One tree, what a tree can begin with,
  and what it can begin with but not be.
* `Tree.Spelled`, `SpelledRow`: What spells one tree, and several in order.

## Theorems

* `derives_iff`: The phrases of the grammar are what trees flatten to.
* `exists_sentence_of_readOnly`: What the reader accepts can be completed.
* `readOnly_eq_ok_iff`: When the reader ends with one complete tree.
* `viable_iff`, `stepOnly_error`: How long the reader goes on, and the token at
  which it fails.
* `stands_of_derives`, `derives_operand`: The two directions of `derives_iff`.
* `exists_closing`, `exists_completion`: Closing the brackets that are open.
* `blamed_of_step`: Which errors a token can be given.
-/

namespace TreeScript

open Operand

/-- The phrases of the grammar. -/
inductive Phrase where
  /-- A bracketed tree. -/
  | tree
  /-- Anything that may stand in brackets. -/
  | operand
  /-- Operands in a row. -/
  | operands

/-- The token lists that form a phrase in which at most so many brackets are open
    at once. -/
inductive Derives : Nat → Phrase → List Token → Prop
  | tree {n : Nat} {k : Token} {ts : List Token} (hk : k.word?.isSome)
      (h : Derives n .operands ts) :
      Derives (n + 1) .tree (.openParen :: k :: (ts ++ [.closeParen]))
  | nested {n : Nat} {ts : List Token} (h : Derives n .tree ts) : Derives n .operand ts
  | seq {n : Nat} {ts : List Token} (h : Derives n .operands ts) :
      Derives (n + 1) .operand (.openBracket :: (ts ++ [.closeBracket]))
  | empty {n : Nat} : Derives n .operand [.nil]
  | word {n : Nat} {k : Token} (hk : k.word?.isSome) : Derives n .operand [k]
  | none {n : Nat} : Derives n .operands []
  | more {n : Nat} {ts us : List Token} (h : Derives n .operand ts)
      (hs : Derives n .operands us) : Derives n .operands (ts ++ us)

/-- A token list that is one tree. -/
def Sentence (ts : List Token) : Prop := Derives maxNesting .tree ts

/-- A token list that some sentence begins with. -/
def Viable (ts : List Token) : Prop := ∃ rest, Sentence (ts ++ rest)

/-- A token list that some longer sentence begins with. -/
def ProperPrefix (ts : List Token) : Prop := ∃ rest, rest ≠ [] ∧ Sentence (ts ++ rest)

/-- The token list is a sentence, and the tree is what it flattens to. -/
def Tree.Spelled (t : Tree) (ts : List Token) : Prop :=
  Sentence ts ∧ t.flat = ts.map Token.plain

/-- The token list is a row of sentences that spell the trees in order. -/
inductive SpelledRow : List Tree → List Token → Prop
  | nil : SpelledRow [] []
  | cons {t : Tree} {ts : List Token} {trees : List Tree} {us : List Token}
      (h : t.Spelled ts) (hs : SpelledRow trees us) : SpelledRow (t :: trees) (ts ++ us)

/-- What a phrase stands for: something within the bound that flattens to it. -/
def Phrase.Stands (n : Nat) (ts : List Token) : Phrase → Prop
  | .tree => ∃ t : Tree, t.flat = ts.map Token.plain ∧ t.nesting ≤ n
  | .operand => ∃ o : Operand, o.flat = ts.map Token.plain ∧ o.nesting ≤ n
  | .operands => ∃ os, flatEach os = ts.map Token.plain ∧ nestingEach os ≤ n

/-- What the grammar derives is the spelling of a tree, by induction on the derivation. -/
theorem stands_of_derives {n : Nat} {phrase : Phrase} {ts : List Token}
    (h : Derives n phrase ts) : phrase.Stands n ts := by
  -- A case for each rule: the parts stand for something, and the rule puts it together.
  induction h with
  | @tree n k ts hk _ ih =>
      rcases ih with ⟨os, hflat, hnest⟩
      rcases Option.isSome_iff_exists.mp hk with ⟨tag, htag⟩
      refine ⟨⟨tag, os⟩, ?_, Nat.succ_le_succ hnest⟩
      rw [List.map_cons, List.map_cons, Token.plain_eq_atom_iff.mpr htag, List.map_append, ← hflat]
      rfl
  | nested _ ih =>
      rcases ih with ⟨t, hflat, hnest⟩
      exact ⟨t.toOperand, hflat, hnest⟩
  | seq _ ih =>
      rcases ih with ⟨os, hflat, hnest⟩
      refine ⟨.seq os, ?_, Nat.succ_le_succ hnest⟩
      simp [flat, hflat, Token.plain]
  | empty => exact ⟨.nil, rfl, Nat.zero_le _⟩
  | word hk =>
      rcases Option.isSome_iff_exists.mp hk with ⟨w, hw⟩
      refine ⟨.token w, ?_, Nat.zero_le _⟩
      simp [flat, Token.plain_eq_atom_iff.mpr hw]
  | none => exact ⟨[], rfl, Nat.zero_le _⟩
  | more _ _ ih ihs =>
      -- The bound is the same for all operands of a row, so it bounds their maximum.
      rcases ih with ⟨o, hflat, hnest⟩
      rcases ihs with ⟨os, hflats, hnests⟩
      refine ⟨o :: os, ?_, Nat.max_le.mpr ⟨hnest, hnests⟩⟩
      rw [flatEach, hflat, hflats, List.map_append]

mutual

/-- The spelling of an operand is derived, by recursion on the operand. -/
theorem derives_operand (o : Operand) {n : Nat} {ts : List Token}
    (hts : ts.map Token.plain = o.flat) (hn : o.nesting ≤ n) : Derives n .operand ts := by
  cases o with
  | tree tag os =>
      exact .nested (derives_tree tag os hts hn)
  | token w =>
      rcases List.map_eq_singleton_iff.mp hts with ⟨k, rfl, hk⟩
      exact .word (Option.isSome_of_eq_some (Token.plain_eq_atom_iff.mp hk))
  | seq os =>
      have hts : _ = .openBracket :: (flatEach os ++ [.closeBracket]) := hts
      rcases bracketed_of_map hts with ⟨k, inner, c, rfl, hk, hc, hinner⟩
      rw [Token.eq_of_plain_eq hk rfl, Token.eq_of_plain_eq hc rfl]
      -- A bracket needs a bound that leaves room for it.
      cases n with
      | zero => exact absurd hn (Nat.not_succ_le_zero _)
      | succ n => exact .seq (derives_operands os hinner (Nat.le_of_succ_le_succ hn))
  | nil =>
      rcases List.map_eq_singleton_iff.mp hts with ⟨k, rfl, hk⟩
      rw [Token.eq_of_plain_eq hk rfl]
      exact .empty

theorem derives_tree (tag : String) (os : List Operand) {n : Nat} {ts : List Token}
    (hts : ts.map Token.plain = (Operand.tree tag os).flat)
    (hn : (Operand.tree tag os).nesting ≤ n) : Derives n .tree ts := by
  have hts : _ = .openParen :: ((.atom tag :: flatEach os) ++ [.closeParen]) := hts
  -- The tokens spell what the plain tokens spell, up to the way an atom is written.
  rcases bracketed_of_map hts with ⟨k, inner, c, rfl, hk, hc, hinner⟩
  rcases List.map_eq_cons_iff.mp hinner with ⟨q, inner, rfl, hq, hinner⟩
  rw [Token.eq_of_plain_eq hk rfl, Token.eq_of_plain_eq hc rfl]
  have hword := Option.isSome_of_eq_some (Token.plain_eq_atom_iff.mp hq)
  cases n with
  | zero => exact absurd hn (Nat.not_succ_le_zero _)
  | succ n => exact .tree hword (derives_operands os hinner (Nat.le_of_succ_le_succ hn))

/-- A row of operands is derived one by one. -/
theorem derives_operands (os : List Operand) {n : Nat} {ts : List Token}
    (hts : ts.map Token.plain = flatEach os) (hn : nestingEach os ≤ n) :
    Derives n .operands ts := by
  cases os with
  | nil =>
      rw [flatEach, List.map_eq_nil_iff] at hts
      rw [hts]
      exact .none
  | cons o os =>
      rcases List.map_eq_append_iff.mp hts with ⟨ts, us, rfl, ht, hu⟩
      rcases Nat.max_le.mp hn with ⟨ho, hos⟩
      exact .more (derives_operand o ht ho) (derives_operands os hu hos)

end

/-- The phrases of the grammar are what trees within the bound flatten to. -/
theorem derives_iff {n : Nat} {phrase : Phrase} {ts : List Token} :
    Derives n phrase ts ↔ phrase.Stands n ts := by
  refine ⟨stands_of_derives, fun h => ?_⟩
  cases phrase with
  | tree =>
      rcases h with ⟨t, hflat, hnest⟩
      exact derives_tree t.tag t.operands hflat.symm hnest
  | operand =>
      rcases h with ⟨o, hflat, hnest⟩
      exact derives_operand o hflat.symm hnest
  | operands =>
      rcases h with ⟨os, hflat, hnest⟩
      exact derives_operands os hflat.symm hnest

/-- A sentence is the spelling of a tree that is nested no deeper than the limit. -/
theorem sentence_iff {ts : List Token} :
    Sentence ts ↔ ∃ t : Tree, t.flat = ts.map Token.plain ∧ t.nesting ≤ maxNesting :=
  derives_iff

/-- The reader that wants one tree has not begun a second one. -/
def Reader.Only : Reader → Prop
  | .outside trees => trees.length ≤ 1
  | .tagWanted trees _ => trees = []
  | .inside trees _ => trees = []

theorem follows_step (trees : List Tree) : Follows Reader.step trees := fun _ _ _ => rfl

/-- Before a tree is complete, the reader of one tree takes the steps of the reader of a row. -/
theorem follows_stepOnly : Follows Reader.stepOnly [] := by
  intro r p hr
  cases r with
  | outside trees =>
      cases hr
      rfl
  | tagWanted _ _ => rfl
  | inside _ _ => rfl

/-- The reader of one tree takes the same steps as the reader of a row, where it takes any. -/
theorem step_of_stepOnly {r r' : Reader} {p : Placed} (h : r.stepOnly p = .ok r') :
    r.step p = .ok r' := by
  unfold Reader.stepOnly at h
  split at h
  · cases h
  · exact h

/-- It never holds more than one tree. -/
theorem only_of_stepOnly {r r' : Reader} {p : Placed} (hr : r.Only) (h : r.stepOnly p = .ok r') :
    r'.Only := by
  have hm := Reader.moves_of_step (step_of_stepOnly h)
  rcases p with ⟨k, n⟩
  cases hm with
  -- Only here could a second tree begin, and only `stepOnly` keeps it from that.
  | @openRoot trees =>
      cases trees with
      | nil => rfl
      | cons t trees => cases h
  | closeRoot => exact Nat.le_of_eq (congrArg (·.length + 1) hr)
  | tagRoot => exact hr
  | tagInner => exact hr
  | openTree => exact hr
  | openSeq => exact hr
  | closeTree => exact hr
  | closeSeq => exact hr
  | empty => exact hr
  | word => exact hr

/-- A whole reading of one tree is a reading of a row of one. -/
theorem read_of_readOnly {ps : List Placed} {r r' : Reader}
    (h : ps.foldlM Reader.stepOnly r = .ok r') : ps.foldlM Reader.step r = .ok r' := by
  induction ps generalizing r with
  | nil => exact h
  | cons p ps ih =>
      rcases exists_of_foldlM_cons h with ⟨r₁, hr₁, hrest⟩
      rw [foldlM_cons_of_ok (step_of_stepOnly hr₁)]
      exact ih hrest

theorem only_of_readOnly {ps : List Placed} {r : Reader}
    (h : ps.foldlM Reader.stepOnly (.outside []) = .ok r) : r.Only := by
  have hstart : (Reader.outside []).Only := Nat.zero_le 1
  exact foldlM_keeps (fun _ _ _ hs hstep => only_of_stepOnly hs hstep) hstart h

/-- Open brackets can be closed, which completes a tree. -/
theorem exists_closing (trees : List Tree) (n : Nat) : ∀ here : Open, here.depth = n →
    ∃ (ps : List Placed) (t : Tree),
      ps.foldlM Reader.step (.inside trees here) = .ok (.outside (t :: trees)) := by
  -- Closing a bracket pushes onto the one around it, so the induction is on their number.
  induction n with
  | zero =>
      intro here hd
      cases here <;> simp only [Open.depth, reduceCtorEq, Nat.add_eq_zero_iff, and_false] at hd
  | succ n ih =>
      intro here hd
      cases here with
      | root tag read => exact ⟨[⟨.closeParen, 1⟩], ⟨tag, read.reverse⟩, rfl⟩
      | tree tag read outer =>
          have hd := (Open.depth_push outer (.tree tag read.reverse)).trans (Nat.succ.inj hd)
          rcases ih _ hd with ⟨ps, t, h⟩
          exact ⟨⟨.closeParen, 1⟩ :: ps, t, h⟩
      | seq read outer =>
          have hd := (Open.depth_push outer (.seq read.reverse)).trans (Nat.succ.inj hd)
          rcases ih _ hd with ⟨ps, t, h⟩
          exact ⟨⟨.closeBracket, 1⟩ :: ps, t, h⟩

/-- What the reader that wants one tree has accepted can be completed to a
    tree. -/
theorem exists_completion {r : Reader} (hr : r.Only) :
    ∃ (ps : List Placed) (t : Tree), ps.foldlM Reader.step r = .ok (.outside [t]) := by
  -- Each kind of reader is completed in its own way, with an empty word as a tag
  -- where one is wanted.
  cases r with
  | outside trees =>
      match trees, hr with
      | [], _ => exact ⟨[⟨.openParen, 1⟩, ⟨.atom "", 1⟩, ⟨.closeParen, 1⟩], ⟨"", []⟩, rfl⟩
      | [t], _ => exact ⟨[], t, rfl⟩
  | tagWanted trees outer =>
      cases hr
      cases outer with
      | none => exact ⟨[⟨.atom "", 1⟩, ⟨.closeParen, 1⟩], ⟨"", []⟩, rfl⟩
      | some here =>
          rcases exists_closing [] _ (.tree "" [] here) rfl with ⟨ps, t, h⟩
          exact ⟨⟨.atom "", 1⟩ :: ps, t, h⟩
  | inside trees here =>
      cases hr
      exact exists_closing [] _ here rfl

/-- The tokens of one complete tree are a sentence that spells it. -/
theorem spelled_of_read {ps : List Placed} {t : Tree}
    (h : ps.foldlM Reader.step (.outside []) = .ok (.outside [t])) :
    t.Spelled (ps.map Placed.token) := by
  have hflat : t.flat = (ps.map Placed.token).map Token.plain := by
    have := Reader.read_flat h
    simpa [Reader.flat, Reader.flatTrees, Function.comp_def] using this
  have hfits : t.nesting ≤ maxNesting := by
    exact Reader.read_fits Reader.fits_start h t List.mem_cons_self
  exact ⟨sentence_iff.mpr ⟨t, hflat, hfits⟩, hflat⟩

/-- What the reader accepts begins a sentence, and is not all of it unless the
    reader has a complete tree. -/
theorem exists_sentence_of_readOnly {ps : List Placed} {r : Reader}
    (h : ps.foldlM Reader.stepOnly (.outside []) = .ok r) :
    ∃ rest, Sentence (ps.map Placed.token ++ rest) ∧ ((∀ t, r ≠ .outside [t]) → rest ≠ []) := by
  rcases exists_completion (only_of_readOnly h) with ⟨qs, t, hqs⟩
  -- The tokens that complete the tree are the rest of the sentence.
  refine ⟨qs.map Placed.token, ?_, fun hr hnil => ?_⟩
  · rw [← List.map_append]
    have hall : (ps ++ qs).foldlM Reader.step (.outside []) = .ok (.outside [t]) := by
      rw [foldlM_append_of_ok (read_of_readOnly h)]
      exact hqs
    exact (spelled_of_read hall).1
  · rw [List.map_eq_nil_iff.mp hnil] at hqs
    cases hqs
    exact hr t rfl

/-- The reader that wants one tree ends with just the tree that is spelled. -/
theorem readOnly_eq_ok_iff {ps : List Placed} {t : Tree} :
    ps.foldlM Reader.stepOnly (.outside []) = .ok (.outside [t]) ↔
      t.Spelled (ps.map Placed.token) := by
  refine ⟨fun h => spelled_of_read (read_of_readOnly h), fun h => ?_⟩
  rcases sentence_iff.mp h.1 with ⟨u, hflat, hnest⟩
  -- Both trees flatten to the tokens, and reading cannot end in two ways.
  have hpu : ps.map (·.token.plain) = u.flat := by rw [map_token_plain, hflat]
  have hpt : ps.map (·.token.plain) = t.flat := by rw [map_token_plain, h.2]
  have hu := (read_tree follows_stepOnly u hpu).accepts hnest
  have ht := read_tree follows_stepOnly t hpt
  by_cases hle : t.nesting ≤ maxNesting
  · exact ht.accepts hle
  · -- A deeper tree would be refused, but the tokens are read as `u`.
    rcases ht.refuses hle with ⟨q, _, he⟩
    rw [hu] at he
    cases he

theorem exists_tree_of_sentence {ts : List Token} (h : Sentence ts) : ∃ t : Tree, t.Spelled ts := by
  rcases sentence_iff.mp h with ⟨t, hflat, _⟩
  exact ⟨t, h, hflat⟩

theorem Tree.Spelled.nesting_le {t : Tree} {ts : List Token} (h : t.Spelled ts) :
    t.nesting ≤ maxNesting := by
  rw [← onLine_tokens 1 ts] at h
  exact Reader.read_fits Reader.fits_start (read_of_readOnly (readOnly_eq_ok_iff.mpr h)) t
    List.mem_cons_self

theorem SpelledRow.nesting_le {trees : List Tree} {ts : List Token} (h : SpelledRow trees ts) :
    ∀ t ∈ trees, t.nesting ≤ maxNesting := by
  induction h with
  | nil =>
      intro t ht
      cases ht
  | cons ht _ ih =>
      intro u hu
      rcases List.mem_cons.mp hu with rfl | hu
      · exact ht.nesting_le
      · exact ih u hu

/-- The reader that wants one tree goes on as long as its tokens begin some
    sentence. -/
theorem viable_iff {ps : List Placed} :
    Viable (ps.map Placed.token) ↔ ∃ r, ps.foldlM Reader.stepOnly (.outside []) = .ok r := by
  constructor
  · rintro ⟨rest, h⟩
    rcases exists_tree_of_sentence h with ⟨t, ht⟩
    -- The rest of the sentence is given some line, as the reader wants one.
    rw [← onLine_tokens 1 rest, ← List.map_append] at ht
    rcases exists_of_foldlM_append (readOnly_eq_ok_iff.mpr ht) with ⟨r, hr, _⟩
    exact ⟨r, hr⟩
  · rintro ⟨r, hr⟩
    rcases exists_sentence_of_readOnly hr with ⟨rest, hrest, _⟩
    exact ⟨rest, hrest⟩

/-- A beginning of a viable beginning is viable. -/
theorem viable_take {ps : List Placed} {i j : Nat} (hij : j ≤ i)
    (h : Viable ((ps.take i).map Placed.token)) : Viable ((ps.take j).map Placed.token) := by
  -- What lies between the two places begins the rest of the sentence.
  have hsplit := List.take_append_drop j (ps.take i)
  rw [List.take_take, Nat.min_eq_left hij] at hsplit
  rcases h with ⟨rest, h⟩
  rw [← hsplit, List.map_append, List.append_assoc] at h
  exact ⟨_, h⟩

/-- An error that says of a token that it cannot stand where it stands. -/
def Placed.Blamed (p : Placed) (e : ReadError) : Prop :=
  e = .unexpected p.token p.line ∨ e = .tagExpected p.token p.line ∨
    e = .tooDeep maxNesting p.line

/-- Each error of a step blames the token it stands at, and says what is wrong with it. -/
theorem blamed_of_step {r : Reader} {p : Placed} {e : ReadError} (h : r.step p = .error e) :
    p.Blamed e := by
  rcases p with ⟨k, n⟩
  -- The same cases as for the moves, of which these are the ones that are missing.
  cases r with
  | outside trees =>
      cases k <;> simp only [Reader.step, Reader.stepOutside, reduceCtorEq, Except.error.injEq] at h
      all_goals exact .inl h.symm
  | tagWanted trees outer =>
      cases hk : k.word? with
      | none =>
          simp only [Reader.step, Reader.stepTag, hk, Except.error.injEq] at h
          exact .inr (.inl h.symm)
      | some tag => cases outer <;> simp only [Reader.step, Reader.stepTag, hk, reduceCtorEq] at h
  | inside trees here =>
      cases k with
      | openParen =>
          simp only [Reader.step, Reader.stepInside] at h
          split at h <;> cases h
          exact .inr (.inr rfl)
      | openBracket =>
          simp only [Reader.step, Reader.stepInside] at h
          split at h <;> cases h
          exact .inr (.inr rfl)
      | closeParen => cases here <;> cases h; exact .inl rfl
      | closeBracket => cases here <;> cases h <;> exact .inl rfl
      | nil => cases h
      | quoted w => cases h
      | atom w => cases h

/-- A token that the reader of one tree refuses stands behind the tree, or is
    blamed for where it stands. -/
theorem stepOnly_error {r : Reader} {p : Placed} {e : ReadError} (hr : r.Only)
    (h : r.stepOnly p = .error e) :
    (∃ t, r = .outside [t] ∧ e = .trailing p.token p.line) ∨ p.Blamed e := by
  unfold Reader.stepOnly at h
  split at h
  · -- A complete tree has been read, and whatever comes next is trailing.
    rename_i t trees
    cases h
    exact .inl ⟨t, by rw [List.length_eq_zero_iff.mp (Nat.le_zero.mp (Nat.le_of_succ_le_succ hr))],
      rfl⟩
  · exact .inr (blamed_of_step h)

end TreeScript
