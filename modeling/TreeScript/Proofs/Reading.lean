import TreeScript.Proofs.Flat
import TreeScript.Proofs.Fold
import TreeScript.Tree.Read

/-!
# What the Reader Keeps

The reader between two tokens, seen from the tokens it has read. `Reader.flat`
writes out what the reader holds, the complete trees as well as the brackets
still open, and `step_flat` says that a step appends exactly the token read. So
whatever a run ends with is spelled by the tokens of the run, without any
induction on trees.

The way back is an induction on trees: an operand that is spelled out inside
open brackets is read and pushed onto the innermost of them, if the brackets
allow its nesting, and is refused at one of its own brackets otherwise.

Both directions carry the bound on nesting. `Fits` is the invariant that keeps
it: every operand read so far fits under the brackets around it.

## Main definitions

* `Open.flat`, `Reader.flat`: The plain tokens that have been read.
* `Open.Fits`, `Reader.Fits`: Nothing read so far is nested too deeply.
* `Reader.Moves`: The steps of the reader that succeed.
* `Follows`: A step function that goes along with the reader.
* `Reads`: How tokens are read between two states, or refused.

## Theorems

* `Reader.step_flat`, `Reader.step_fits`: What a step does to both.
* `Reader.read_flat`, `Reader.read_fits`: The same of a run.
* `read_operand`, `read_operands`: Reading operands inside brackets.
* `read_tree`: Reading a tree that stands in no bracket.
-/

namespace TreeScript

open Operand

namespace Open

/-- The plain tokens of the open brackets and of what stands in them. -/
def flat : Open → List Token
  | .root tag read => .openParen :: .atom tag :: flatEach read.reverse
  | .tree tag read outer => outer.flat ++ (.openParen :: .atom tag :: flatEach read.reverse)
  | .seq read outer => outer.flat ++ (.openBracket :: flatEach read.reverse)

/-- Everything in the open brackets is nested as deep as allowed at most. -/
def Fits : Open → Prop
  | .root _ read => 1 + nestingEach read ≤ maxNesting
  | .tree _ read outer => outer.depth + 1 + nestingEach read ≤ maxNesting ∧ outer.Fits
  | .seq read outer => outer.depth + 1 + nestingEach read ≤ maxNesting ∧ outer.Fits

theorem flat_push (here : Open) (o : Operand) : (here.push o).flat = here.flat ++ o.flat := by
  cases here <;> simp [push, flat, flatEach_append, flatEach]

@[simp]
theorem depth_push (here : Open) (o : Operand) : (here.push o).depth = here.depth := by
  cases here <;> rfl

/-- A node that has one more operand fits when the operand does. -/
theorem fits_push {here : Open} {o : Operand} (hh : here.Fits)
    (ho : here.depth + o.nesting ≤ maxNesting) : (here.push o).Fits := by
  cases here with
  | root tag read =>
      simp only [push, Fits, nestingEach, depth] at hh ho ⊢
      omega
  | tree tag read outer =>
      simp only [push, Fits, nestingEach, depth] at hh ho ⊢
      exact ⟨by omega, hh.2⟩
  | seq read outer =>
      simp only [push, Fits, nestingEach, depth] at hh ho ⊢
      exact ⟨by omega, hh.2⟩

/-- The same brackets with operands pushed one after the other. -/
def pushEach (os : List Operand) : Open → Open
  | .root tag read => .root tag (os.reverse ++ read)
  | .tree tag read outer => .tree tag (os.reverse ++ read) outer
  | .seq read outer => .seq (os.reverse ++ read) outer

theorem pushEach_nil (here : Open) : here.pushEach [] = here := by
  cases here <;> rfl

theorem pushEach_cons (here : Open) (o : Operand) (os : List Operand) :
    here.pushEach (o :: os) = (here.push o).pushEach os := by
  cases here <;> simp [pushEach, push]

theorem depth_le_of_fits {here : Open} (h : here.Fits) : here.depth ≤ maxNesting := by
  cases here <;> simp only [Fits, depth] at h ⊢ <;> omega

end Open

namespace Reader

/-- The plain tokens of trees that stand in a row. -/
def flatTrees (trees : List Tree) : List Token := trees.flatMap Tree.flat

/-- The plain tokens of everything that has been read. -/
def flat : Reader → List Token
  | .outside trees => flatTrees trees.reverse
  | .tagWanted trees outer =>
    flatTrees trees.reverse ++ ((outer.map Open.flat).getD [] ++ [.openParen])
  | .inside trees here => flatTrees trees.reverse ++ here.flat

/-- Everything that has been read is nested as deep as allowed at most. -/
def Fits : Reader → Prop
  | .outside trees => ∀ t ∈ trees, t.nesting ≤ maxNesting
  | .tagWanted trees outer =>
    (∀ t ∈ trees, t.nesting ≤ maxNesting) ∧ ∀ o ∈ outer, o.Fits ∧ o.depth < maxNesting
  | .inside trees here => (∀ t ∈ trees, t.nesting ≤ maxNesting) ∧ here.Fits

/-- Where nothing has been read, nothing is nested. -/
theorem fits_start : Fits (.outside []) := fun _ ht => by cases ht

theorem flatTrees_append (ts us : List Tree) :
    flatTrees (ts ++ us) = flatTrees ts ++ flatTrees us := List.flatMap_append

theorem flatTrees_singleton (t : Tree) : flatTrees [t] = t.flat := List.flatMap_singleton ..

/-- The trees that are complete, latest first. -/
def trees : Reader → List Tree
  | .outside trees => trees
  | .tagWanted trees _ => trees
  | .inside trees _ => trees

/-- What a token can do to a reader. -/
inductive Moves : Reader → Token → Reader → Prop
  | openRoot {trees : List Tree} : Moves (.outside trees) .openParen (.tagWanted trees none)
  | tagRoot {trees : List Tree} {k : Token} {tag : String} (hk : k.word? = some tag) :
      Moves (.tagWanted trees none) k (.inside trees (.root tag []))
  | tagInner {trees : List Tree} {here : Open} {k : Token} {tag : String}
      (hk : k.word? = some tag) :
      Moves (.tagWanted trees (some here)) k (.inside trees (.tree tag [] here))
  | openTree {trees : List Tree} {here : Open} (hd : here.depth < maxNesting) :
      Moves (.inside trees here) .openParen (.tagWanted trees (some here))
  | openSeq {trees : List Tree} {here : Open} (hd : here.depth < maxNesting) :
      Moves (.inside trees here) .openBracket (.inside trees (.seq [] here))
  | closeRoot {trees : List Tree} {tag : String} {read : List Operand} :
      Moves (.inside trees (.root tag read)) .closeParen (.outside (⟨tag, read.reverse⟩ :: trees))
  | closeTree {trees : List Tree} {tag : String} {read : List Operand} {outer : Open} :
      Moves (.inside trees (.tree tag read outer)) .closeParen
        (.inside trees (outer.push (.tree tag read.reverse)))
  | closeSeq {trees : List Tree} {read : List Operand} {outer : Open} :
      Moves (.inside trees (.seq read outer)) .closeBracket
        (.inside trees (outer.push (.seq read.reverse)))
  | empty {trees : List Tree} {here : Open} :
      Moves (.inside trees here) .nil (.inside trees (here.push .nil))
  | word {trees : List Tree} {here : Open} {k : Token} {w : String} (hk : k.word? = some w) :
      Moves (.inside trees here) k (.inside trees (here.push (.token w)))

/-- Every step of the reader is one of the moves. The cases are those of the token and, for each
    of them, of the node that is open. -/
theorem moves_of_step {r r' : Reader} {p : Placed} (h : r.step p = .ok r') :
    Moves r p.token r' := by
  rcases p with ⟨k, n⟩
  -- A case for each row of the reader: no token but one goes on outside, and behind
  -- a bracket it has to be a word.
  cases r with
  | outside trees =>
      cases k <;> simp only [step, stepOutside, reduceCtorEq, Except.ok.injEq] at h
      rw [← h]
      exact .openRoot
  | tagWanted trees outer =>
      cases hk : k.word? with
      | none => simp only [step, stepTag, hk, reduceCtorEq] at h
      | some tag =>
          cases outer <;> simp only [step, stepTag, hk, Except.ok.injEq] at h <;> rw [← h]
          · exact .tagRoot hk
          · exact .tagInner hk
  | inside trees here =>
      cases k with
      | openParen =>
          by_cases hd : here.depth < maxNesting
          · simp only [step, stepInside, if_pos hd, Except.ok.injEq] at h
            rw [← h]
            exact .openTree hd
          · simp only [step, stepInside, if_neg hd, reduceCtorEq] at h
      | openBracket =>
          by_cases hd : here.depth < maxNesting
          · simp only [step, stepInside, if_pos hd, Except.ok.injEq] at h
            rw [← h]
            exact .openSeq hd
          · simp only [step, stepInside, if_neg hd, reduceCtorEq] at h
      | closeParen =>
          cases here <;>
            simp only [step, stepInside, Reader.closeTree, reduceCtorEq, Except.ok.injEq] at h <;>
            rw [← h]
          · exact .closeRoot
          · exact .closeTree
      | closeBracket =>
          cases here <;>
            simp only [step, stepInside, Reader.closeSeq, reduceCtorEq, Except.ok.injEq] at h
          rw [← h]
          exact .closeSeq
      | nil =>
          simp only [step, stepInside, Except.ok.injEq] at h
          rw [← h]
          exact .empty
      | quoted w =>
          simp only [step, stepInside, Except.ok.injEq] at h
          rw [← h]
          exact .word rfl
      | atom w =>
          simp only [step, stepInside, Except.ok.injEq] at h
          rw [← h]
          exact .word rfl

/-- The converse: each move is a step the reader takes. -/
theorem step_of_moves {r r' : Reader} {p : Placed} (h : Moves r p.token r') :
    r.step p = .ok r' := by
  rcases p with ⟨k, n⟩
  cases h with
  | openRoot => rfl
  | tagRoot hk => simp only [step, stepTag, hk]
  | tagInner hk => simp only [step, stepTag, hk]
  | openTree hd => simp only [step, stepInside, if_pos hd]
  | openSeq hd => simp only [step, stepInside, if_pos hd]
  | closeRoot => rfl
  | closeTree => rfl
  | closeSeq => rfl
  | empty => rfl
  | word hk =>
      -- Bare and quoted words are read alike.
      cases k <;> simp only [Token.word?, reduceCtorEq, Option.some.injEq] at hk <;> rw [← hk] <;>
        rfl

/-- A step appends the token that it reads. -/
theorem step_flat {r r' : Reader} {p : Placed} (h : r.step p = .ok r') :
    r'.flat = r.flat ++ [p.token.plain] := by
  have hm := moves_of_step h
  -- Only the token counts from here on, not where it stands.
  generalize p.token = k at hm
  cases hm with
  | openRoot => simp [flat, Token.plain]
  | tagRoot hk => simp [flat, Open.flat, flatEach, Token.plain_eq_atom_iff.mpr hk]
  | tagInner hk => simp [flat, Open.flat, flatEach, Token.plain_eq_atom_iff.mpr hk]
  | openTree => simp [flat, Token.plain]
  | openSeq => simp [flat, Open.flat, flatEach, Token.plain]
  | closeRoot =>
      simp [flat, Open.flat, flatTrees_append, flatTrees_singleton, Tree.flat, Tree.toOperand,
        Operand.flat, Token.plain]
  | closeTree => simp [flat, Open.flat, Open.flat_push, Operand.flat, Token.plain]
  | closeSeq => simp [flat, Open.flat, Open.flat_push, Operand.flat, Token.plain]
  | empty => simp [flat, Open.flat_push, Operand.flat, Token.plain]
  | word hk => simp [flat, Open.flat_push, Operand.flat, Token.plain_eq_atom_iff.mpr hk]

/-- A step reads nothing that is nested too deeply. -/
theorem step_fits {r r' : Reader} {p : Placed} (hr : r.Fits) (h : r.step p = .ok r') :
    r'.Fits := by
  have hm := moves_of_step h
  generalize p.token = k at hm
  cases hm with
  | openRoot => exact ⟨hr, by simp⟩
  | tagRoot => exact ⟨hr.1, by simp only [Open.Fits, nestingEach, maxNesting]; omega⟩
  | tagInner =>
      rcases hr.2 _ rfl with ⟨hf, hd⟩
      exact ⟨hr.1, by simp only [nestingEach]; omega, hf⟩
  | openTree hd =>
      refine ⟨hr.1, fun o ho => ?_⟩
      cases ho
      exact ⟨hr.2, hd⟩
  | openSeq hd => exact ⟨hr.1, by simp only [nestingEach]; omega, hr.2⟩
  | @closeRoot trees tag read =>
      -- The brackets of the tree itself count for one.
      have hroot : nestingEach read + 1 ≤ maxNesting := by
        have := hr.2
        simp only [Open.Fits] at this
        omega
      intro t ht
      rcases List.mem_cons.mp ht with rfl | ht
      · simpa only [Tree.nesting, Tree.toOperand, nesting, nestingEach_reverse] using hroot
      · exact hr.1 t ht
  | @closeTree trees tag read outer =>
      -- What the closed brackets held has been counted below the ones around them.
      refine ⟨hr.1, Open.fits_push hr.2.2 ?_⟩
      have := hr.2.1
      simp only [nesting, nestingEach_reverse]
      omega
  | @closeSeq trees read outer =>
      refine ⟨hr.1, Open.fits_push hr.2.2 ?_⟩
      have := hr.2.1
      simp only [nesting, nestingEach_reverse]
      omega
  | @empty trees here =>
      exact ⟨hr.1, Open.fits_push hr.2 (Open.depth_le_of_fits hr.2)⟩
  | @word trees here =>
      exact ⟨hr.1, Open.fits_push hr.2 (Open.depth_le_of_fits hr.2)⟩

/-- A run appends the tokens that it reads. -/
theorem read_flat {ps : List Placed} {r r' : Reader} (h : ps.foldlM step r = .ok r') :
    r'.flat = r.flat ++ ps.map (·.token.plain) := by
  induction ps generalizing r with
  | nil =>
      cases h
      simp
  | cons p ps ih =>
      rcases exists_of_foldlM_cons h with ⟨r₁, hr₁, hrest⟩
      rw [ih hrest, step_flat hr₁]
      simp

/-- A run reads nothing that is nested too deeply. -/
theorem read_fits {ps : List Placed} {r r' : Reader} (hr : r.Fits)
    (h : ps.foldlM step r = .ok r') : r'.Fits :=
  foldlM_keeps (fun _ _ _ hs hstep => step_fits hs hstep) hr h

end Reader

/-- A way of reading that follows the reader's step wherever the given trees are
    the complete ones. -/
def Follows (f : Reader → Placed → Except ReadError Reader) (trees : List Tree) : Prop :=
  ∀ r p, r.trees = trees → f r p = r.step p

/-- Reading tokens gets the reader from one place to another if they are allowed
    there, and fails at a bracket that is one too many if they are not. -/
structure Reads (f : Reader → Placed → Except ReadError Reader) (allowed : Prop)
    (ps : List Placed) (r r' : Reader) : Prop where
  accepts : allowed → ps.foldlM f r = .ok r'
  refuses : ¬ allowed → ∃ p ∈ ps, ps.foldlM f r = .error (.tooDeep maxNesting p.line)

section

variable {f : Reader → Placed → Except ReadError Reader} {allowed more : Prop} {p : Placed}
  {ps qs : List Placed} {r r₁ r₂ : Reader} {trees : List Tree} {here : Open}

namespace Reads

theorem cons (h : f r p = .ok r₁) (hrest : Reads f allowed ps r₁ r₂) :
    Reads f allowed (p :: ps) r r₂ := by
  refine ⟨fun ha => ?_, fun hn => ?_⟩
  · rw [foldlM_cons_of_ok h]
    exact hrest.accepts ha
  · rcases hrest.refuses hn with ⟨q, hq, he⟩
    exact ⟨q, List.mem_cons_of_mem p hq, by rw [foldlM_cons_of_ok h, he]⟩

/-- Readings of two stretches make a reading of both. -/
theorem append (h₁ : Reads f allowed ps r r₁) (h₂ : Reads f more qs r₁ r₂) :
    Reads f (allowed ∧ more) (ps ++ qs) r r₂ := by
  refine ⟨fun ha => ?_, fun hn => ?_⟩
  · rw [foldlM_append_of_ok (h₁.accepts ha.1)]
    exact h₂.accepts ha.2
  · -- The first part that is not allowed is the one that fails.
    by_cases ha : allowed
    · rcases h₂.refuses (fun hm => hn ⟨ha, hm⟩) with ⟨q, hq, he⟩
      refine ⟨q, List.mem_append_right ps hq, ?_⟩
      rw [foldlM_append_of_ok (h₁.accepts ha), he]
    · rcases h₁.refuses ha with ⟨q, hq, he⟩
      exact ⟨q, List.mem_append_left qs hq, foldlM_append_of_error he⟩

theorem last (h : Reads f allowed ps r r₁) (hlast : f r₁ p = .ok r₂) :
    Reads f allowed (ps ++ [p]) r r₂ := by
  have hone : Reads f True [p] r₁ r₂ :=
    cons hlast ⟨fun _ => rfl, fun hn => absurd trivial hn⟩
  have := h.append hone
  rwa [and_true] at this

theorem of_iff (h : Reads f allowed ps r r₁) (hiff : allowed ↔ more) : Reads f more ps r r₁ := by
  rwa [propext hiff] at h

/-- A token that is an operand by itself adds no nesting. -/
theorem leaf (h : f (.inside trees here) p = .ok r₁) (hd : here.depth ≤ maxNesting) :
    Reads f (here.depth + 0 ≤ maxNesting) [p] (.inside trees here) r₁ :=
  cons h ⟨fun _ => rfl, fun hn => absurd hd hn⟩

/-- A bracket inside as many open brackets as there may be is refused. -/
theorem of_full (hf : Follows f trees) (hp : p.token = .openParen ∨ p.token = .openBracket)
    (hd : here.depth = maxNesting) (hn : ¬ allowed) :
    Reads f allowed (p :: ps) (.inside trees here) r₁ := by
  refine ⟨fun ha => absurd ha hn, fun _ => ⟨p, List.mem_cons_self, ?_⟩⟩
  have hfull : ¬ here.depth < maxNesting := by omega
  have hstep : f (.inside trees here) p = .error (.tooDeep maxNesting p.line) := by
    rw [hf _ p rfl]
    rcases hp with hp | hp <;> simp only [Reader.step, Reader.stepInside, hp, if_neg hfull]
  rw [List.foldlM_cons, hstep]
  rfl

end Reads

theorem Follows.of_moves {k : Token} (hf : Follows f trees) (hr : r.trees = trees)
    (hk : p.token = k) (h : Reader.Moves r k r₁) : f r p = .ok r₁ := by
  subst hk
  rw [hf r p hr, Reader.step_of_moves h]

mutual

/-- An operand that is spelled out inside brackets is pushed onto the innermost,
    unless it is nested too deeply. -/
theorem read_operand (hf : Follows f trees) (o : Operand) {ps : List Placed} (here : Open)
    (hps : ps.map (·.token.plain) = o.flat) (hd : here.depth ≤ maxNesting) :
    Reads f (here.depth + o.nesting ≤ maxNesting) ps (.inside trees here)
      (.inside trees (here.push o)) := by
  cases o with
  | tree tag os =>
      have hps : _ = .openParen :: ((.atom tag :: flatEach os) ++ [.closeParen]) := hps
      rcases bracketed_of_map hps with ⟨p, inner, c, rfl, hp, hc, hinner⟩
      rcases List.map_eq_cons_iff.mp hinner with ⟨q, inner, rfl, hq, hinner⟩
      have hp := Token.eq_of_plain_eq hp rfl
      have hc := Token.eq_of_plain_eq hc rfl
      have hq := Token.plain_eq_atom_iff.mp hq
      -- Either there is room for the bracket that opens the tree, or that one fails.
      rcases Nat.lt_or_eq_of_le hd with hlt | heq
      · have hin := read_operands hf os (.tree tag [] here) hinner hlt
        have hread := hin.last (hf.of_moves rfl hc .closeTree)
        have hread := Reads.cons (hf.of_moves rfl rfl (.tagInner hq)) hread
        have hread := Reads.cons (hf.of_moves rfl hp (.openTree hlt)) hread
        rw [List.append_nil, List.reverse_reverse] at hread
        -- The operands have been counted from one level further in.
        refine hread.of_iff ?_
        simp only [Open.depth, nesting]
        omega
      · exact Reads.of_full hf (.inl hp) heq (by simp only [nesting]; omega)
  | token w =>
      rcases List.map_eq_singleton_iff.mp hps with ⟨p, rfl, hp⟩
      exact .leaf (hf.of_moves rfl rfl (.word (Token.plain_eq_atom_iff.mp hp))) hd
  | seq os =>
      have hps : _ = .openBracket :: (flatEach os ++ [.closeBracket]) := hps
      rcases bracketed_of_map hps with ⟨p, inner, c, rfl, hp, hc, hinner⟩
      have hp := Token.eq_of_plain_eq hp rfl
      have hc := Token.eq_of_plain_eq hc rfl
      rcases Nat.lt_or_eq_of_le hd with hlt | heq
      · have hin := read_operands hf os (.seq [] here) hinner hlt
        have hread := hin.last (hf.of_moves rfl hc .closeSeq)
        have hread := Reads.cons (hf.of_moves rfl hp (.openSeq hlt)) hread
        rw [List.append_nil, List.reverse_reverse] at hread
        refine hread.of_iff ?_
        simp only [Open.depth, nesting]
        omega
      · exact Reads.of_full hf (.inr hp) heq (by simp only [nesting]; omega)
  | nil =>
      rcases List.map_eq_singleton_iff.mp hps with ⟨p, rfl, hp⟩
      exact .leaf (hf.of_moves rfl (Token.eq_of_plain_eq hp rfl) .empty) hd

/-- The same for operands that stand in a row. -/
theorem read_operands (hf : Follows f trees) (os : List Operand) {ps : List Placed} (here : Open)
    (hps : ps.map (·.token.plain) = flatEach os) (hd : here.depth ≤ maxNesting) :
    Reads f (here.depth + nestingEach os ≤ maxNesting) ps (.inside trees here)
      (.inside trees (here.pushEach os)) := by
  cases os with
  | nil =>
      rw [flatEach, List.map_eq_nil_iff] at hps
      rw [hps, Open.pushEach_nil]
      exact ⟨fun _ => rfl, fun hn => absurd hd hn⟩
  | cons o os =>
      rcases List.map_eq_append_iff.mp hps with ⟨ps, qs, rfl, hp, hq⟩
      have hfirst := read_operand hf o here hp hd
      -- The other operands are read with the first one pushed.
      have hrest := read_operands hf os (here.push o) hq (by rwa [Open.depth_push])
      rw [Open.depth_push] at hrest
      rw [Open.pushEach_cons]
      refine (hfirst.append hrest).of_iff ?_
      simp only [nestingEach]
      omega

end

/-- A tree that is spelled out where no bracket is open is read, unless it is
    nested too deeply. -/
theorem read_tree (hf : Follows f trees) (t : Tree) {ps : List Placed}
    (hps : ps.map (·.token.plain) = t.flat) :
    Reads f (t.nesting ≤ maxNesting) ps (.outside trees) (.outside (t :: trees)) := by
  have hps : _ = .openParen :: ((.atom t.tag :: flatEach t.operands) ++ [.closeParen]) := hps
  rcases bracketed_of_map hps with ⟨p, inner, c, rfl, hp, hc, hinner⟩
  rcases List.map_eq_cons_iff.mp hinner with ⟨q, inner, rfl, hq, hinner⟩
  have hp := Token.eq_of_plain_eq hp rfl
  have hc := Token.eq_of_plain_eq hc rfl
  have hq := Token.plain_eq_atom_iff.mp hq
  -- Outside of all brackets there is always room for one.
  have hroot : (Open.root t.tag []).depth ≤ maxNesting := by
    simp only [Open.depth, maxNesting]
    omega
  have hin := read_operands hf t.operands (.root t.tag []) hinner hroot
  have hread := hin.last (hf.of_moves rfl hc .closeRoot)
  have hread := Reads.cons (hf.of_moves rfl rfl (.tagRoot hq)) hread
  have hread := Reads.cons (hf.of_moves rfl hp .openRoot) hread
  rw [List.append_nil, List.reverse_reverse] at hread
  refine hread.of_iff ?_
  simp only [Open.depth, Tree.nesting, Tree.toOperand, nesting]
  omega

end

end TreeScript
