import TreeScript.Proofs.LineBreaks

/-!
# One Line at a Time

The tokens of a text are those of its lines, each line scanned as a text of its own. Nothing
that is pending at a line break goes on behind it: a comment and a bare word end there, and a
quoted word that is still open there is wrong whatever follows. So the first line with
something wrong decides on the error of the text, and no other line has a part in what that
error says.

The lemma for two parts is proved of scans that begin at any line, and not only at the
first one: in the induction over the lines, what is left of a text begins further down
each time, and the lines it reports have to be those of the whole text. Moving a scan
twice is moving it once by the sum, and that is all that is needed of the counting.

The induction is on the number of line breaks, so that the first line is split off with
the break that ends it. A text without a break is one line, also if it is empty.

## Main definitions

* `tokensBelow`: The tokens of a text that begins further down.

## Theorems

* `tokensBelow_append_lineBreak`: The tokens of two parts that begin further down.
* `tokensBelow_splitOn`: The tokens of the lines of a text, in order.
* `scanning_is_line_local`: The tokens of a text in two parts, and line by line.
* `ReadError.moved_moved`, `Placed.moved_moved`: Moving further down adds up.
* `tokensBelow_zero`: A text that begins at the top.
-/

namespace TreeScript

/-- The tokens of a text that begins so many lines further down, or what is wrong with it
    there. -/
def tokensBelow (k : Nat) (source : String) : Except ReadError (List Placed) :=
  ((tokens source).map (List.map (Placed.moved k))).mapError (ReadError.moved k)

theorem ReadError.moved_moved (k l : Nat) (e : ReadError) :
    (e.moved l).moved k = e.moved (k + l) := by
  cases e <;> simp only [moved, Nat.add_assoc]

theorem ReadError.moved_zero (e : ReadError) : e.moved 0 = e := by
  cases e <;> simp only [moved, Nat.zero_add]

theorem Placed.moved_moved (k l : Nat) (p : Placed) : (p.moved l).moved k = p.moved (k + l) := by
  simp only [moved, Nat.add_assoc]

theorem Placed.moved_zero (p : Placed) : p.moved 0 = p := by
  simp only [moved, Nat.zero_add]

theorem tokensBelow_zero (source : String) : tokensBelow 0 source = tokens source := by
  rw [tokensBelow]
  cases tokens source with
  | error e => exact congrArg Except.error e.moved_zero
  | ok ps => exact congrArg Except.ok (ps.map_id'' Placed.moved_zero)

/-- The tokens of two parts that begin further down. -/
theorem tokensBelow_append_lineBreak (k : Nat) (source rest : String) :
    tokensBelow k (source ++ "\n" ++ rest) = (tokensBelow k source).bind fun ps =>
      (tokensBelow (k + linesOf source) rest).map (ps ++ ·) := by
  rw [tokensBelow, tokens_append_lineBreak, tokensBelow, tokensBelow]
  cases tokens source with
  | error e => rfl
  | ok ps =>
      -- An error in the rest is moved twice, and so are its tokens.
      cases tokens rest with
      | error e => exact congrArg Except.error (e.moved_moved _ _)
      | ok qs =>
          refine congrArg Except.ok ?_
          rw [List.map_append, List.map_map]
          exact congrArg (_ ++ ·) (qs.map_congr_left fun q _ => q.moved_moved _ _)

/-- The tokens of the lines of a text, in order, are those of the text. -/
theorem tokensBelow_splitOn (k : Nat) (source : String) : tokensBelow k source =
    (((source.toList.splitOn '\n').zipIdx k).mapM fun line =>
      tokensBelow line.2 (String.ofList line.1)).map List.flatten := by
  -- By induction on the number of line breaks, each time up to the first one.
  induction hbreaks : source.toList.count '\n' generalizing k source with
  | zero =>
      -- There is one line, the text itself.
      rw [List.splitOn_eq_singleton (List.count_eq_zero.mp hbreaks), List.zipIdx_singleton,
        List.mapM_cons, String.ofList_toList]
      cases tokensBelow k source with
      | error e => rfl
      | ok ps => exact congrArg Except.ok (List.append_nil ps).symm
  | succ n ih =>
      have hmem : '\n' ∈ source.toList := List.count_pos_iff.mp (hbreaks ▸ n.succ_pos)
      rcases List.eq_append_cons_of_mem hmem with ⟨line, rest, hsource, hline⟩
      have htext : source = String.ofList line ++ "\n" ++ String.ofList rest := by
        rw [← String.toList_inj, hsource]
        simp
      have hrest : (String.ofList rest).toList.count '\n' = n := by
        rw [hsource, List.count_append, List.count_eq_zero.mpr hline,
          List.count_cons_self] at hbreaks
        rw [String.toList_ofList]
        omega
      have hlines : linesOf (String.ofList line) = 1 := by
        rw [linesOf, String.toList_ofList, List.count_eq_zero.mpr hline]
      rw [hsource, List.splitOn_append_cons_self_of_not_mem hline, htext,
        tokensBelow_append_lineBreak, hlines, ih _ _ hrest, String.toList_ofList, List.zipIdx_cons,
        List.mapM_cons]
      cases tokensBelow k (String.ofList line) with
      | error e => rfl
      | ok ps =>
          cases ((rest.splitOn '\n').zipIdx (k + 1)).mapM fun line =>
              tokensBelow line.2 (String.ofList line.1) with
          | error e => rfl
          | ok rows => exact congrArg Except.ok (List.flatten_cons).symm

/-- The tokens of a text in two parts are those of the first part and then those of the second
    one, further down by the lines of the first one. If there is something wrong with the first
    part, that is wrong with the whole, and otherwise what is wrong with the second part is, as
    far down. Line by line, the tokens are those that each line has by itself, and the first
    line with something wrong decides on the error. -/
theorem scanning_is_line_local (source rest : String) :
    (tokens (source ++ "\n" ++ rest) = match tokens source, tokens rest with
      | .error e, _ => .error e
      | .ok ps, .ok qs => .ok (ps ++ qs.map (Placed.moved (source.toList.count '\n' + 1)))
      | .ok _, .error e => .error (e.moved (source.toList.count '\n' + 1))) ∧
    tokens source = ((source.toList.splitOn '\n').zipIdx.mapM fun line =>
      tokensBelow line.2 (String.ofList line.1)).map List.flatten := by
  constructor
  · rw [tokens_append_lineBreak]
    cases tokens source with
    | error e => rfl
    | ok ps => cases tokens rest <;> rfl
  · rw [← tokensBelow_zero, tokensBelow_splitOn]

-- The quote in the comment opens nothing, and the backslash does not reach the second line.
example : tokens "a ; \"\n\"b\\\n\"" = .error (.unterminated 2) := by rfl

end TreeScript
