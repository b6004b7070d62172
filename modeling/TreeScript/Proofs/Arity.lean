import Mathlib
import TreeScript.Proofs.Calls

/-!
# The Number of Operands of Array Forms

An array form is followed by one operand for each dimension. The forms that use an
element have the name of the array in front of them, and an assignment has the value
behind them. How many there are is a sum, and it is formed before anything else is done,
in a word of 64 bits. A tag may spell every rank that fits in a word, so for the greatest
ranks there is no such sum, and the run is given up on the spot.

Wherever there is a sum, it is the number of operands that is asked for. A tree with
another number is refused before anything is looked up or evaluated. In one with that
number there is an operand wherever the rule looks for one, and no other sum is too great:
the loop over the operands in the middle goes up to a place in front of the last one, and
the operand behind it is at a place that the check has counted already. What can still go
wrong in these ways goes wrong in a tree inside.

All three forms begin in the same way, so the check is dealt with once, in
`exists_behind_check`. What is behind it is a matter of each form, and is proved with a
discipline, `completeDiscipline`, that is told which failures are known already: those of
the trees inside.

## Main definitions

* `Form.surplus?`: The rank of an array form, and how many operands it has besides.
* `Failure.isLost`: A missing operand, or a panic.
* `completeDiscipline`: The actions that only fail in such a way if it is known of others.

## Theorems

* `rank_of_ofTag?`: The ranks that tags spell.
* `exists_behind_check`: All array forms begin with the check.
* `refused_of_length_ne`: Trees with a wrong number of operands are refused at once.
* `panics_of_sum`: Where there is no sum, the run is given up at once.
* `complete_of_length_eq`: In all other trees, no operand is missing.
* `lost_inside`: What is lost in such a tree is lost in a tree inside.
* `array_arity_is_counted`: The number of operands of array forms.
-/

namespace TreeScript

/-- The rank of an array form, and the number of its operands besides those for the
    dimensions. -/
def Form.surplus? : Form → Option (Nat × Nat)
  | .arrayNew rank => some (rank, 0)
  | .arrayAccess rank => some (rank, 1)
  | .arrayAssign rank => some (rank, 2)
  | _ => none

variable {t : Tree} {form : Form} {rank surplus : Nat} {tag : String} {eval : Evaluator}

/-- What is read as a rank lies between the bounds. -/
theorem rank?_bounds {suffix : List Char} (h : rank? suffix = some rank) :
    0 < rank ∧ rank ≤ maxRank := by
  unfold rank? at h
  split at h
  · split at h
    · cases h
    · split at h
      · simp only [Option.ite_none_right_eq_some, Bool.and_eq_true, decide_eq_true_eq,
          Option.some.injEq] at h
        rcases h with ⟨hbounds, rfl⟩
        exact hbounds
      · cases h
  · cases h

/-- The forms with one fixed tag are no array forms. -/
theorem surplus?_of_lookup (h : Form.tags.lookup tag = some form) : form.surplus? = none := by
  have hall : ∀ entry ∈ Form.tags, entry.2.surplus? = none := by decide
  rcases List.lookup_eq_some_iff.mp h with ⟨before, after, htags, _⟩
  exact hall (tag, form) (by simp [htags])

/-- All stems read the rank in the same way. -/
theorem rank_of_ofStem? {stem : String × (Nat → Form)} (hs : stem ∈ Form.stems)
    (h : Form.ofStem? tag stem = some form) (hsplit : form.surplus? = some (rank, surplus)) :
    0 < rank ∧ rank ≤ maxRank := by
  rcases Option.bind_eq_some_iff.mp h with ⟨suffix, _, hrest⟩
  rcases Option.bind_eq_some_iff.mp hrest with ⟨spelled, hspelled, hform⟩
  cases hform
  -- Each of the stems puts the rank into its form as it is spelled.
  have hspells : ∀ stem ∈ Form.stems, ∀ r, ∃ extra, (stem.2 r).surplus? = some (r, extra) := by
    simp [Form.stems, Form.surplus?]
  rcases hspells stem hs spelled with ⟨extra, hextra⟩
  cases hsplit.symm.trans hextra
  exact rank?_bounds hspelled

/-- The rank of an array tag fits in a word and is not zero. -/
theorem rank_of_ofTag? (h : Form.ofTag? tag = some form)
    (hsplit : form.surplus? = some (rank, surplus)) : 0 < rank ∧ rank ≤ maxRank := by
  simp only [Form.ofTag?, Option.orElse_eq_orElse, Option.orElse_eq_or, Option.or_eq_some_iff,
    Option.map_eq_some_iff] at h
  rcases h with ⟨op, _, rfl⟩ | ⟨_, ⟨op, _, rfl⟩ | ⟨_, htags | ⟨_, hstems⟩⟩⟩
  -- Operators and fixed tags are no array forms.
  · cases hsplit
  · cases hsplit
  · rw [surplus?_of_lookup htags] at hsplit
    cases hsplit
  · rcases List.exists_of_findSome?_eq_some hstems with ⟨stem, hs, hform⟩
    exact rank_of_ofStem? hs hform hsplit

/-- All array forms begin with the check, and what is behind it does not depend on what the
    number is. -/
theorem exists_behind_check (hrank : rank ≤ maxSize)
    (hsplit : form.surplus? = some (rank, surplus)) (eval : Evaluator) (allowed : Nat) (t : Tree) :
    ∃ rest : Action Value, evalForm eval allowed t form = (do
      t.expectArity (← addSizes rank surplus)
      rest) := by
  cases form with
  | arrayNew r =>
      cases hsplit
      -- Nothing is added to the rank here, so that there is a sum.
      have hsum : addSizes rank 0 = .ok rank := addSizes_of_le hrank
      have hrule : ∃ rest : Action Value, evalForm eval allowed t (.arrayNew rank) = (do
          t.expectArity rank
          rest) := ⟨_, rfl⟩
      rcases hrule with ⟨rest, hrest⟩
      refine ⟨rest, ?_⟩
      rw [bind_of_size hsum]
      exact hrest
  | arrayAccess r =>
      cases hsplit
      exact ⟨_, rfl⟩
  | arrayAssign r =>
      cases hsplit
      exact ⟨_, rfl⟩
  | _ => cases hsplit

/-- A tree with another number of operands than the sum is refused, whatever the operands are,
    and before anything else is done. -/
theorem refused_of_length_ne (hsplit : form.surplus? = some (rank, surplus))
    (hsum : rank + surplus ≤ maxSize) (hne : t.operands.length ≠ rank + surplus)
    (eval : Evaluator) (allowed : Nat) : evalForm eval allowed t form =
      throw (.malformed (.arity t.tag (rank + surplus) t.operands.length)) := by
  rcases exists_behind_check (by omega) hsplit eval allowed t with ⟨rest, hrest⟩
  have harity : t.expectArity (rank + surplus) =
      .error (.arity t.tag (rank + surplus) t.operands.length) := if_neg hne
  rw [hrest, bind_of_size (addSizes_of_le hsum), harity]
  rfl

/-- Where there is no sum, the run is given up, whatever the operands are. -/
theorem panics_of_sum (hrank : rank ≤ maxSize) (hsplit : form.surplus? = some (rank, surplus))
    (hsum : maxSize < rank + surplus) (eval : Evaluator) (allowed : Nat) (t : Tree) :
    evalForm eval allowed t form = throw (.panicked .sum) := by
  rcases exists_behind_check hrank hsplit eval allowed t with ⟨rest, hrest⟩
  rw [hrest, addSizes_of_lt hsum]
  rfl

/-- A failure that tells of a missing operand, or a panic. -/
def Failure.isLost : Failure → Bool
  | .malformed (.missing _ _) => true
  | .panicked _ => true
  | _ => false

/-- The actions that, on whatever machine, only fail in such a way if it is known already. -/
def completeDiscipline (known : Failure → Prop) : Discipline where
  Obeys a := ∀ m, Ends a m (fun _ _ => True) fun e _ => e.isLost = true → known e
  Allows e := e ≠ .refusal ∧ e ≠ .panic
  obeys_pure _ _ := trivial
  obeys_bind ha hf m := by
    rw [ends_bind]
    exact (ha m).mono (fun v m' _ => hf v m') fun _ _ he => he
  obeys_fault _ _ := nofun
  obeys_heap _ := trivial
  obeys_growth _ _ := trivial
  obeys_lookup _ _ := trivial
  obeys_assign _ _ := trivial
  obeys_element _ _ := trivial
  obeys_write _ _ := ends_write trivial nofun
  obeys_readLine _ _ := ends_readLine (fun _ => trivial) nofun
  obeys_unfinished _ _ := nofun
  obeys_refusal h := absurd rfl h.1
  obeys_panic h := absurd rfl h.2
  obeys_guarded _ ha m := by
    unfold guarded
    rw [ends_recover]
    refine (ha m).mono (fun _ _ h => h) fun e m' he => ?_
    -- Only a fault is taken up, and nothing is lost when it is told.
    cases e with
    | fault f => exact ends_bind.mpr (ends_write trivial nofun)
    | _ => exact he

section complete

variable {α : Type} {known : Failure → Prop} {i : Nat} (hi : i < t.operands.length)

include hi

/-- There is an operand, so at most its shape is wrong. -/
theorem complete_child {f : Tree → Action α}
    (hf : ∀ c, t.child i = .ok c → (completeDiscipline known).Obeys (f c)) :
    (completeDiscipline known).Obeys (liftM (t.child i) >>= f) := by
  have ho : t.operand i = .ok t.operands[i] :=
    Tree.operand_eq_ok_iff.mpr (List.getElem?_eq_getElem hi)
  cases hc : t.child i with
  | ok c => exact hf c hc
  | error e =>
      unfold Tree.child at hc
      rw [ho] at hc
      -- A word or a sequence in the place of a tree is no lost operand.
      cases hshape : t.operands[i] with
      | tree tag os =>
          rw [hshape] at hc
          cases hc
      | _ =>
          rw [hshape] at hc
          cases hc
          exact fun _ => nofun

/-- There is an operand, so at most it is no word. -/
theorem complete_token {f : String → Action α} (hf : ∀ w, (completeDiscipline known).Obeys (f w)) :
    (completeDiscipline known).Obeys (liftM (t.token i) >>= f) := by
  have ho : t.operand i = .ok t.operands[i] :=
    Tree.operand_eq_ok_iff.mpr (List.getElem?_eq_getElem hi)
  unfold Tree.token
  rw [ho]
  cases t.operands[i] with
  | token w => exact hf w
  | _ => exact fun _ => nofun

end complete

section behind

variable {known : Failure → Prop} (hroom : t.operands.length ≤ maxRoom)
  (he : ∀ s c, t.inside? s = some c → (completeDiscipline known).Obeys (eval c))

include hroom he

/-- The loop over the operands from a place on finds them all if there are enough. -/
theorem complete_children {first count : Nat} (hle : first + count ≤ t.operands.length) :
    (completeDiscipline known).Obeys (eval.children t first count) := by
  let K := completeDiscipline known
  have hsmall := Nat.le_of_lt maxRoom_lt_maxSize
  refine K.obeys_size (.inl (reserve_eq_ok_iff.mpr (by omega))) fun _ _ => ?_
  refine K.obeys_size (.inl (addSizes_of_le (by omega))) fun last hlast => ?_
  have hsum := (addSizes_eq_ok_iff.mp hlast).2
  refine K.obeys_mapM _ fun i hi => ?_
  -- The place asked for is below the number of operands, so there is one.
  have hlt := List.mem_range.mp hi
  exact complete_child (by omega) fun c hc => he _ c (Tree.inside?_of_child hc)

/-- An array form with the right number of operands does not miss one, and does not panic. -/
theorem complete_of_length_eq (hsplit : form.surplus? = some (rank, surplus))
    (hlen : t.operands.length = rank + surplus) (allowed : Nat) :
    (completeDiscipline known).Obeys (evalForm eval allowed t form) := by
  let K := completeDiscipline known
  have hsmall := Nat.le_of_lt maxRoom_lt_maxSize
  have hnamed : ∀ name, K.Obeys (namedArray name) := fun _ => K.obeys_namedArray ⟨nofun, nofun⟩
  have harity := Tree.expectArity_eq hlen
  have hsum : addSizes rank surplus = .ok (rank + surplus) := addSizes_of_le (by omega)
  -- Behind the check, every operand that a rule looks for is one of those that are there.
  cases form with
  | arrayNew r =>
      cases hsplit
      refine K.obeys_found harity ?_
      refine K.obeys_bind (complete_children hroom he (by omega)) fun dims => ?_
      refine K.obeys_bind K.obeys_heap fun _ => K.obeys_bind (K.obeys_checked _) fun sides => ?_
      exact K.obeys_bind (K.obeys_growth fun h => Heap.extends_zeroed sides h) fun id =>
        K.obeys_pure _
  | arrayAccess r =>
      cases hsplit
      refine K.obeys_size (.inl hsum) fun arity harity' => ?_
      obtain rfl := (addSizes_eq_ok_iff.mp harity').2
      refine K.obeys_found harity (complete_token (by omega) fun name => ?_)
      refine K.obeys_bind (hnamed name) fun id => ?_
      refine K.obeys_bind (complete_children hroom he (by omega)) fun indices => ?_
      refine K.obeys_bind K.obeys_heap fun _ => K.obeys_bind (K.obeys_checked _) fun positions => ?_
      exact K.obeys_pure _
  | arrayAssign r =>
      cases hsplit
      have hplace : addSizes rank 1 = .ok (rank + 1) := addSizes_of_le (by omega)
      refine K.obeys_size (.inl hsum) fun arity harity' => ?_
      obtain rfl := (addSizes_eq_ok_iff.mp harity').2
      refine K.obeys_found harity (complete_token (by omega) fun name => ?_)
      refine K.obeys_bind (hnamed name) fun id => ?_
      refine K.obeys_bind (complete_children hroom he (by omega)) fun indices => ?_
      refine K.obeys_size (.inl hplace) fun place hplace' => ?_
      obtain rfl := (addSizes_eq_ok_iff.mp hplace').2
      refine complete_child (by omega) fun c hc => ?_
      refine K.obeys_bind (K.obeys_present (he _ c (Tree.inside?_of_child hc))) fun v => ?_
      refine K.obeys_bind K.obeys_heap fun _ => K.obeys_bind (K.obeys_checked _) fun positions => ?_
      refine K.obeys_bind K.obeys_heap fun _ => K.obeys_bind (K.obeys_checked _) fun slot => ?_
      exact K.obeys_bind (K.obeys_element ⟨nofun, nofun⟩) fun _ => K.obeys_pure v
  | _ => cases hsplit

end behind

variable {limits : Limits} {m m' : Machine} {e : Failure}

/-- What is lost in an array form with the right number of operands has been lost in a tree
    inside it, on some machine. -/
theorem lost_inside (hform : Form.ofTag? t.tag = some form)
    (hsplit : form.surplus? = some (rank, surplus)) (hroom : t.operands.length ≤ maxRoom)
    (hlen : t.operands.length = rank + surplus) (hr : evalTree limits t m = .error e m')
    (hlost : e.isLost = true) :
    ∃ s c, t.inside? s = some c ∧ ∃ m₁ m₂, evalTree limits c m₁ = .error e m₂ := by
  rcases Nat.lt_or_ge m.depth limits.depth with hlt | hge
  · rw [evalTree_of_lt hlt, dispatch_of_form hform] at hr
    rcases deeper_eq_error_iff.mp hr with ⟨m₁, hrule, -⟩
    -- Whatever is lost in a tree inside is accounted for by that tree.
    have hinside : ∀ s c, t.inside? s = some c →
        (completeDiscipline fun e => ∃ s c, t.inside? s = some c ∧
          ∃ m₁ m₂, evalTree limits c m₁ = .error e m₂).Obeys (evalTree limits c) := by
      intro s c hc m₂
      cases hend : evalTree limits c m₂ with
      | ok v m₃ => exact ends_of_ok hend trivial
      | error e m₃ => exact ends_of_error hend fun _ => ⟨s, c, hc, m₂, m₃, hend⟩
    exact (complete_of_length_eq hroom hinside hsplit hlen limits.rounds _).of_error hrule hlost
  · -- Beyond the allowance the failure is a fault.
    rw [evalTree_of_le hge] at hr
    cases hr
    cases hlost

/-- The rule of a tree that ends at once without a fault is how evaluation of the tree ends. -/
theorem evaluate_of_throw (hform : Form.ofTag? t.tag = some form)
    (hdepth : m.depth < limits.depth) (he : e.isFault = false)
    (h : evalForm (evalTree limits) limits.rounds t form = throw e) :
    evalTree limits t m = .error e m ∧ evaluate limits t m = .error e m := by
  have htree : evalTree limits t m = .error e m := by
    rw [evalTree_of_lt hdepth, dispatch_of_form hform, h]
    rfl
  exact ⟨htree, guarded_of_failure htree he⟩

/-- An array tag spells a rank that fits in a word, and calls for so many operands besides.
    Wherever one more level may be entered, a tree with another number of operands than their
    sum is refused, and nothing has happened then, if the sum fits in a word; if it does not,
    the run is given up. A tree with the right number of operands neither misses one nor is
    given up but for a tree inside it, so that a tree in which all sums fit is never given
    up. -/
theorem array_arity_is_counted (hform : Form.ofTag? t.tag = some form)
    (hsplit : form.surplus? = some (rank, surplus)) (limits : Limits) :
    (0 < rank ∧ rank < 2 ^ 64) ∧
    (∀ m, m.depth < limits.depth → rank + surplus < 2 ^ 64 →
      t.operands.length ≠ rank + surplus →
        evalTree limits t m =
          .error (.malformed (.arity t.tag (rank + surplus) t.operands.length)) m ∧
        evaluate limits t m =
          .error (.malformed (.arity t.tag (rank + surplus) t.operands.length)) m) ∧
    (∀ m, m.depth < limits.depth → 2 ^ 64 ≤ rank + surplus →
      evalTree limits t m = .error (.panicked .sum) m ∧
      evaluate limits t m = .error (.panicked .sum) m) ∧
    (∀ m m' e, t.operands.length = rank + surplus → t.operands.length ≤ maxRoom →
      evalTree limits t m = .error e m' → e.isLost = true →
        ∃ s c, t.inside? s = some c ∧ ∃ m₁ m₂, evalTree limits c m₁ = .error e m₂) ∧
    ∀ m m' p, t.isCalm = true → evaluate limits t m ≠ .error (.panicked p) m' := by
  have hmost : maxSize = 2 ^ 64 - 1 := rfl
  rcases rank_of_ofTag? hform hsplit with ⟨hpos, hmax⟩
  have hrank : rank ≤ maxSize := hmax
  refine ⟨⟨hpos, by omega⟩, fun m hdepth hsum hne => ?_, fun m hdepth hsum => ?_,
    fun m m' e hlen hroom hr hlost => lost_inside hform hsplit hroom hlen hr hlost,
    fun m m' p hcalm hr => ?_⟩
  · exact evaluate_of_throw hform hdepth rfl
      (refused_of_length_ne hsplit (by omega) hne (evalTree limits) limits.rounds)
  · exact evaluate_of_throw hform hdepth rfl
      (panics_of_sum hrank hsplit (by omega) (evalTree limits) limits.rounds t)
  · -- A guard lets a panic through, so it is the tree that has to be calm.
    have hguarded : calmDiscipline.Obeys (evaluate limits t) :=
      calmDiscipline.obeys_guarded nofun (calm_evalTree limits hcalm)
    exact (hguarded m).of_error hr p rfl

/-- An element in one dimension without the operand for it. -/
def elementWithoutIndex : Tree := ⟨"array_access1d", [.token "x"]⟩

/-- An element in so many dimensions that there is no sum. -/
def elementOfGreatestRank : Tree := ⟨"array_access18446744073709551615d", [.token "x"]⟩

/-- An element in one dimension, at a tree. -/
def elementAt (t : Tree) : Tree := ⟨"array_access1d", [.token "x", t.toOperand]⟩

/-- A machine on which the name is bound to an array with one element. -/
def machineWithArray : Machine :=
  ⟨⟨[("x", .array ⟨0⟩)]⟩, ⟨#[⟨1, #[.int 0]⟩]⟩, [], .empty none, 0⟩

/-- The first tree is refused although the name is not bound either. The second one has no sum.
    The other two have all their operands: the run is given up inside one, and never in the
    other. -/
theorem array_arity_is_counted_element :
    evaluate ⟨8, 8⟩ elementWithoutIndex (.start [] none) =
      .error (.malformed (.arity "array_access1d" 2 1)) (.start [] none) ∧
    evaluate ⟨8, 8⟩ elementOfGreatestRank machineWithArray =
      .error (.panicked .sum) machineWithArray ∧
    (∃ s c, (elementAt elementOfGreatestRank).inside? s = some c ∧
      ∃ m₁ m₂, evalTree ⟨8, 8⟩ c m₁ = .error (.panicked .sum) m₂) ∧
    ∀ m m' p, evaluate ⟨8, 8⟩ (elementAt elementWithoutIndex) m ≠ .error (.panicked p) m' := by
  have hform : Form.ofTag? "array_access1d" = some (.arrayAccess 1) := by decide +kernel
  have hgreatest : Form.ofTag? elementOfGreatestRank.tag = some (.arrayAccess (2 ^ 64 - 1)) := by
    decide +kernel
  have hend : evalTree ⟨8, 8⟩ (elementAt elementOfGreatestRank) machineWithArray =
      .error (.panicked .sum) machineWithArray := rfl
  have hcalm : (elementAt elementWithoutIndex).isCalm = true := by decide +kernel
  -- The four trees are for a missing operand, the greatest rank, a panic inside and none.
  have hrefused := array_arity_is_counted (t := elementWithoutIndex) hform rfl ⟨8, 8⟩
  have hpanics := array_arity_is_counted hgreatest rfl ⟨8, 8⟩
  have hinside := array_arity_is_counted (t := elementAt elementOfGreatestRank) hform rfl ⟨8, 8⟩
  have hnever := array_arity_is_counted (t := elementAt elementWithoutIndex) hform rfl ⟨8, 8⟩
  exact ⟨(hrefused.2.1 _ (by decide) (by decide) (by decide)).2,
    (hpanics.2.2.1 _ (by decide) (by decide)).2,
    hinside.2.2.2.1 _ _ _ rfl (by decide) hend rfl,
    fun m m' p => hnever.2.2.2.2 m m' p hcalm⟩

/-- Too few operands are there, and the run is given up instead of telling of that. -/
theorem array_arity_panics :
    Form.ofTag? elementOfGreatestRank.tag = some (.arrayAccess (2 ^ 64 - 1)) ∧
    evaluate ⟨8, 8⟩ elementOfGreatestRank (.start [] none) =
      .error (.panicked .sum) (.start [] none) ∧
    evaluate ⟨8, 8⟩ elementOfGreatestRank (.start [] none) ≠
      .error (.malformed (.arity elementOfGreatestRank.tag (2 ^ 64) 1)) (.start [] none) := by
  have hend : evaluate ⟨8, 8⟩ elementOfGreatestRank (.start [] none) =
      .error (.panicked .sum) (.start [] none) := rfl
  refine ⟨by decide +kernel, hend, fun h => ?_⟩
  cases hend.symm.trans h

end TreeScript
