import TreeScript.Proofs.Visits
import TreeScript.Proofs.Yielded

/-!
# Leaving Loops

Which loop a `break` leaves. The mark that it yields travels as the value of forms that
pass the value of a tree inside on: brackets, sequences of statements and the branches of
choices. It goes no further than the loop whose body it gets out of. Everywhere else, in a
condition, in an operand or in another loop, it is dropped or is a fault.

None of them is lost on the way: a sequence goes on behind a `break` to its end, where
statements may have faults, but these are reported. None is made up either, on a machine
that keeps no such mark.

One direction is by induction on the visit, from the `break` up to the root, with a case
for each kind of call. The other direction is by induction down the tree: what yields the
mark is a `break` itself, or a form that passes on what a tree inside has yielded. It is
there that the machine must be free of marks, since a name would otherwise do as well.

The rounds of a loop are described by the machines between them, and the bound on the rounds
is a bound on their number only. So `LoopEnds` can be read without the definition of a loop.

## Main definitions

* `Form.passes`, `Propagating`: The steps and the places from which the mark is passed on.
* `RunsBreak`: A `break` is come to at such a place.
* `LoopEnds`: How a loop comes to its end.

## Theorems

* `Visits.breaks`: A `break` that is come to is not lost.
* `runsBreak_of_ok`: The mark comes of a `break`.
* `rounds_ok_iff`: The rounds of a loop that ends.
* `breaks_propagate_exactly`: Both, and what follows for loops.
* `faultless_guarded`, `ends_mapM_of_ok`: Statements behind a `break` are run.
* `Calls.breaks`: One step that passes the mark on.
* `Machine.Unbroken.entered`: The invariant goes with a tree that is dispatched inside.
* `loop_ok_iff`: The loops that end with a value.
-/

namespace TreeScript

/-- Whether the value of the tree at a step becomes the value of the form. -/
def Form.passes : Form → Step → Bool
  | .paren, .operand 0 | .statementExpr, .operand 0 => true
  | .statements, .item 0 _ => true
  | .choice, .operand 1 | .choice, .operand 3 | .choice, .operand 4 => true
  | _, _ => false

/-- A place from which the mark is passed on up to the root. -/
inductive Propagating : Tree → List Step → Prop where
  | here (t : Tree) : Propagating t []
  | inside {t c : Tree} {form : Form} {s : Step} {place : List Step} :
      Form.ofTag? t.tag = some form → form.passes s = true → t.inside? s = some c →
      Propagating c place → Propagating t (s :: place)

/-- The evaluation of a tree comes to a `break` at a propagating place. -/
def RunsBreak (limits : Limits) (t : Tree) (m : Machine) : Prop :=
  ∃ place u m', Propagating t place ∧ Visits limits t m place u m' ∧
    Form.ofTag? u.tag = some .leave

variable {α β : Type} {eval : Evaluator} {allowed : Nat} {t c u : Tree} {m m₁ m₂ m' : Machine}
  {form : Form} {s : Step} {e : Failure} {v : Value} {a : Action α} {limits : Limits}
  {place : List Step}

/-- An action that does not fail with a fault. -/
def Faultless (a : Action α) : Prop := ∀ m, Ends a m (fun _ _ => True) fun e _ => e.isFault = false

theorem faultless_pure (v : α) : Faultless (pure v : Action α) := fun _ => trivial

theorem faultless_bind {f : α → Action β} (ha : Faultless a) (hf : ∀ v, Faultless (f v)) :
    Faultless (a >>= f) := by
  intro m
  rw [ends_bind]
  exact (ha m).mono (fun v m' _ => hf v m') fun _ _ he => he

/-- A guard reports the faults, so none gets through. -/
theorem faultless_guarded (a : Action Value) : Faultless (guarded a) := by
  intro m
  cases hr : guarded a m with
  | ok v m' => exact ends_of_ok hr trivial
  | error e m' =>
      refine ends_of_error hr ?_
      cases e with
      | fault f => exact absurd hr (guarded_ne_fault a m m' f)
      | _ => rfl

theorem faultless_mapM {f : α → Action β} (hf : ∀ a, Faultless (f a)) (as : List α) :
    Faultless (as.mapM f) := by
  induction as with
  | nil => exact faultless_pure []
  | cons a as ih =>
      rw [List.mapM_cons]
      exact faultless_bind (hf a) fun b => faultless_bind ih fun bs => faultless_pure (b :: bs)

/-- The statements behind one that has yielded a value are run, and its value is kept. -/
theorem ends_mapM_of_ok {f : α → Action β} (hf : ∀ a, Faultless (f a)) {as : List α} {a : α}
    {j : Nat} {bs : List β} {b : β} (hbs : (as.take j).mapM f m = .ok bs m₁) (ha : as[j]? = some a)
    (hb : f a m₁ = .ok b m₂) :
    Ends (as.mapM f) m (fun all _ => b ∈ all) fun e _ => e.isFault = false := by
  induction as generalizing j m bs with
  | nil => cases ha
  | cons c cs ih =>
      rw [List.mapM_cons, ends_bind]
      -- The list in front of the element is run first. Where there is none, the element is the
      -- head.
      cases j with
      | zero =>
          cases hbs
          cases ha
          refine ends_of_ok hb (ends_bind.mpr ?_)
          exact (faultless_mapM hf cs m₂).mono (fun rest _ _ => List.mem_cons_self) fun _ _ he => he
      | succ j =>
          rw [List.take_succ_cons, List.mapM_cons] at hbs
          rcases exists_of_bind_ok hbs with ⟨w, m', hw, hrest⟩
          rcases exists_of_bind_ok hrest with ⟨ws, m'', hws, hpure⟩
          cases hpure
          refine ends_of_ok hw (ends_bind.mpr ?_)
          exact (ih hws ha).mono (fun rest _ hmem => List.mem_cons_of_mem w hmem) fun _ _ he => he

theorem foldResults_of_mem {vs : List Value} (h : .breakMark ∈ vs) : foldResults vs = .breakMark :=
  if_pos (List.any_eq_true.mpr ⟨_, h, rfl⟩)

/-- A form that passes the mark on yields it, unless it comes to an end by a failure that
    is no fault. -/
theorem Calls.breaks (h : Calls eval allowed t m form s c m₁) (hs : form.passes s = true)
    (hr : eval c m₁ = .ok .breakMark m₂) :
    Ends (evalForm eval allowed t form) m (fun v _ => v = .breakMark)
      fun e _ => e.isFault = false := by
  -- A place that passes a break is one of a wrapper, of a statement or of a branch.
  cases h with
  | only _ harity hc =>
      have hwrapped : evalWrapped eval t m = .ok .breakMark m₂ := by
        rw [wrapped_eq harity hc]
        exact hr
      cases form with
      | paren => exact ends_of_ok hwrapped rfl
      | statementExpr => exact ends_of_ok hwrapped rfl
      | _ => cases hs
  | statement harity htrees hvs hj =>
      simp only [evalForm, evalStatements, statementResults, bind_of_shape harity,
        bind_of_shape htrees]
      rw [ends_bind]
      have hall := ends_mapM_of_ok (fun _ => faultless_guarded _) hvs hj (guarded_of_ok hr)
      exact hall.mono (fun results _ hmem => foldResults_of_mem hmem) fun _ _ he => he
  | branch harity htest hholds hc =>
      exact ends_of_ok ((choice_eq_branch harity htest hholds hc).trans hr) rfl
  | branch' harity htest hholds htest' hholds' hc =>
      exact ends_of_ok ((choice_eq_branch' harity htest hholds htest' hholds' hc).trans hr) rfl
  | otherwise harity htest hholds htest' hholds' hc =>
      exact ends_of_ok ((choice_eq_otherwise harity htest hholds htest' hholds' hc).trans hr) rfl
  -- Operands of the other forms are not passed on.
  | left hform _ _ => rcases hform with rfl | ⟨op, rfl⟩ <;> cases hs
  | right hform _ _ _ _ => rcases hform with rfl | ⟨op, rfl⟩ <;> cases hs
  | position hform _ _ _ _ _ _ _ _ => rcases hform with ⟨rfl, _⟩ | ⟨rfl, _⟩ <;> cases hs
  | _ => cases hs

/-- A `break` that is come to is not lost. -/
theorem Visits.breaks (h : Visits limits t m place u m') (hp : Propagating t place)
    (hu : Form.ofTag? u.tag = some .leave) :
    Ends (evalTree limits t) m (fun v _ => v = .breakMark) fun e _ => e.isFault = false := by
  induction h with
  | here hlt =>
      rw [ends_evalTree hlt, dispatch_of_form hu]
      simp only [evalForm, evalMark]
      rw [ends_bind, ends_shape]
      exact ⟨fun _ _ => rfl, fun _ _ => rfl⟩
  | @inside t c u m m₁ m' form s place hlt hform hcall hvisits ih =>
      rw [ends_evalTree hlt, dispatch_of_form hform]
      -- The form that is visited on the way is the one that the place is a place of.
      cases hp with
      | inside hform' hs hc hp =>
          cases hform.symm.trans hform'
          cases hcall.inside?.symm.trans hc
          have hends := ih hp hu
          cases hr : evalTree limits c m₁ with
          | ok v m₂ =>
              cases hends.of_ok hr
              exact hcall.breaks hs hr
          | error e m₂ =>
              -- The tree inside may still fail, as long as it is with no fault, and then so does
              -- the form.
              have he := hends.of_error hr
              exact ends_of_error (hcall.fails hr he) he

/-- The fold is a break mark only if one of the values was, since the last value counts where none
    is. -/
theorem mem_of_foldResults {vs : List Value} (h : foldResults vs = .breakMark) :
    .breakMark ∈ vs := by
  unfold foldResults at h
  split at h
  · rename_i hany
    rcases List.any_eq_true.mp hany with ⟨v, hv, hb⟩
    cases v <;> first | exact hv | cases hb
  · cases hlast : vs.getLast? with
    | none =>
        rw [hlast] at h
        cases h
    | some v =>
        rw [hlast] at h
        cases h
        exact List.mem_of_getLast? hlast

/-- A guard does not make up the mark. -/
theorem ok_of_guarded_break {a : Action Value} (h : guarded a m = .ok .breakMark m') :
    a m = .ok .breakMark m' := by
  cases hr : a m with
  | ok v m₁ => exact (guarded_of_ok hr).symm.trans h
  | error e m₁ =>
      cases e with
      | fault f =>
          -- A fault that is reported leaves no value, and no mark either.
          have hreport := (recover_of_next hr rfl).symm.trans h
          rcases exists_of_bind_ok hreport with ⟨_, _, _, hpure⟩
          cases hpure
      | _ => cases (guarded_of_failure hr rfl).symm.trans h

/-- A call for a tree that yields the mark, at a step from which that is passed on. -/
def CallsBreak (eval : Evaluator) (allowed : Nat) (t : Tree) (m : Machine) (form : Form) : Prop :=
  ∃ s c m₁ m₂, Calls eval allowed t m form s c m₁ ∧ form.passes s = true ∧ m₁.Unbroken ∧
    eval c m₁ = .ok .breakMark m₂

/-- A wrapper hands on the break mark of its operand. -/
theorem callsBreak_of_wrapped (hm : m.Unbroken) (hw : form.wraps = true)
    (hs : form.passes (.operand 0) = true) (h : evalWrapped eval t m = .ok .breakMark m') :
    CallsBreak eval allowed t m form := by
  rcases exists_of_shape_ok h with ⟨_, harity, h⟩
  rcases exists_of_shape_ok h with ⟨c, hc, h⟩
  exact ⟨.operand 0, c, m, m', .only hw harity hc, hs, hm, h⟩

/-- A sequence hands on the break mark of the statement that yielded it. -/
theorem callsBreak_of_statements (he : unbrokenInvariant.Respects eval) (hm : m.Unbroken)
    (h : evalStatements eval t m = .ok .breakMark m') :
    CallsBreak eval allowed t m .statements := by
  rcases exists_of_bind_ok h with ⟨results, m₁, hresults, hfold⟩
  rcases exists_of_shape_ok hresults with ⟨_, harity, hresults⟩
  rcases exists_of_shape_ok hresults with ⟨trees, htrees, hresults⟩
  have hv : foldResults results = .breakMark := by injection hfold
  rcases exists_of_mapM_ok hresults (mem_of_foldResults hv) with ⟨c, j, us, n₁, n₂, hc, hus, hr⟩
  -- The statements in front of it have kept the machine free of marks.
  have hkeeps := Invariant.keeps_mapM (Q := unbrokenInvariant.Yields)
    (fun _ _ _ => Invariant.Later.yields) (trees.take j)
    (fun s _ m => Invariant.keeps_guarded (he s m)) m
  exact ⟨.item 0 j, c, n₁, n₂, .statement harity htrees hus hc, rfl, hm.after_ok hkeeps hus,
    ok_of_guarded_break hr⟩

/-- A choice hands on the break mark of the branch that was taken. -/
theorem callsBreak_of_choice (he : unbrokenInvariant.Respects eval) (hm : m.Unbroken)
    (h : evalChoice eval t m = .ok .breakMark m') : CallsBreak eval allowed t m .choice := by
  rcases exists_of_shape_ok h with ⟨_, harity, h⟩
  rcases exists_of_shape_ok h with ⟨test, htest, h⟩
  rcases exists_of_bind_ok h with ⟨holds, m₁, hholds, h⟩
  have hm₁ : m₁.Unbroken := hm.after_ok (Invariant.keeps_condition he test m) hholds
  -- Which branch was taken is known from the conditions that were evaluated.
  cases holds with
  | true =>
      rcases exists_of_shape_ok h with ⟨c, hc, h⟩
      exact ⟨.operand 1, c, m₁, m', .branch harity htest hholds hc, rfl, hm₁, h⟩
  | false =>
      rcases exists_of_shape_ok h with ⟨test?, htest', h⟩
      rcases exists_of_bind_ok h with ⟨holds', m₂, hholds', h⟩
      have hm₂ : m₂.Unbroken := hm₁.after_ok (Invariant.keeps_optionalCondition he test?) hholds'
      cases holds' with
      | true =>
          rcases exists_of_shape_ok h with ⟨c, hc, h⟩
          exact ⟨.operand 3, c, m₂, m', .branch' harity htest hholds htest' hholds' hc, rfl, hm₂, h⟩
      | false =>
          rcases exists_of_shape_ok h with ⟨c?, hc, h⟩
          cases c? with
          -- Without a last branch the choice has no value.
          | none => cases h
          | some c =>
              exact ⟨.operand 4, c, m₂, m', .otherwise harity htest hholds htest' hholds' hc, rfl,
                hm₂, h⟩

/-- Where a form yields the mark, it is a `break` itself, or it has called for a tree that
    does. -/
theorem callsBreak_of_ok (he : unbrokenInvariant.Respects eval) (hm : m.Unbroken)
    (h : evalForm eval allowed t form m = .ok .breakMark m') :
    form = .leave ∨ CallsBreak eval allowed t m form := by
  -- What is found in a variable or an array is no mark, since the machine keeps none.
  have hfound : form = .name ∨ form = .index ∨ (∃ rank, form = .arrayAccess rank) → False := by
    intro hf
    have hv : Value.NoBreak .breakMark := (((keeps_found he hf) hm.holds).of_ok h).2
    cases hv
  cases form with
  | leave => exact Or.inl rfl
  | paren => exact Or.inr (callsBreak_of_wrapped hm rfl rfl h)
  | statementExpr => exact Or.inr (callsBreak_of_wrapped hm rfl rfl h)
  | statements => exact Or.inr (callsBreak_of_statements he hm h)
  | choice => exact Or.inr (callsBreak_of_choice he hm h)
  | name => exact (hfound (Or.inl rfl)).elim
  | index => exact (hfound (Or.inr (Or.inl rfl))).elim
  | arrayAccess rank => exact (hfound (Or.inr (Or.inr ⟨rank, rfl⟩))).elim
  -- All the other forms yield no mark on any machine.
  | _ => exact absurd ((yieldsOnly_form rfl m).of_ok h) nofun

/-- The level is no place where a mark could be kept. -/
theorem Machine.Unbroken.entered (hm : m.Unbroken) : m.entered.Unbroken := ⟨hm.bound, hm.elements⟩

/-- The mark comes of a `break`. -/
theorem runsBreak_of_ok (hm : m.Unbroken) (h : evalTree limits t m = .ok .breakMark m') :
    RunsBreak limits t m := by
  induction t using Tree.inside_induction generalizing m m' with
  | step t ih =>
      rcases evalTree_eq_ok_iff.mp h with ⟨hlt, m₁, h, -⟩
      cases hform : Form.ofTag? t.tag with
      | none =>
          rw [dispatch_of_none hform] at h
          cases h
      | some form =>
          rw [dispatch_of_form hform] at h
          have he := unbrokenInvariant.respects_evalTree limits
          -- The node is the break itself, or it handed on the mark of a tree inside.
          rcases callsBreak_of_ok he hm.entered h with rfl | ⟨s, c, m₂, m₃, hcall, hs, hm₂, hr⟩
          · exact ⟨[], t, _, .here t, .here hlt, hform⟩
          · rcases ih s c hcall.inside? hm₂ hr with ⟨place, u, m₄, hp, hvisits, hu⟩
            exact ⟨s :: place, u, m₄, .inside hform hs hcall.inside? hp,
              .inside hlt hform hcall hvisits, hu⟩

/-- A tree that yields a value yields the mark exactly if it has come to a `break`. -/
theorem eq_breakMark_iff (hm : m.Unbroken) (h : evalTree limits t m = .ok v m') :
    v = .breakMark ↔ RunsBreak limits t m := by
  constructor
  · rintro rfl
    exact runsBreak_of_ok hm h
  · rintro ⟨place, u, m₁, hp, hvisits, hu⟩
    exact (hvisits.breaks hp hu).of_ok h

/-- The guard of a statement makes no difference to that. -/
theorem eq_breakMark_iff_of_guarded (hm : m.Unbroken)
    (h : guarded (evalTree limits t) m = .ok v m') : v = .breakMark ↔ RunsBreak limits t m := by
  constructor
  · rintro rfl
    exact runsBreak_of_ok hm (ok_of_guarded_break h)
  · rintro ⟨place, u, m₂, hp, hvisits, hu⟩
    -- A run with a break has no fault, so the guard has nothing to do.
    have hends := hvisits.breaks hp hu
    cases hr : evalTree limits t m with
    | ok w m₁ =>
        cases (guarded_of_ok hr).symm.trans h
        exact hends.of_ok hr
    | error e m₁ => cases (guarded_of_failure hr (hends.of_error hr)).symm.trans h

/-- The end of a loop, after some rounds that do not leave it and in not more than it may
    run: the condition does not hold, or there is a round that leaves the loop. -/
inductive LoopEnds (eval : Evaluator) (test body : Tree) (leaves : Machine → Value → Prop)
    (allowed : Nat) (m m' : Machine) : Prop where
  | done {k : Nat} {m₁ : Machine} : k < allowed → Rounds eval test body leaves k m m₁ →
      eval.condition test m₁ = .ok false m' → LoopEnds eval test body leaves allowed m m'
  | left {k : Nat} {m₁ m₂ : Machine} {v : Value} : k < allowed →
      Rounds eval test body leaves k m m₁ → eval.condition test m₁ = .ok true m₂ →
      guarded (eval body) m₂ = .ok v m' → leaves m₂ v → LoopEnds eval test body leaves allowed m m'

variable {test body : Tree} {leaves leaves' : Machine → Value → Prop} {k : Nat}

/-- A pass that does not leave goes in front of the passes after it. -/
theorem LoopEnds.afterRound (h : LoopEnds eval test body leaves allowed m₂ m')
    (htest : eval.condition test m = .ok true m₁) (hbody : guarded (eval body) m₁ = .ok v m₂)
    (hv : ¬ leaves m₁ v) : LoopEnds eval test body leaves (allowed + 1) m m' := by
  cases h with
  | done hk hrounds hlast =>
      exact .done (Nat.succ_lt_succ hk) (.more htest hbody hv hrounds) hlast
  | left hk hrounds hlast hround hleaves =>
      exact .left (Nat.succ_lt_succ hk) (.more htest hbody hv hrounds) hlast hround hleaves

/-- The loop is what the relation describes, by induction on the passes that are allowed. -/
theorem loopEnds_of_rounds (h : rounds eval test body allowed m = .ok v m') :
    v = .absent ∧ LoopEnds eval test body YieldsBreak allowed m m' := by
  induction allowed generalizing m with
  -- With no round left the loop is cut off, and does not return.
  | zero => cases h
  | succ n ih =>
      rcases exists_of_bind_ok h with ⟨holds, m₁, htest, h⟩
      cases holds with
      | false =>
          cases h
          exact ⟨rfl, .done (Nat.zero_lt_succ n) (.none m) htest⟩
      | true =>
          rcases exists_of_bind_ok h with ⟨w, m₂, hbody, h⟩
          by_cases hw : w.isBreak = true
          · rw [if_pos hw] at h
            cases h
            exact ⟨rfl, .left (Nat.zero_lt_succ n) (.none m) htest hbody (isBreak_iff.mp hw)⟩
          · rw [if_neg hw] at h
            rcases ih h with ⟨hv, hends⟩
            exact ⟨hv, hends.afterRound htest hbody fun hb => hw (isBreak_iff.mpr hb)⟩

/-- A loop yields no value, and comes to one of its ends. -/
theorem rounds_ok_iff : rounds eval test body allowed m = .ok v m' ↔
    v = .absent ∧ LoopEnds eval test body YieldsBreak allowed m m' := by
  refine ⟨loopEnds_of_rounds, ?_⟩
  rintro ⟨rfl, hends⟩
  cases hends with
  | done hk hrounds htest =>
      -- The rounds before have left at least one round to the loop.
      rcases rounds_of_lt hrounds hk with ⟨n, hn⟩
      rw [hn, rounds, bind_of_ok htest]
      rfl
  | left hk hrounds htest hbody hv =>
      rcases rounds_of_lt hrounds hk with ⟨n, hn⟩
      rw [hn, rounds, bind_of_ok htest, if_pos rfl, bind_of_ok hbody, if_pos (isBreak_iff.mpr hv)]
      rfl

/-- Two conditions on rounds that come to the same for every round on a machine without
    marks. The body does not put any there. -/
theorem Rounds.congr (he : unbrokenInvariant.Respects eval)
    (hiff : ∀ m v m', m.Unbroken → guarded (eval body) m = .ok v m' → (leaves m v ↔ leaves' m v))
    (h : Rounds eval test body leaves k m m') (hm : m.Unbroken) :
    Rounds eval test body leaves' k m m' ∧ m'.Unbroken := by
  induction h with
  | none m => exact ⟨.none m, hm⟩
  | @more k m m₁ m₂ m' v htest hbody hv _ ih =>
      -- A round keeps the machine free of marks, so the hypothesis applies to the next.
      have hm₁ : m₁.Unbroken := hm.after_ok (Invariant.keeps_condition he test m) htest
      have hm₂ : m₂.Unbroken := hm₁.after_ok (Invariant.keeps_guarded (he body m₁)) hbody
      rcases ih hm₂ with ⟨hrounds, hm'⟩
      exact ⟨.more htest hbody (fun hl => hv ((hiff m₁ v m₂ hm₁ hbody).mpr hl)) hrounds, hm'⟩

/-- The relation depends on which results of the body leave the loop, and only on unbroken
    machines. -/
theorem LoopEnds.congr (he : unbrokenInvariant.Respects eval)
    (hiff : ∀ m v m', m.Unbroken → guarded (eval body) m = .ok v m' → (leaves m v ↔ leaves' m v))
    (hm : m.Unbroken) (h : LoopEnds eval test body leaves allowed m m') :
    LoopEnds eval test body leaves' allowed m m' := by
  cases h with
  | done hk hrounds htest => exact .done hk (hrounds.congr he hiff hm).1 htest
  | @left k m₁ m₂ v hk hrounds htest hbody hv =>
      rcases hrounds.congr he hiff hm with ⟨hrounds', hm₁⟩
      have hm₂ : m₂.Unbroken := hm₁.after_ok (Invariant.keeps_condition he test m₁) htest
      exact .left hk hrounds' htest hbody ((hiff m₂ v m' hm₂ hbody).mp hv)

/-- The rounds of a loop that leave it are those in which its body comes to a `break`. -/
theorem loopEnds_iff (hm : m.Unbroken) :
    LoopEnds (evalTree limits) test body YieldsBreak allowed m m' ↔
      LoopEnds (evalTree limits) test body (fun m _ => RunsBreak limits body m)
        allowed m m' := by
  have he := unbrokenInvariant.respects_evalTree limits
  constructor
  · exact LoopEnds.congr he (fun m v m' hm hbody => eq_breakMark_iff_of_guarded hm hbody) hm
  · exact LoopEnds.congr he (fun m v m' hm hbody => (eq_breakMark_iff_of_guarded hm hbody).symm) hm

/-- A tree with two operands that are both trees. -/
theorem operands_of_two {a b : Tree} (harity : t.expectArity 2 = .ok ()) (ha : t.child 0 = .ok a)
    (hb : t.child 1 = .ok b) : t.operands = [a.toOperand, b.toOperand] := by
  have hlen := Tree.length_of_expectArity harity
  have hfirst := Tree.operand_of_child ha
  have hsecond := Tree.operand_of_child hb
  refine List.ext_getElem? fun i => ?_
  match i with
  | 0 => exact hfirst
  | 1 => exact hsecond
  | i + 2 => simp [hlen]

/-- The rule of a loop, if it yields anything, has come to an end of the loop. -/
theorem evalLoop_ok_iff (hm : m.Unbroken) :
    evalLoop (evalTree limits) allowed t m = .ok v m' ↔ v = .absent ∧ ∃ test body,
      t.operands = [test.toOperand, body.toOperand] ∧ LoopEnds (evalTree limits) test body
        (fun m _ => RunsBreak limits body m) allowed m m' := by
  constructor
  · intro h
    rcases exists_of_shape_ok h with ⟨_, harity, h⟩
    rcases exists_of_shape_ok h with ⟨test, htest, h⟩
    rcases exists_of_shape_ok h with ⟨body, hbody, h⟩
    rcases rounds_ok_iff.mp h with ⟨hv, hends⟩
    exact ⟨hv, test, body, operands_of_two harity htest hbody, (loopEnds_iff hm).mp hends⟩
  · rintro ⟨rfl, test, body, hoperands, hends⟩
    -- A loop with these two operands passes the checks of its shape.
    have harity : t.expectArity 2 = .ok () := Tree.expectArity_eq (by rw [hoperands]; rfl)
    have htest : t.child 0 = .ok test := child_eq (by rw [hoperands]; rfl)
    have hbody : t.child 1 = .ok body := child_eq (by rw [hoperands]; rfl)
    rw [evalLoop, bind_of_shape harity, bind_of_shape htest, bind_of_shape hbody]
    exact rounds_ok_iff.mpr ⟨rfl, (loopEnds_iff hm).mpr hends⟩

/-- A tree of the form of a loop, if it yields anything, is a loop that has come to its
    end, one level deeper. -/
theorem loop_ok_iff (hm : m.Unbroken) (hform : Form.ofTag? t.tag = some .loop) :
    evalTree limits t m = .ok v m' ↔ v = .absent ∧ m.depth < limits.depth ∧ ∃ test body m₁,
      t.operands = [test.toOperand, body.toOperand] ∧ LoopEnds (evalTree limits) test body
        (fun m _ => RunsBreak limits body m) limits.rounds m.entered m₁ ∧ m' = m₁.exited := by
  rw [evalTree_eq_ok_iff, dispatch_of_form hform]
  constructor
  · rintro ⟨hlt, m₁, hr, rfl⟩
    rcases (evalLoop_ok_iff hm.entered).mp hr with ⟨hv, test, body, hoperands, hends⟩
    exact ⟨hv, hlt, test, body, m₁, hoperands, hends, rfl⟩
  · rintro ⟨hv, hlt, test, body, m₁, hoperands, hends, rfl⟩
    exact ⟨hlt, m₁, (evalLoop_ok_iff hm.entered).mpr ⟨hv, test, body, hoperands, hends⟩, rfl⟩

/-- All steps to a propagating place are steps from which the mark is passed on. -/
theorem Propagating.passes {s : Step} {inner : List Step} (hp : Propagating t (place ++ s :: inner))
    (hu : t.at? place = some u) (hform : Form.ofTag? u.tag = some form) : form.passes s = true := by
  induction place generalizing t with
  | nil =>
      cases hu
      cases hp with
      | inside hform' hs _ _ =>
          cases hform.symm.trans hform'
          exact hs
  -- The place goes on inside the first tree on the way.
  | cons first place ih =>
      cases hp with
      | inside _ _ hc hp =>
          rw [Tree.at?_cons, hc] at hu
          exact ih hp hu

/-- On a machine without marks, a tree yields the mark of a loop that is to be left exactly
    if its evaluation comes to a `break` at a propagating place, and then it does not end
    in a fault. So a loop yields no value, and ends behind the first round in which that
    happens in its body, unless its condition fails to hold before. What is inside a form
    that does not pass the mark on, as inside another loop, a program, a condition or an
    operand, is at no such place. -/
theorem breaks_propagate_exactly (limits : Limits) (t : Tree) (m : Machine) (hm : m.Unbroken) :
    (∀ v m', evalTree limits t m = .ok v m' → (v = .breakMark ↔ RunsBreak limits t m)) ∧
      (RunsBreak limits t m → ∀ f m', evalTree limits t m ≠ .error (.fault f) m') ∧
      (∀ v m', evaluate limits t m = .ok v m' → (v = .breakMark ↔ RunsBreak limits t m)) ∧
      (Form.ofTag? t.tag = some .loop → ∀ v m', evalTree limits t m = .ok v m' ↔
        v = .absent ∧ m.depth < limits.depth ∧ ∃ test body m₁,
          t.operands = [test.toOperand, body.toOperand] ∧
          LoopEnds (evalTree limits) test body (fun m _ => RunsBreak limits body m)
            limits.rounds m.entered m₁ ∧ m' = m₁.exited) ∧
      ∀ place s inner u form, t.at? place = some u → Form.ofTag? u.tag = some form →
        form.passes s = false → ¬ Propagating t (place ++ s :: inner) := by
  refine ⟨fun v m' h => eq_breakMark_iff hm h, ?_, fun v m' h => eq_breakMark_iff_of_guarded hm h,
    fun hform v m' => loop_ok_iff hm hform, ?_⟩
  · rintro ⟨place, u, m₁, hp, hvisits, hu⟩ f m' hr
    -- A fault after a break would be an end that the break excludes.
    cases (hvisits.breaks hp hu).of_error hr
  · intro place s inner u form hu hform hs hp
    rw [hp.passes hu hform] at hs
    cases hs

/-- A condition that holds. -/
def always : Tree := ⟨"number", [.token "1"]⟩

/-- A choice that comes to a `break`, and a statement with a fault behind it. -/
def leaveAndGoOn : Tree :=
  ⟨"statements", [.seq [
    .tree "if-elif-else" [always.toOperand, .tree "break" [], .nil, .nil, .nil],
    .tree "name" [.token "x"]]]⟩

/-- The body is run to its end, and the loop is left then. -/
theorem breaks_propagate_exactly_once :
    ∃ m', evalTree ⟨8, 8⟩ leaveAndGoOn (.start [] none) = .ok .breakMark m' ∧
      m'.output.written = "as says: x hasn't been defined!\n".toUTF8 ∧
      RunsBreak ⟨8, 8⟩ leaveAndGoOn (.start [] none) ∧
      ∃ m₁, LoopEnds (evalTree ⟨8, 8⟩) always leaveAndGoOn
        (fun m _ => RunsBreak ⟨8, 8⟩ leaveAndGoOn m) 8 (Machine.start [] none).entered m₁ ∧
        m' = m₁.exited := by
  have hm : (Machine.start [] none).Unbroken := by
    refine ⟨fun _ _ hv => ?_, fun id _ hv => ?_⟩
    · cases hv
    · exact absurd (Heap.lt_of_mem_items hv) (Nat.not_lt_zero id.index)
  have hrun : evalTree ⟨8, 8⟩ leaveAndGoOn (.start [] none) = .ok .breakMark
      ⟨.empty, .empty, [], ⟨"as says: x hasn't been defined!\n".toUTF8, none⟩, 0⟩ := rfl
  have hloop : evalTree ⟨8, 8⟩ ⟨"while", [always.toOperand, leaveAndGoOn.toOperand]⟩
      (.start [] none) = .ok .absent
      ⟨.empty, .empty, [], ⟨"as says: x hasn't been defined!\n".toUTF8, none⟩, 0⟩ := rfl
  -- The body leaves the loop since it runs a break, though a fault was reported before it.
  have hbody := (breaks_propagate_exactly ⟨8, 8⟩ leaveAndGoOn _ hm).1 _ _ hrun
  rcases (((breaks_propagate_exactly ⟨8, 8⟩ _ _ hm).2.2.2.1 rfl _ _).mp hloop).2 with
    ⟨-, test, body, m₁, hoperands, hends, hexit⟩
  injection hoperands with htest hrest
  injection hrest with hbody'
  cases Tree.toOperand_inj htest
  cases Tree.toOperand_inj hbody'
  exact ⟨_, hrun, rfl, hbody.mp rfl, m₁, hends, hexit⟩

end TreeScript
