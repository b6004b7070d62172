import TreeScript.Proofs.Agreement

/-!
# Which Trees Are Evaluated

The evaluator calls itself for the trees inside a tree, for some of them under
conditions, and for those of a loop many times. A tree is visited if there are calls all the
way down to it: its rule is run then, on the machine that the visit names.

Visits are told apart by the place in the tree. A place is visited at one level only, which
is as much deeper as the place is long, and so no place is visited that is longer than
there are levels left.

That nothing else is evaluated is a statement about the evaluator and not about the
relation. It is put as a comparison: `evalBy` is evaluation with any other rule in the place
of `dispatch`, and it does the same as long as that rule does the same on the trees that are
visited, each on the machine of its visit. So a tree that is not visited could be
dispatched to anything, or to nothing. The same induction shows when it makes no difference
how many levels there are, and what is done where none is left: if a tree is not higher than
the levels that are left, that is never found out.

## Main definitions

* `Visits`: The trees that are come to in an evaluation, their places and machines.
* `evalBy`: Evaluation with another rule for trees, and another end of the levels.

## Theorems

* `Visits.at?_eq`: What is visited stands at its place.
* `Visits.depth_eq`, `Visits.length_lt`: At which levels visits are.
* `evalUpToBy_eq`: Evaluation depends on the rule of what is visited and on nothing else.
* `evalTree_eq_evalBy`: Evaluation is that with the rule that the tag names.
-/

namespace TreeScript

/-- The evaluation of a tree on a machine comes to the tree at a place. Its rule is run
    there, on the last machine. -/
inductive Visits (limits : Limits) : Tree → Machine → List Step → Tree → Machine → Prop where
  | here {t : Tree} {m : Machine} : m.depth < limits.depth → Visits limits t m [] t m.entered
  | inside {t c u : Tree} {m m₁ m' : Machine} {form : Form} {s : Step} {place : List Step} :
      m.depth < limits.depth → Form.ofTag? t.tag = some form →
      Calls (evalTree limits) limits.rounds t m.entered form s c m₁ →
      Visits limits c m₁ place u m' → Visits limits t m (s :: place) u m'

/-- Evaluation up to a height with another rule for trees, given the evaluator for those
    inside, and with something else to do for those that find no level left. -/
def evalUpToBy (levels : Nat) (beyond : Evaluator) (rule : Evaluator → Evaluator) :
    Nat → Evaluator
  | 0, _ => throw .unfinished
  | n + 1, t => nested levels (beyond t) (rule (evalUpToBy levels beyond rule n) t)

/-- Evaluation with another rule for trees, and another end of the levels. -/
def evalBy (levels : Nat) (beyond : Evaluator) (rule : Evaluator → Evaluator) : Evaluator :=
  fun t => evalUpToBy levels beyond rule t.height t

variable {limits : Limits} {t u : Tree} {m m' : Machine} {place : List Step} {levels n : Nat}
  {beyond : Evaluator} {rule : Evaluator → Evaluator}

/-- What is visited stands in the tree, at the place where the evaluation comes to it. -/
theorem Visits.at?_eq (h : Visits limits t m place u m') : t.at? place = some u := by
  induction h with
  | here _ => rfl
  | inside _ _ hcall _ ih => rw [Tree.at?_cons, hcall.inside?, Option.bind_some, ih]

/-- It is visited at a level as much deeper as the place is long. -/
theorem Visits.depth_eq (h : Visits limits t m place u m') :
    m'.depth = m.depth + place.length + 1 := by
  induction h with
  | here _ => rfl
  | inside _ _ hcall _ ih =>
      rw [ih, hcall.depth_eq (level_evalTree limits), Machine.depth_entered, List.length_cons]
      omega

/-- There has been a level left for every visit. -/
theorem Visits.length_lt (h : Visits limits t m place u m') :
    m.depth + place.length < limits.depth := by
  induction h with
  | here hlt => exact hlt
  | inside _ _ hcall _ ih =>
      rw [hcall.depth_eq (level_evalTree limits), Machine.depth_entered] at ih
      rw [List.length_cons]
      omega

/-- Evaluation depends on the rule for what is visited and on nothing else. Where the tree is
    not higher than the levels that are left, it does not depend on how many there are either,
    nor on what is done where none is left. -/
theorem evalUpToBy_eq (hn : t.height ≤ n)
    (hlevels : (m.depth + t.height ≤ levels ∧ m.depth + t.height ≤ limits.depth) ∨
      (levels = limits.depth ∧ ∀ u, beyond u = fail (.depthExceeded limits.depth)))
    (hrule : ∀ place u m', Visits limits t m place u m' →
      ∀ eval, rule eval u m' = dispatch eval limits.rounds u m') :
    evalUpToBy levels beyond rule n t m = evalTree limits t m := by
  induction n generalizing t m with
  | zero => exact absurd hn (Nat.not_succ_le_zero _)
  | succ n ih =>
      have hpos : 0 < t.height := Nat.succ_pos _
      unfold evalUpToBy
      rcases Nat.lt_or_ge m.depth limits.depth with hlt | hge
      · have hlt' : m.depth < levels := by omega
        rw [evalTree_of_lt hlt, nested_of_lt hlt']
        -- The rule is that of a tree that is visited, and calls for trees that are.
        have hsame : rule (evalUpToBy levels beyond rule n) t m.entered =
            dispatch (evalTree limits) limits.rounds t m.entered := by
          rw [hrule [] t m.entered (.here hlt)]
          cases hform : Form.ofTag? t.tag with
          | none => rw [dispatch_of_none hform, dispatch_of_none hform]
          | some form =>
              rw [dispatch_of_form hform, dispatch_of_form hform]
              refine evalForm_congr fun s c m₁ hcall => ?_
              have hheight := Tree.height_inside hcall.inside?
              have hdepth := hcall.depth_eq (level_evalTree limits)
              rw [Machine.depth_entered] at hdepth
              refine ih (by omega) (hlevels.imp (fun h => by omega) id) ?_
              intro place u m' hvisit
              exact hrule (s :: place) u m' (.inside hlt hform hcall hvisit)
        unfold deeper
        rw [hsame]
      · -- No level is left, which a tree that is not too high does not find.
        rcases hlevels with hle | ⟨rfl, hbeyond⟩
        · omega
        · rw [evalTree_of_le hge, nested_of_le hge, hbeyond]
          rfl

/-- Evaluation is that with the rule that the tag names, and a fault at the end of the
    levels. -/
theorem evalTree_eq_evalBy (limits : Limits) (t : Tree) :
    evalTree limits t = evalBy limits.depth (fun _ => fail (.depthExceeded limits.depth))
      (fun eval u => dispatch eval limits.rounds u) t :=
  funext fun _ => (evalUpToBy_eq (Nat.le_refl _) (.inr ⟨rfl, fun _ => rfl⟩)
    fun _ _ _ _ _ => rfl).symm

end TreeScript
