import TreeScript.Proofs.Upheld
import TreeScript.Session

/-!
# Histories of Machines

What a machine can have been through. A history starts with nothing bound and no
arrays, and goes on with any trees in any order under any bounds, whether they
yield a value or fail; between two trees the streams may be used by someone else.
The values that have been yielded belong to the history, since whoever ran the
trees may have kept them.

A bound on the rounds of loops that is too low cuts an evaluation short, so the
machines in the middle of a loop are part of a history too.

`Reached` has one constructor for each of the things that can happen between two machines,
so an invariant of histories is shown by one induction with four cases, and the two in
which a tree is run are the law of evaluation. That programs and sessions make histories
is the converse: they do nothing to a machine that a history could not do. The values do
not matter there, and `HasHistory` leaves them open.

## Main definitions

* `Reached`: A machine with a history, and the values that have been yielded.
* `HasHistory`: A machine with a history, whatever has been yielded.

## Theorems

* `Invariant.holds_of_reached`: What holds at the start holds ever after.
* `history_runTrees`, `history_session`: Programs and sessions make histories.
* `history_evaluate`: An evaluation is one step of a history.
* `history_write`, `history_readLine`: The streams may be used in between.
* `history_respond`, `history_answerLines`: A line of a session, and all of them.
-/

namespace TreeScript

/-- A machine on which trees have been evaluated from a fresh start, and the
    values that they have yielded, latest first. -/
inductive Reached : Machine → List Value → Prop where
  | start (input : List UInt8) (limit : Option Nat) : Reached (.start input limit) []
  /-- A tree has yielded a value. -/
  | yields {m m' : Machine} {vs : List Value} {limits : Limits} {t : Tree} {v : Value} :
      Reached m vs → evaluate limits t m = .ok v m' → Reached m' (v :: vs)
  /-- A tree has failed. -/
  | fails {m m' : Machine} {vs : List Value} {limits : Limits} {t : Tree} {e : Failure} :
      Reached m vs → evaluate limits t m = .error e m' → Reached m' vs
  /-- The streams have been used in between. -/
  | streams {m : Machine} {vs : List Value} (input : List UInt8) (output : Output) :
      Reached m vs → Reached { m with input := input, output := output } vs

/-- An invariant that holds of fresh machines holds of all machines with a
    history, and what has been yielded can still be kept, unless it is a mark. -/
theorem Invariant.holds_of_reached {I : Invariant}
    (hstart : ∀ input limit, I.Holds (.start input limit)) {m : Machine} {vs : List Value}
    (h : Reached m vs) : I.Holds m ∧ ∀ v ∈ vs, I.Yields v m := by
  induction h with
  | start input limit => exact ⟨hstart input limit, fun v hv => by cases hv⟩
  | yields _ hr ih =>
      rcases ih with ⟨hm, hvs⟩
      -- Older values are carried along, and the new one comes in front of them.
      rcases (I.keeps_evaluate _ _ _ hm).of_ok hr with ⟨hl, hv⟩
      refine ⟨hl.holds, fun w hw => ?_⟩
      rcases List.mem_cons.mp hw with rfl | hw
      · exact hv
      · exact hl.yields (hvs w hw)
  | fails _ hr ih =>
      rcases ih with ⟨hm, hvs⟩
      have hl := (I.keeps_evaluate _ _ _ hm).of_error hr
      exact ⟨hl.holds, fun v hv => hl.yields (hvs v hv)⟩
  | streams input output _ ih => exact ⟨⟨ih.1.arrays, ih.1.bound⟩, ih.2⟩

/-- A machine whose history is known up to the values yielded. -/
def HasHistory (m : Machine) : Prop := ∃ vs, Reached m vs

/-- An evaluation is one step of a history, whether it yields or fails. -/
theorem history_evaluate (limits : Limits) (t : Tree) : Upholds HasHistory (evaluate limits t) := by
  intro m hm
  rcases hm with ⟨vs, hvs⟩
  unfold Ends
  split
  · rename_i hr
    exact ⟨_, hvs.yields hr⟩
  · rename_i hr
    exact ⟨vs, hvs.fails hr⟩

theorem history_write (s : String) : Upholds HasHistory (write s) := by
  intro m hm
  rcases hm with ⟨vs, hvs⟩
  exact ends_write ⟨vs, hvs.streams _ _⟩ ⟨vs, hvs.streams _ _⟩

theorem history_readLine : Upholds HasHistory readLine := by
  intro m hm
  rcases hm with ⟨vs, hvs⟩
  exact ends_readLine (fun _ => ⟨vs, hvs.streams _ _⟩) ⟨vs, hvs.streams _ _⟩

/-- A program makes a history, also if one of its trees fails. -/
theorem history_runTrees (limits : Limits) (trees : List Tree) :
    Upholds HasHistory (runTrees limits trees) := by
  induction trees with
  | nil => exact upholds_pure ()
  | cons t trees ih =>
      refine upholds_bind ?_ fun _ => ih
      exact upholds_bind (history_evaluate limits t) fun _ => upholds_pure ()

/-- A line of a session either leaves the machine or runs one tree on it. -/
theorem history_respond (limits : Limits) (line : String) :
    Upholds HasHistory (respond limits line) := by
  unfold respond
  split
  · exact upholds_pure ()
  · split
    · exact history_write _
    · rename_i t _
      have hevaluate : Upholds HasHistory (discard (evaluate limits t)) :=
        upholds_bind (history_evaluate limits t) fun _ => upholds_pure ()
      refine upholds_recover hevaluate fun e b hb => ?_
      -- Of the failures, only a malformed tree is told.
      cases e <;> cases hb
      exact history_write _

/-- A session is its lines one after another, by induction on the lines that are left. -/
theorem history_answerLines (limits : Limits) (n : Nat) :
    Upholds HasHistory (answerLines limits n) := by
  induction n with
  | zero => exact fun m hm => ends_throw.mpr hm
  | succ n ih =>
      refine upholds_bind (history_write prompt) fun _ => ?_
      refine upholds_bind history_readLine fun line? => ?_
      cases line? with
      | none => exact upholds_pure ()
      | some line => exact upholds_bind (history_respond limits line) fun _ => ih

/-- So does a session, whatever its lines are. -/
theorem history_session (limits : Limits) : Upholds HasHistory (session limits) := by
  refine upholds_bind (history_write banner) fun _ => ?_
  intro m hm
  exact history_answerLines limits _ m hm

end TreeScript
