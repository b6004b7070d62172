import TreeScript.Eval.Expression

/-!
# Outcomes of Actions

What can be said of an action before it is run. An action ends with a value or
with a failure, and either way leaves a machine behind, so a statement about it
has two halves: one for the value and the machine, one for the failure and the
machine. The rules below take such a statement apart along the action, from the
machine on which it starts.

Three kinds of check do not use the machine: of the shape of a tree, of values,
and of sizes. They are the same action up to the failure that a refusal becomes,
and each of them has a rule of its own. What is done one level deeper runs on a
machine that differs in its level only, and the rule for it goes through that
machine on the way in and on the way out.

A condition that two actions uphold is upheld by both in a row. That is all that
an invariant needs, so it is kept apart from statements about values.

## Main definitions

* `Action.after`: The machine that an action leaves, however it ends.
* `Ends`: What holds of the end of an action.
* `Upholds`: An action after which a condition still holds.

## Theorems

* `Ends.mono`: A statement about an end may be weakened.
* `bind_of_ok`, `bind_of_shape`, `bind_of_size`, `recover_of_next`: Where an action goes on.
* `exists_of_bind_ok`: What succeeds succeeds in both of its parts.
* `ends_bind`: The end of two actions in a row.
* `ends_shape`, `ends_checked`, `ends_size`: The end of a check that does not use the
  machine.
* `ends_deeper`: The end of an action one level deeper.
* `ends_recover`: The end of an action whose failures are taken up.
* `mapM_of_error`, `exists_of_mapM_ok`: Failures and values of a list of actions.
* `upholds_bind`, `upholds_recover`: Conditions are upheld part by part.
-/

namespace TreeScript

variable {α β : Type} {m m' : Machine} {v : α} {e : Failure}

/-- The machine that an action leaves, however it ends. -/
def Action.after (a : Action α) (m : Machine) : Machine :=
  match a m with
  | .ok _ m' => m'
  | .error _ m' => m'

theorem ok_after {a : Action α} (h : a m = .ok v m') : a m = .ok v (a.after m) := by
  rw [Action.after, h]

theorem error_after {a : Action α} (h : a m = .error e m') : a m = .error e (a.after m) := by
  rw [Action.after, h]

/-- What holds of the end of an action: `yields` if there is a value, `fails` if
    there is none. -/
def Ends (a : Action α) (m : Machine) (yields : α → Machine → Prop)
    (fails : Failure → Machine → Prop) : Prop :=
  match a m with
  | .ok v m' => yields v m'
  | .error e m' => fails e m'

variable {a : Action α} {yields : α → Machine → Prop} {fails : Failure → Machine → Prop}

theorem Ends.of_ok (h : Ends a m yields fails) (hr : a m = .ok v m') : yields v m' := by
  unfold Ends at h
  rw [hr] at h
  exact h

theorem Ends.of_error (h : Ends a m yields fails) (hr : a m = .error e m') : fails e m' := by
  unfold Ends at h
  rw [hr] at h
  exact h

/-- One ending is all endings, since an action is a function of the machine. -/
theorem ends_of_ok (hr : a m = .ok v m') (h : yields v m') : Ends a m yields fails := by
  unfold Ends
  rw [hr]
  exact h

theorem ends_of_error (hr : a m = .error e m') (h : fails e m') : Ends a m yields fails := by
  unfold Ends
  rw [hr]
  exact h

/-- A statement about an end may be weakened. -/
theorem Ends.mono {yields' : α → Machine → Prop} {fails' : Failure → Machine → Prop}
    (h : Ends a m yields fails) (hv : ∀ v m', yields v m' → yields' v m')
    (he : ∀ e m', fails e m' → fails' e m') : Ends a m yields' fails' := by
  unfold Ends at h ⊢
  split at h
  · exact hv _ _ h
  · exact he _ _ h

/-- What holds of both ends holds of the machine that is left. -/
theorem Ends.after {P : Machine → Prop} (h : Ends a m (fun _ => P) (fun _ => P)) :
    P (a.after m) := by
  unfold Ends at h
  unfold Action.after
  split at h <;> exact h

/-- An action after which a condition still holds, however it ends. -/
def Upholds (P : Machine → Prop) (a : Action α) : Prop :=
  ∀ m, P m → Ends a m (fun _ => P) fun _ => P

/-- An action goes on with what the one before it yields. -/
theorem bind_of_ok {f : α → Action β} (h : a m = .ok v m') : (a >>= f) m = f v m' := by
  simp only [bind, EStateM.bind, h]

theorem bind_of_error {f : α → Action β} (h : a m = .error e m') : (a >>= f) m = .error e m' := by
  simp only [bind, EStateM.bind, h]

/-- What succeeds succeeds in both of its parts. -/
theorem exists_of_bind_ok {f : α → Action β} {w : β} (h : (a >>= f) m = .ok w m') :
    ∃ v m₁, a m = .ok v m₁ ∧ f v m₁ = .ok w m' := by
  cases hr : a m with
  | ok v m₁ => exact ⟨v, m₁, rfl, (bind_of_ok hr).symm.trans h⟩
  | error e m₁ =>
      rw [bind_of_error hr] at h
      cases h

/-- A check of a tree that succeeds leaves nothing of itself behind. -/
theorem bind_of_shape {x : Except ShapeError α} {f : α → Action β} (hx : x = .ok v) :
    (liftM x >>= f) = f v := by
  subst hx
  rfl

/-- An action behind a check of the shape has passed the check when it returns. -/
theorem exists_of_shape_ok {x : Except ShapeError α} {f : α → Action β} {w : β}
    (h : (liftM x >>= f) m = .ok w m') : ∃ v, x = .ok v ∧ f v m = .ok w m' := by
  cases x with
  | ok v => exact ⟨v, rfl, h⟩
  | error e => cases h

/-- The same of a check of sizes. -/
theorem bind_of_size {x : Except Panic α} {f : α → Action β} (hx : x = .ok v) :
    (liftM x >>= f) = f v := by
  subst hx
  rfl

/-- An action behind a sum of sizes has not panicked when it returns. -/
theorem exists_of_size_ok {x : Except Panic α} {f : α → Action β} {w : β}
    (h : (liftM x >>= f) m = .ok w m') : ∃ v, x = .ok v ∧ f v m = .ok w m' := by
  cases x with
  | ok v => exact ⟨v, rfl, h⟩
  | error p => cases h

theorem recover_of_next {next? : Failure → Option (Action α)} {b : Action α}
    (h : a m = .error e m') (hb : next? e = some b) : recover a next? m = b m' := by
  simp only [recover, h, hb]

theorem ends_pure : Ends (pure v) m yields fails ↔ yields v m := Iff.rfl

theorem ends_throw : Ends (throw e) m yields fails ↔ fails e m := Iff.rfl

/-- Two actions in a row end as the second one does, or the first one if that fails. -/
theorem ends_bind {f : α → Action β} {yields : β → Machine → Prop} :
    Ends (a >>= f) m yields fails ↔ Ends a m (fun v m' => Ends (f v) m' yields fails) fails := by
  unfold Ends
  simp only [bind, EStateM.bind]
  cases a m <;> rfl

/-- A check of the shape of a tree leaves the machine alone. -/
theorem ends_shape {x : Except ShapeError α} :
    Ends (liftM x) m yields fails ↔
      (∀ v, x = .ok v → yields v m) ∧ ∀ e, x = .error e → fails (.malformed e) m := by
  cases x with
  | ok v => exact ends_pure.trans (by simp)
  | error e => exact ends_throw.trans (by simp)

/-- So does a check of values. -/
theorem ends_checked {x : Except Fault α} :
    Ends (liftM x) m yields fails ↔
      (∀ v, x = .ok v → yields v m) ∧ ∀ f, x = .error f → fails (.fault f) m := by
  cases x with
  | ok v => exact ends_pure.trans (by simp)
  | error f => exact ends_throw.trans (by simp)

/-- And a check of sizes. -/
theorem ends_size {x : Except Panic α} :
    Ends (liftM x) m yields fails ↔
      (∀ v, x = .ok v → yields v m) ∧ ∀ p, x = .error p → fails (.panicked p) m := by
  cases x with
  | ok v => exact ends_pure.trans (by simp)
  | error p => exact ends_throw.trans (by simp)

theorem ends_currentDepth {yields : Nat → Machine → Prop} :
    Ends currentDepth m yields fails ↔ yields m.depth m := Iff.rfl

/-- What is done one level deeper ends there, and the level is taken back. -/
theorem ends_deeper :
    Ends (deeper a) m yields fails ↔
      Ends a m.entered (fun v m' => yields v m'.exited) fun e m' => fails e m'.exited := by
  unfold Ends deeper
  cases a m.entered <;> rfl

theorem ends_heap {yields : Heap → Machine → Prop} :
    Ends heap m yields fails ↔ yields m.heap m := Iff.rfl

theorem ends_lookup {name : String} {yields : Option Value → Machine → Prop} :
    Ends (lookup name) m yields fails ↔ yields (m.store.get? name) m := Iff.rfl

theorem ends_assign {name : String} {v : Value} {yields : Unit → Machine → Prop} :
    Ends (assign name v) m yields fails ↔
      yields () { m with store := m.store.set name v } := Iff.rfl

theorem ends_changeHeap {f : Heap → α × Heap} :
    Ends (changeHeap f) m yields fails ↔
      yields (f m.heap).1 { m with heap := (f m.heap).2 } := Iff.rfl

/-- Writing changes the output only. -/
theorem ends_write {s : String} {yields : Unit → Machine → Prop}
    (hv : yields () { m with output := (m.output.write s).1 })
    (he : fails (.stream .full) { m with output := (m.output.write s).1 }) :
    Ends (write s) m yields fails := by
  unfold Ends write
  cases h : (m.output.write s).2 with
  | true => simpa [h] using hv
  | false => simpa [h] using he

/-- Reading changes the input only, whether it finds a line or not. -/
theorem ends_readLine {yields : Option String → Machine → Prop}
    (hv : ∀ line, yields line { m with input := (takeLine m.input).2 })
    (he : fails (.stream .notText) { m with input := (takeLine m.input).2 }) :
    Ends readLine m yields fails := by
  unfold Ends readLine
  -- What is left of the input does not depend on whether the line is a text.
  rcases ht : takeLine m.input with ⟨line, rest⟩
  simp only [ht] at hv he ⊢
  cases line with
  | nil => exact hv none
  | cons b bs =>
      cases hd : decode? (b :: bs) with
      | none => simpa only [hd] using he
      | some s => simpa only [hd] using hv (some s)

/-- Looking for an array by its name leaves the machine alone. -/
theorem ends_namedArray {name : String} {yields : ArrayId → Machine → Prop}
    (hv : ∀ id, m.store.get? name = some (.array id) → yields id m)
    (he : ∀ f, fails (.fault f) m) : Ends (namedArray name) m yields fails := by
  unfold namedArray
  rw [ends_bind, ends_lookup]
  split
  · rename_i id hfound
    exact hv id hfound
  · exact he _
  · exact he _

theorem eq_of_namedArray {name : String} {id : ArrayId} (hr : namedArray name m = .ok id m') :
    m' = m ∧ m.store.get? name = some (.array id) := by
  have hends : Ends (namedArray name) m
      (fun id m' => m' = m ∧ m.store.get? name = some (.array id)) fun _ _ => True :=
    ends_namedArray (fun _ hfound => ⟨rfl, hfound⟩) fun _ => trivial
  exact hends.of_ok hr

/-- An action goes on where a failure of it is taken up, on the machine that the
    failure has left. -/
theorem ends_recover {next? : Failure → Option (Action α)} :
    Ends (recover a next?) m yields fails ↔
      Ends a m yields fun e m' => match next? e with
        | some b => Ends b m' yields fails
        | none => fails e m' := by
  unfold Ends recover
  rcases a m with ⟨v, m'⟩ | ⟨e, m'⟩
  · rfl
  · dsimp only
    cases next? e <;> rfl

variable {m₁ m₂ : Machine}

/-- The elements before one that fails are gone through, and it is the end. -/
theorem mapM_of_error {f : α → Action β} {as : List α} {a : α} {vs : List β} {j : Nat}
    (hvs : (as.take j).mapM f m = .ok vs m₁) (ha : as[j]? = some a) (hf : f a m₁ = .error e m₂) :
    as.mapM f m = .error e m₂ := by
  induction as generalizing j m vs with
  | nil => cases ha
  | cons b bs ih =>
      rw [List.mapM_cons]
      cases j with
      | zero =>
          cases hvs
          cases ha
          exact bind_of_error hf
      -- The elements in front have succeeded, so the head is one of them.
      | succ j =>
          rw [List.take_succ_cons, List.mapM_cons] at hvs
          rcases exists_of_bind_ok hvs with ⟨w, m', hw, hrest⟩
          rcases exists_of_bind_ok hrest with ⟨ws, m'', hws, hpure⟩
          cases hpure
          exact (bind_of_ok hw).trans (bind_of_error (ih hws ha))

/-- What is in the values comes from an element, behind those before it. -/
theorem exists_of_mapM_ok {f : α → Action β} {as : List α} {bs : List β} {b : β}
    (h : as.mapM f m = .ok bs m') (hb : b ∈ bs) : ∃ a j us m₁ m₂, as[j]? = some a ∧
      (as.take j).mapM f m = .ok us m₁ ∧ f a m₁ = .ok b m₂ := by
  induction as generalizing bs m with
  | nil =>
      cases h
      cases hb
  | cons a as ih =>
      rw [List.mapM_cons] at h
      rcases exists_of_bind_ok h with ⟨w, m₁, hw, hrest⟩
      rcases exists_of_bind_ok hrest with ⟨ws, m₂, hws, hpure⟩
      cases hpure
      -- The value is that of the head, or one of the rest.
      rcases List.mem_cons.mp hb with rfl | hb
      · exact ⟨a, 0, [], m, m₁, rfl, rfl, hw⟩
      · rcases ih hws hb with ⟨c, j, us, n₁, n₂, hc, hus, hfc⟩
        refine ⟨c, j + 1, w :: us, n₁, n₂, hc, ?_, hfc⟩
        rw [List.take_succ_cons, List.mapM_cons, bind_of_ok hw, bind_of_ok hus]
        rfl

/-- A map that returns keeps the length. -/
theorem length_of_mapM_ok {f : α → Action β} {as : List α} {bs : List β}
    (h : as.mapM f m = .ok bs m') : bs.length = as.length := by
  induction as generalizing bs m with
  | nil =>
      cases h
      rfl
  | cons a as ih =>
      rw [List.mapM_cons] at h
      rcases exists_of_bind_ok h with ⟨w, m₁, _, hrest⟩
      rcases exists_of_bind_ok hrest with ⟨ws, m₂, hws, hpure⟩
      cases hpure
      rw [List.length_cons, List.length_cons, ih hws]

variable {P : Machine → Prop}

theorem upholds_pure (v : α) : Upholds P (pure v) := fun _ hm => ends_pure.mpr hm

/-- What two actions uphold, both in a row uphold. -/
theorem upholds_bind {f : α → Action β} (ha : Upholds P a) (hf : ∀ v, Upholds P (f v)) :
    Upholds P (a >>= f) :=
  fun m hm => ends_bind.mpr ((ha m hm).mono (fun v m' hm' => hf v m' hm') fun _ _ he => he)

/-- A continuation for failures starts on what the failing action has upheld. -/
theorem upholds_recover {next? : Failure → Option (Action α)} (ha : Upholds P a)
    (hnext : ∀ e b, next? e = some b → Upholds P b) : Upholds P (recover a next?) := by
  intro m hm
  rw [ends_recover]
  refine (ha m hm).mono (fun _ _ hv => hv) fun e m' he => ?_
  -- A failure that is not taken up leaves the machine on which it was met.
  split
  · rename_i hb
    exact hnext e _ hb m' he
  · exact he

end TreeScript
