/-!
# Steps That May Fail

Folding a step over a list where the step can refuse an element. Scanning and
reading are both such folds, and everything that is said about a whole text is
said about one step first and carried along the fold by the lemmas here.

A fold over two lists in a row is the fold over the second from where the first
one ends, and a fold that fails has a first element at which it does.

Without these lemmas each proof would open the fold and split on the result of every step.
With them a proof says which part fails or succeeds, and the fold itself stays closed. The
one induction that a caller has a part in is `foldlM_keeps`, which asks for a single step.

## Theorems

* `exists_of_bind`: What succeeds succeeds in both of its parts.
* `map_eq_ok_iff`, `map_eq_error_iff`: Changing a result does not mend a failure.
* `foldlM_cons_of_ok`, `foldlM_append_of_ok`: A fold goes on behind a part that
  succeeds.
* `foldlM_append_of_error`: A fold that fails is not mended by what follows.
* `exists_of_foldlM_append`: A fold that succeeds succeeds on every prefix.
* `exists_of_foldlM_error`: A fold that fails does so at one element.
* `foldlM_keeps`: What every step keeps, the whole fold keeps.
* `length_mapM`: A step on every element yields as many results.
* `exists_of_mapM`: Each of them is the result of the step on its element.
* `exists_of_foldlM_cons`: A fold that succeeds takes its first step.
-/

namespace TreeScript

variable {σ α ε : Type} {f : σ → α → Except ε σ} {s t u : σ} {e : ε}

theorem exists_of_bind {β γ : Type} {x : Except ε β} {g : β → Except ε γ} {c : γ}
    (h : (x >>= g) = .ok c) : ∃ b, x = .ok b ∧ g b = .ok c := by
  cases x with
  | error e => cases h
  | ok b => exact ⟨b, rfl, h⟩

theorem map_eq_ok_iff {β γ : Type} {g : β → γ} {x : Except ε β} {c : γ} :
    x.map g = .ok c ↔ ∃ b, x = .ok b ∧ c = g b := by
  cases x with
  | error e => exact ⟨nofun, nofun⟩
  | ok b => simp [Except.map, eq_comm]

theorem map_eq_error_iff {β γ : Type} {g : β → γ} {x : Except ε β} :
    x.map g = .error e ↔ x = .error e := by
  cases x <;> simp [Except.map]

theorem foldlM_cons_of_ok {a : α} {as : List α} (h : f s a = .ok t) :
    (a :: as).foldlM f s = as.foldlM f t := by
  rw [List.foldlM_cons, h]
  rfl

/-- A fold over two lists goes on from where the first one ended. -/
theorem foldlM_append_of_ok {as bs : List α} (h : as.foldlM f s = .ok t) :
    (as ++ bs).foldlM f s = bs.foldlM f t := by
  rw [List.foldlM_append, h]
  rfl

/-- A fold that has failed does not look at the rest. -/
theorem foldlM_append_of_error {as bs : List α} (h : as.foldlM f s = .error e) :
    (as ++ bs).foldlM f s = .error e := by
  rw [List.foldlM_append, h]
  rfl

theorem exists_of_foldlM_cons {a : α} {as : List α} (h : (a :: as).foldlM f s = .ok u) :
    ∃ t, f s a = .ok t ∧ as.foldlM f t = .ok u := by
  rw [List.foldlM_cons] at h
  exact exists_of_bind h

theorem exists_of_foldlM_append {as bs : List α} (h : (as ++ bs).foldlM f s = .ok u) :
    ∃ t, as.foldlM f s = .ok t ∧ bs.foldlM f t = .ok u := by
  rw [List.foldlM_append] at h
  exact exists_of_bind h

/-- A fold that fails has an element that is refused, and succeeds on all
    elements before it. -/
theorem exists_of_foldlM_error {as : List α} (h : as.foldlM f s = .error e) :
    ∃ i, ∃ hi : i < as.length, ∃ t, (as.take i).foldlM f s = .ok t ∧ f t as[i] = .error e := by
  -- Either the first element is refused, or the place is found one further on.
  induction as generalizing s with
  | nil => cases h
  | cons a as ih =>
      cases hs : f s a with
      | error e' =>
          rw [List.foldlM_cons, hs] at h
          cases h
          exact ⟨0, Nat.zero_lt_succ _, s, rfl, hs⟩
      | ok t =>
          rw [foldlM_cons_of_ok hs] at h
          rcases ih h with ⟨i, hi, u, hu, he⟩
          refine ⟨i + 1, Nat.succ_lt_succ hi, u, ?_, he⟩
          rw [List.take_succ_cons, foldlM_cons_of_ok hs]
          exact hu

/-- What every step keeps, the whole fold keeps. -/
theorem foldlM_keeps {P : σ → Prop} (keeps : ∀ s a t, P s → f s a = .ok t → P t)
    {as : List α} (hs : P s) (h : as.foldlM f s = .ok t) : P t := by
  induction as generalizing s with
  | nil =>
      cases h
      exact hs
  | cons a as ih =>
      rcases exists_of_foldlM_cons h with ⟨u, hu, hrest⟩
      exact ih (keeps s a u hs hu) hrest

/-- A map that succeeds keeps the length. -/
theorem length_mapM {β : Type} {g : α → Except ε β} {as : List α} {bs : List β}
    (h : as.mapM g = .ok bs) : bs.length = as.length := by
  induction as generalizing bs with
  | nil =>
      cases h
      rfl
  | cons a as ih =>
      rw [List.mapM_cons] at h
      rcases exists_of_bind h with ⟨b, _, h⟩
      rcases exists_of_bind h with ⟨rest, hrest, h⟩
      cases h
      rw [List.length_cons, List.length_cons, ih hrest]

/-- An entry of the result comes from the entry at the same place. -/
theorem exists_of_mapM {β : Type} {g : α → Except ε β} {as : List α} {bs : List β} {i : Nat}
    {b : β} (h : as.mapM g = .ok bs) (hb : bs[i]? = some b) :
    ∃ a, as[i]? = some a ∧ g a = .ok b := by
  induction as generalizing bs i with
  | nil =>
      cases h
      simp at hb
  | cons a as ih =>
      rw [List.mapM_cons] at h
      rcases exists_of_bind h with ⟨first, hfirst, h⟩
      rcases exists_of_bind h with ⟨rest, hrest, h⟩
      cases h
      -- The first entry comes from the head, and the others from the rest.
      cases i with
      | zero =>
          rw [List.getElem?_cons_zero] at hb ⊢
          cases hb
          exact ⟨a, rfl, hfirst⟩
      | succ i =>
          rw [List.getElem?_cons_succ] at hb ⊢
          exact ih hrest hb

end TreeScript
