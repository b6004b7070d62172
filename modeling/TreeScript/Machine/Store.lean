import TreeScript.Value.Basic

/-!
# Variables

The names of a program and what they are bound to. There is one flat space of
names. The first assignment to a name makes its binding, and later ones replace
it, whatever the type of the value that it had.

The bindings are a list, since there are few names in a program and laws of lists are at
hand. Nothing but the two functions below looks at it, and a name that is bound once stays
where it is.

## Main definitions

* `Store`: Bindings in the order in which the names came up.
* `Store.get?`, `Store.set`: Reading and writing a binding.

## Theorems

* `Store.get?_set_self`: A name has the value that it was given last.
* `Store.get?_set_of_ne`: Giving a value to a name leaves all other names alone.
-/

namespace TreeScript

/-- The bindings of a program, one for each name, oldest name first. -/
structure Store where
  bindings : List (String × Value)
  deriving DecidableEq, Inhabited

namespace Store

/-- The store without bindings. -/
def empty : Store := ⟨[]⟩

/-- The value of a name. -/
def get? (s : Store) (name : String) : Option Value :=
  s.bindings.lookup name

/-- A list of bindings in which a name has the given value: in its place if it
    is bound, at the end otherwise. -/
def bind (name : String) (v : Value) : List (String × Value) → List (String × Value)
  | [] => [(name, v)]
  | b :: bs => if b.1 = name then (name, v) :: bs else b :: bind name v bs

/-- The store in which a name has the given value. -/
def set (s : Store) (name : String) (v : Value) : Store :=
  ⟨bind name v s.bindings⟩

/-- A name that was just bound is found. -/
theorem lookup_bind_self (name : String) (v : Value) (bs : List (String × Value)) :
    (bind name v bs).lookup name = some v := by
  induction bs with
  | nil => simp [bind]
  | cons b bs ih =>
    obtain ⟨n, w⟩ := b
    by_cases h : n = name
    · simp [bind, h]
    · have hne : (name == n) = false := by simpa using fun e => h e.symm
      simp [bind, h, List.lookup_cons, hne, ih]

/-- Binding a name does not touch the others. -/
theorem lookup_bind_of_ne {name other : String} (hne : other ≠ name) (v : Value)
    (bs : List (String × Value)) : (bind name v bs).lookup other = bs.lookup other := by
  have hf : (other == name) = false := by simpa using hne
  induction bs with
  | nil => simp [bind, List.lookup_cons, hf]
  | cons b bs ih =>
    obtain ⟨n, w⟩ := b
    by_cases h : n = name
    · subst h
      simp [bind, List.lookup_cons, hf]
    · simp [bind, h, List.lookup_cons, ih]

@[simp]
theorem get?_empty (name : String) : empty.get? name = none := rfl

/-- A name has the value that it was given last. -/
@[simp]
theorem get?_set_self (s : Store) (name : String) (v : Value) :
    (s.set name v).get? name = some v :=
  lookup_bind_self name v s.bindings

/-- Giving a value to a name leaves all other names alone. -/
theorem get?_set_of_ne {name other : String} (hne : other ≠ name) (s : Store) (v : Value) :
    (s.set name v).get? other = s.get? other :=
  lookup_bind_of_ne hne v s.bindings

end Store

end TreeScript
