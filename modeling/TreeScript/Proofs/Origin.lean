import TreeScript.Eval.InputLine
import TreeScript.Proofs.Arrays
import TreeScript.Proofs.Fold
import TreeScript.Value.Grid
import TreeScript.Value.Operation

/-!
# Where Elements Come From

Operators do not make up elements. What an operator yields is a number, a text
or a new array whose elements are all elements of its operands; what an index or
a list of positions yields is a character or an element of an array on the way.
The place that an element is written to holds an element already, and neither
that one nor the new one is an array.

None of this speaks of a particular condition on values. An invariant says which values
may be kept, and that it is inherited by elements; here it is shown that inheritance is
all that an operator asks for. So a new operator needs one lemma of this kind, and no
invariant has to be looked at again.

`Produced.From` leaves open which elements may be used, because operators, lists and
repetitions are allowed different ones. For a binary operator these are `Heap.Own`, the
elements of the arrays among its two operands.

## Main definitions

* `Value.Plain`: Numbers and texts.
* `Produced.From`: What is made of the elements of some arrays only.
* `Heap.Open`: A place that can be written to.

## Theorems

* `Heap.binary_from`: What a binary operator yields.
* `Heap.index_from`: What an index yields.
* `Heap.elementAt_keeps`: A condition that elements inherit from arrays holds of
  what positions lead to.
* `Heap.slot_open`: Where an element is written.
* `negate_plain`, `inputValue_plain`: Numbers and texts from elsewhere.
* `Heap.sequence_from`, `Heap.arith_from`: The operators on sequences and numbers.
* `mem_of_mem_repeatItems`: A repetition has no other elements than what is repeated.
* `Heap.length_le_of_dimensions`: There is a bound on the number of sides.
-/

namespace TreeScript

/-- Numbers and texts: the values that are neither arrays nor marks. -/
inductive Value.Plain : Value → Prop where
  | number (n : Number) : Plain (.number n)
  | text (s : String) : Plain (.text s)

/-- What an operator may produce of the elements that `own` allows: a plain
    value, or a new array with such elements. -/
inductive Produced.From (own : Value → Prop) : Produced → Prop where
  | plain {v : Value} : v.Plain → From own (.value v)
  | fresh {items : Array Value} : (∀ v ∈ items, own v) → From own (.fresh items)

/-- What a step does to a count, any number of steps do to it. -/
theorem repeat_counts {α : Type} {P : Nat → α → Prop} {f : α → α} {a : α} (zero : P 0 a)
    (succ : ∀ k b, P k b → P (k + 1) (f b)) (n : Nat) : P n (Nat.repeat f n a) := by
  induction n with
  | zero => exact zero
  | succ n ih => exact succ n _ ih

/-- What a step keeps, any number of steps keeps. -/
theorem repeat_keeps {α : Type} {P : α → Prop} {f : α → α} (keeps : ∀ a, P a → P (f a))
    (n : Nat) {a : α} (ha : P a) : P (Nat.repeat f n a) :=
  repeat_counts ha (fun _ a => keeps a) n

/-- An array may be as deep as the limit says. -/
theorem checkDepth_eq_ok_iff {depth : Nat} : checkDepth depth = .ok () ↔ depth ≤ maxDepth := by
  unfold checkDepth
  split <;> simp_all

/-- What has been put down in the end was there before or is one of the elements. -/
theorem mem_of_mem_fill {items filled : Array Value} {total : Nat}
    {more : 0 < total → 0 < items.size} {v : Value} (hv : v ∈ fill items total more filled) :
    v ∈ filled ∨ v ∈ items := by
  induction filled using fill.induct items total more with
  | case1 filled hlt ih =>
      rw [fill, if_pos hlt] at hv
      -- What the loop appends is taken from the items.
      rcases ih hv with hv | hv
      · exact Array.mem_append.mp hv
      · exact Or.inr hv
  | case2 filled hge =>
      rw [fill, if_neg hge] at hv
      exact Or.inl hv

theorem mem_of_mem_repeatItems {items : Array Value} {n : Nat} {v : Value}
    (hv : v ∈ repeatItems items n) : v ∈ items := by
  rcases mem_of_mem_fill hv with hv | hv
  · simp at hv
  · exact hv

theorem negate_plain {v w : Value} (hw : negate v = .ok w) : w.Plain := by
  unfold negate at hw
  split at hw
  · split at hw
    · cases hw
      exact .number _
    · cases hw
  · cases hw

/-- A line of input is a number or a text. -/
theorem inputValue_plain (line : String) : (inputValue line).Plain := by
  unfold inputValue
  dsimp only
  split
  · exact .number _
  · exact .text _

namespace Heap

variable {h : Heap}

/-- The elements of the arrays among two operands. -/
def Own (h : Heap) (left right v : Value) : Prop :=
  ∃ id, (left = .array id ∨ right = .array id) ∧ v ∈ h.items id

/-- A sequence is made of the elements of its operands. -/
theorem sequence_from {op : ArithOp} {left right : Value} {p : Produced}
    (hp : h.sequence op left right = .ok p) : p.From (h.Own left right) := by
  unfold sequence at hp
  -- A case for each pair of operands that has a meaning, texts before arrays.
  split at hp
  · rcases exists_of_bind hp with ⟨_, _, hp⟩
    cases hp
    exact .plain (.text _)
  · rcases exists_of_bind hp with ⟨_, _, hp⟩
    cases hp
    refine .fresh fun v hv => ?_
    rcases Array.mem_append.mp hv with hv | hv
    · exact ⟨_, Or.inl rfl, hv⟩
    · exact ⟨_, Or.inr rfl, hv⟩
  · rcases exists_of_bind hp with ⟨_, _, hp⟩
    cases hp
    exact .plain (.text _)
  · rcases exists_of_bind hp with ⟨_, _, hp⟩
    cases hp
    exact .plain (.text _)
  · -- Repeating takes the array on the left or on the right.
    rcases exists_of_bind hp with ⟨_, _, hp⟩
    cases hp
    exact .fresh fun v hv => ⟨_, Or.inl rfl, mem_of_mem_repeatItems hv⟩
  · rcases exists_of_bind hp with ⟨_, _, hp⟩
    cases hp
    exact .fresh fun v hv => ⟨_, Or.inr rfl, mem_of_mem_repeatItems hv⟩
  · cases hp

/-- Arithmetic makes numbers, or sequences of the elements of its operands. -/
theorem arith_from {op : ArithOp} {left right : Value} {p : Produced}
    (hp : h.arith op left right = .ok p) : p.From (h.Own left right) := by
  unfold arith at hp
  split at hp
  · rename_i a b
    cases hn : Number.arith op a b with
    | error f =>
        rw [hn] at hp
        cases hp
    | ok n =>
        rw [hn] at hp
        cases hp
        exact .plain (.number n)
  · -- Without two numbers it is a sequence that is made.
    exact sequence_from hp

/-- A binary operator yields a plain value, or a new array of elements of its
    operands. -/
theorem binary_from {op : BinaryOp} {left right : Value} {p : Produced}
    (hp : h.binary op left right = .ok p) : p.From (h.Own left right) := by
  cases op with
  | arith op => exact arith_from hp
  | compare op =>
      cases hp
      exact .plain (.number _)
  | logic op =>
      cases hp
      cases op <;> exact .plain (.number _)

/-- An index yields a character of a text or an element of an array. -/
theorem index_from {base i v : Value} (hv : h.index base i = .ok v) :
    v.Plain ∨ ∃ id, base = .array id ∧ v ∈ h.items id := by
  unfold index at hv
  split at hv
  · cases hv
  · split at hv
    · cases hv
    · split at hv
      · cases hv
      · rename_i w hw
        cases hv
        rcases Option.bind_eq_some_iff.mp hw with ⟨position, _, he⟩
        -- An element of an array is one of its items, and one of a text is a character.
        unfold element? at he
        split at he
        · exact Or.inr ⟨_, rfl, mem_items_of_get? he⟩
        · rcases Option.map_eq_some_iff.mp he with ⟨c, _, rfl⟩
          exact Or.inl (.text _)
        · cases he

/-- What elements inherit from their arrays holds of all that positions lead to. -/
theorem elementAt_keeps {P : Value → Prop}
    (element : ∀ id v, P (.array id) → v ∈ h.items id → P v) {id : ArrayId}
    {positions : List Nat} {v : Value} (hid : P (.array id))
    (hv : h.elementAt id positions = some v) : P v := by
  -- Each position is one step down, so the value reached so far is generalized.
  have hfold : ∀ (positions : List Nat) (here : Value), P here →
      positions.foldlM h.descend? here = some v → P v := by
    intro positions
    induction positions with
    | nil =>
        intro here hhere he
        cases he
        exact hhere
    | cons i rest ih =>
        intro here hhere he
        rw [List.foldlM_cons] at he
        rcases Option.bind_eq_some_iff.mp he with ⟨next, hnext, hrest⟩
        refine ih next ?_ hrest
        unfold descend? at hnext
        split at hnext
        · exact element _ _ hhere (mem_items_of_get? hnext)
        · cases hnext
  exact hfold positions _ hid hv

/-- A block has no more sides than arrays may be nested. -/
theorem length_le_of_dimensions {vs : List Value} {sides : List Nat}
    (hs : h.dimensions vs = .ok sides) : sides.length ≤ maxDepth := by
  unfold dimensions at hs
  rcases exists_of_bind hs with ⟨_, hdepth, hs⟩
  rcases exists_of_bind hs with ⟨out, hout, hs⟩
  rcases exists_of_bind hs with ⟨_, _, hs⟩
  cases hs
  rw [length_mapM hout]
  exact checkDepth_eq_ok_iff.mp hdepth

/-- A place that holds an element which is no array. -/
def Open (h : Heap) (id : ArrayId) (i : Nat) : Prop :=
  ∃ w, h.get? id i = some w ∧ w.isArray = false

/-- An element is written to a place that is open, in an array that the
    positions lead to, and it is no array itself. -/
theorem slot_open {id : ArrayId} {positions : List Nat} {v : Value} {name : String} {s : Slot}
    (hs : h.slot id positions v name = .ok s) :
    h.elementAt id positions.dropLast = some (.array s.array) ∧
      h.Open s.array s.position ∧ v.isArray = false := by
  unfold slot at hs
  split at hs
  · cases hs
  · dsimp only at hs
    split at hs
    · rename_i parent hparent
      split at hs
      · cases hs
      · rename_i last _ found hfound
        split at hs
        · cases hs
        · rename_i hv
          split at hs
          · rename_i hsome
            cases hs
            rcases Option.isSome_iff_exists.mp hsome with ⟨w, hw⟩
            refine ⟨hparent, ⟨w, hw, ?_⟩, by simpa using hv⟩
            -- Had it been an array, the first case would have met it.
            cases w with
            | array inner => exact absurd hw (hfound inner)
            | _ => rfl
          · cases hs
    · cases hs

end Heap

end TreeScript
