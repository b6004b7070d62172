import TreeScript.Value.Sequence

/-!
# Arrays of a Heap

How the arrays of a heap hang together, and what the two changes of a heap do to
that: a new array behind all others, and another element in an array that
exists. An identity beyond the last array stands for an array without elements,
so most laws need no condition that the array exists.

What a change does is stated by one equation for the whole heap, with a condition on the
identity, and not by one lemma for the array that changes and another one for the others.
The case split is then made where it is needed, and often not at all.

Depths are recorded when an array is made and are never computed again. A write leaves
them alone, so whether they are still right after it is a question about the element that
is written, which is not answered here.

## Main definitions

* `Heap.Reaches`: An array is found by following elements from a value.
* `Heap.Extends`: A heap with more arrays, all older ones as they were.

## Theorems

* `Heap.items_alloc`, `Heap.depth_alloc`: The arrays after a new one.
* `Heap.get?_set`, `Heap.depth_set`: The arrays after a write.
* `Heap.depthWith_le_iff`, `Heap.depthWith_congr`: The depth of new arrays.
* `Heap.reaches_of_element`: What is reached by way of an element.
* `Heap.items_of_le`, `Heap.lt_of_mem_items`: Only arrays that exist have elements.
* `Heap.mem_items_set`: An element after a write is the new one, or it was there before.
* `Heap.Reaches.isArray`: Only an array leads to arrays.
* `Heap.Extends.items_eq`, `Heap.Extends.depth_eq`: Older arrays in a heap with more of
  them.
-/

namespace TreeScript

namespace Heap

variable {h h' : Heap} {id : ArrayId} {items : Array Value} {v : Value}

/-- There is nothing in an array that is not there. -/
theorem items_of_le (hid : h.cells.size ≤ id.index) : h.items id = #[] := by
  simp [Heap.items, Array.getElem?_eq_none hid]

/-- An array with elements is there. -/
theorem lt_of_mem_items (hv : v ∈ h.items id) : id.index < h.cells.size := by
  rcases Nat.lt_or_ge id.index h.cells.size with hlt | hge
  · exact hlt
  · rw [items_of_le hge] at hv
    simp at hv

theorem mem_items_of_get? {i : Nat} (hg : h.get? id i = some v) : v ∈ h.items id :=
  Array.mem_of_getElem? hg

/-- There is one array more. -/
@[simp]
theorem size_alloc : (h.alloc items).2.cells.size = h.cells.size + 1 := by
  simp [alloc]

theorem alloc_id : (h.alloc items).1 = ⟨h.cells.size⟩ := rfl

/-- The new array holds what it was made of, and the others what they held. -/
theorem items_alloc (id : ArrayId) :
    (h.alloc items).2.items id = if id.index = h.cells.size then items else h.items id := by
  simp only [alloc, Heap.items, Array.getElem?_push]
  split <;> rfl

/-- Its depth is one more than that of its elements. -/
theorem depth_alloc (id : ArrayId) :
    (h.alloc items).2.depth id =
      if id.index = h.cells.size then h.depthWith items else h.depth id := by
  simp only [alloc, depth, Array.getElem?_push]
  split <;> rfl

@[simp]
theorem size_set {i : Nat} : (h.set id i v).cells.size = h.cells.size := by
  simp [set]

/-- Depths are recorded once and not changed by a write. -/
@[simp]
theorem depth_set {i : Nat} (other : ArrayId) : (h.set id i v).depth other = h.depth other := by
  simp only [set, depth, Array.getElem?_modify]
  split <;> cases h.cells[other.index]? <;> rfl

/-- Exactly the element at the position is another one, if there is one. -/
theorem get?_set {i j : Nat} (other : ArrayId) :
    (h.set id i v).get? other j =
      if other = id ∧ j = i ∧ (h.get? id i).isSome then some v else h.get? other j := by
  unfold Heap.get?
  by_cases ho : other = id
  · subst ho
    rw [items_set_self, Array.getElem?_setIfInBounds]
    by_cases hj : i = j
    · -- Nothing is written behind the end of the array.
      subst hj
      by_cases hlt : i < (h.items other).size <;> simp [hlt]
    · simp [hj, Ne.symm hj]
  · rw [items_set_of_ne h ho]
    simp [ho]

/-- An element after a write is the new one, or it was there before. -/
theorem mem_items_set {i : Nat} {other : ArrayId} {w : Value}
    (hw : w ∈ (h.set id i v).items other) : w = v ∧ other = id ∨ w ∈ h.items other := by
  rcases Array.mem_iff_getElem?.mp hw with ⟨j, hj⟩
  have hg : (h.set id i v).get? other j = some w := hj
  rw [get?_set] at hg
  split at hg
  · rename_i hc
    exact Or.inl ⟨(Option.some.inj hg).symm, hc.1⟩
  · exact Or.inr (mem_items_of_get? hg)

/-- The depth of a new array is one more than the largest depth of an element. -/
theorem depthWith_eq :
    h.depthWith items = (items.toList.map h.depthOf).foldr max 0 + 1 := by
  -- The fold starts from any depth, which comes to the same as a maximum with it.
  have hfold : ∀ (vs : List Value) (d : Nat), vs.foldl (fun d v => max d (h.depthOf v)) d =
      max d ((vs.map h.depthOf).foldr max 0) := by
    intro vs
    induction vs with
    | nil => simp
    | cons v vs ih =>
        intro d
        rw [List.foldl_cons, ih, List.map_cons, List.foldr_cons, Nat.max_assoc]
  unfold depthWith
  rw [← Array.foldl_toList, hfold, Nat.zero_max]

/-- A bound on the maximum is a bound on each. -/
theorem foldr_max_le_iff {ns : List Nat} {d : Nat} :
    ns.foldr max 0 ≤ d ↔ ∀ n ∈ ns, n ≤ d := by
  induction ns with
  | nil => simp
  | cons n ns ih => rw [List.foldr_cons, Nat.max_le, ih, List.forall_mem_cons]

/-- So it is bounded by one more than a bound for its elements. -/
theorem depthWith_le_iff {d : Nat} :
    h.depthWith items ≤ d + 1 ↔ ∀ v ∈ items, h.depthOf v ≤ d := by
  rw [depthWith_eq, Nat.add_le_add_iff_right, foldr_max_le_iff]
  simp

/-- The depth of an array depends on the depths of its elements only. -/
theorem depthWith_congr {items' : Array Value}
    (hd : items'.map h'.depthOf = items.map h.depthOf) :
    h'.depthWith items' = h.depthWith items := by
  have hl := congrArg Array.toList hd
  rw [Array.toList_map, Array.toList_map] at hl
  rw [depthWith_eq, depthWith_eq, hl]

/-- An array is a value itself, or it is found by following elements from
    there. -/
inductive Reaches (h : Heap) (v : Value) : ArrayId → Prop where
  | self {id : ArrayId} : v = .array id → Reaches h v id
  | element {id inner : ArrayId} :
      Reaches h v id → .array inner ∈ h.items id → Reaches h v inner

/-- What is reached from an element is reached from the array. -/
theorem reaches_of_element {a b : ArrayId} (hv : v ∈ h.items a) (hr : h.Reaches v b) :
    h.Reaches (.array a) b := by
  induction hr with
  | self he =>
      rw [he] at hv
      exact (Reaches.self rfl).element hv
  | element _ hmem ih => exact ih.element hmem

/-- Only an array leads to arrays. -/
theorem Reaches.isArray {b : ArrayId} (hr : h.Reaches v b) : v.isArray = true := by
  induction hr with
  | self he =>
      rw [he]
      rfl
  | element _ _ ih => exact ih

/-- A heap that has more arrays, and all older ones as they were. -/
def Extends (h h' : Heap) : Prop := ∃ more, h'.cells = h.cells ++ more

theorem extends_refl (h : Heap) : h.Extends h := ⟨#[], by simp⟩

/-- A heap with more arrays twice over has more arrays. -/
theorem Extends.trans {h'' : Heap} (h₁ : h.Extends h') (h₂ : h'.Extends h'') :
    h.Extends h'' := by
  rcases h₁ with ⟨more₁, e₁⟩
  rcases h₂ with ⟨more₂, e₂⟩
  exact ⟨more₁ ++ more₂, by rw [e₂, e₁, Array.append_assoc]⟩

/-- Making an array leaves all others as they were. -/
theorem extends_alloc (h : Heap) (items : Array Value) : h.Extends (h.alloc items).2 :=
  ⟨#[⟨h.depthWith items, items⟩], by simp [alloc]⟩

theorem Extends.size_le (he : h.Extends h') : h.cells.size ≤ h'.cells.size := by
  rcases he with ⟨more, e⟩
  simp [e]

theorem Extends.cell (he : h.Extends h') (hid : id.index < h.cells.size) :
    h'.cells[id.index]? = h.cells[id.index]? := by
  rcases he with ⟨more, e⟩
  rw [e, Array.getElem?_append_left hid]

/-- An array that was there holds what it held. -/
theorem Extends.items_eq (he : h.Extends h') (hid : id.index < h.cells.size) :
    h'.items id = h.items id := by
  unfold Heap.items
  rw [he.cell hid]

/-- An extension keeps the depth of the storages that were there. -/
theorem Extends.depth_eq (he : h.Extends h') (hid : id.index < h.cells.size) :
    h'.depth id = h.depth id := by
  unfold Heap.depth
  rw [he.cell hid]

end Heap

end TreeScript
