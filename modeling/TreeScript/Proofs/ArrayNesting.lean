import TreeScript.Proofs.History

/-!
# How Arrays Are Nested

The depth of an array is counted once, when the array is made, and everything
that descends into arrays relies on it: no array is found inside itself, the
depth that is recorded is the true one, and it is at most the bound. That is so
of every array that a program can get at, since an array is made of older ones
only and a write never puts an array into an element, or takes one out.

`IsDepth` is the true depth. It is defined from the elements alone, by a
derivation that would have no end for an array inside itself.

Arrays are numbered in the order in which they are made, and `Heap.Founded` is stated with
these numbers. From that it follows that there are no circles, and the induction on
numbers gives the derivation of the depth. The invariant is preserved by a new array
because its elements exist, and by a write because neither the old element nor the new one
is an array, which is known of every place that evaluation writes to.

Shapes are compared with the machine from before, and so `shapeInvariant` has the older
heap as a parameter.

## Main definitions

* `Heap.IsDepth`: The depth of an array, by its elements.
* `Heap.Founded`, `Heap.Layered`: Arrays hold older arrays, and the invariant: they do,
  with the depth recorded.
* `SameShape`, `Heap.KeepsShape`: Arrays where only elements that are no arrays
  have changed.
* `Machine.Refers`: The arrays that a program can get at.

## Theorems

* `Heap.Layered.isDepth`: The recorded depth is the depth.
* `arrays_nest_soundly`: All arrays of a history are nested as recorded, and no
  evaluation changes the shape of an array.
* `Heap.Founded.index_le`: What is reached is not younger.
* `Heap.Layered.alloc`, `Heap.Layered.set`: A new array and a write keep the invariant.
* `sameShape_set`: A write between values that are no arrays keeps the shape.
-/

namespace TreeScript

/-- The array that a value is. -/
def Value.array? : Value → Option ArrayId
  | .array id => some id
  | _ => none

theorem Value.array?_eq_some_iff {v : Value} {id : ArrayId} :
    v.array? = some id ↔ v = .array id := by
  cases v <;> simp [Value.array?]

namespace Heap

variable {h : Heap} {id inner : ArrayId}

/-- The arrays among the elements of an array. -/
def elementArrays (h : Heap) (id : ArrayId) : List ArrayId :=
  (h.items id).toList.filterMap Value.array?

/-- The arrays among the elements are the elements that are arrays. -/
theorem mem_elementArrays : inner ∈ h.elementArrays id ↔ .array inner ∈ h.items id := by
  simp [elementArrays, Value.array?_eq_some_iff]

/-- The depth of an array: one more than the largest depth of an array among its
    elements, which is zero if there is none. -/
inductive IsDepth (h : Heap) : ArrayId → Nat → Prop where
  | intro (id : ArrayId) (depths : ArrayId → Nat) :
      (∀ inner ∈ h.elementArrays id, IsDepth h inner (depths inner)) →
        IsDepth h id (1 + ((h.elementArrays id).map depths).foldr max 0)

/-- Arrays hold older arrays only. -/
def Founded (h : Heap) : Prop := ∀ id inner, .array inner ∈ h.items id → inner.index < id.index

/-- Arrays hold older arrays only, and the depth that is recorded fits the depths
    recorded of the elements. -/
structure Layered (h : Heap) : Prop where
  older : ∀ id inner, .array inner ∈ h.items id → inner.index < id.index
  recorded : ∀ id, id.index < h.cells.size → h.depth id = h.depthWith (h.items id)
  bounded : ∀ id, h.depth id ≤ maxDepth

theorem Layered.founded (hl : h.Layered) : h.Founded := hl.older

/-- A value that refers to no array without storage. -/
def Stored (h : Heap) (v : Value) : Prop := ∀ id, v = .array id → id.index < h.cells.size

/-- What can be reached from an array is not younger than it. -/
theorem Founded.index_le (hf : h.Founded) {v : Value} (hr : h.Reaches v inner) :
    ∃ id, v = .array id ∧ inner.index ≤ id.index := by
  induction hr with
  | self he => exact ⟨_, he, Nat.le_refl _⟩
  | element _ hmem ih =>
      rcases ih with ⟨id, hv, hle⟩
      exact ⟨id, hv, Nat.le_trans (Nat.le_of_lt (hf _ _ hmem)) hle⟩

/-- No element leads back to the array that holds it. -/
theorem Layered.acyclic (hl : h.Layered) {v : Value} (hv : v ∈ h.items id) : ¬ h.Reaches v id := by
  intro hr
  rcases hl.founded.index_le hr with ⟨inner, rfl, hle⟩
  have hlt := hl.older id inner hv
  omega

/-- Counting the depths of all elements, or those of arrays only, is the same. -/
theorem foldr_depthOf (vs : List Value) :
    (vs.map h.depthOf).foldr max 0 = ((vs.filterMap Value.array?).map h.depth).foldr max 0 := by
  induction vs with
  | nil => rfl
  | cons v vs ih => cases v <;> simp [depthOf, Value.array?, List.filterMap_cons, ih]

/-- The recorded depth is the depth, since it has been computed from older arrays. -/
theorem Layered.isDepth (hl : h.Layered) (id : ArrayId) (hid : id.index < h.cells.size) :
    h.IsDepth id (h.depth id) := by
  rw [hl.recorded id hid, depthWith_eq, foldr_depthOf, Nat.add_comm]
  -- Elements are older than the array, so the recursion comes to an end.
  refine .intro id h.depth fun inner hinner => ?_
  have hlt := hl.older id inner (mem_elementArrays.mp hinner)
  exact hl.isDepth inner (Nat.lt_trans hlt hid)
termination_by id.index

/-- A heap without arrays is layered. -/
theorem layered_empty : empty.Layered :=
  ⟨fun _ _ hmem => absurd (lt_of_mem_items hmem) (Nat.not_lt_zero _),
    fun _ hid => absurd hid (Nat.not_lt_zero _), fun _ => Nat.zero_le _⟩

/-- A new array does not change the depth of a value that is there. -/
theorem depthOf_alloc {items : Array Value} {v : Value} (hv : h.Stored v) :
    (h.alloc items).2.depthOf v = h.depthOf v := by
  cases v with
  | array id =>
      have hlt := hv id rfl
      simp only [depthOf]
      rw [depth_alloc, if_neg (Nat.ne_of_lt hlt)]
  | _ => rfl

theorem depthWith_alloc {items vs : Array Value} (hvs : ∀ v ∈ vs, h.Stored v) :
    (h.alloc items).2.depthWith vs = h.depthWith vs :=
  depthWith_congr (Array.map_congr_left fun v hv => depthOf_alloc (hvs v hv))

/-- Elements are arrays that are there, or no arrays. -/
theorem Founded.stored (hf : h.Founded) {v : Value} (hv : v ∈ h.items id) : h.Stored v := by
  intro inner he
  subst he
  exact Nat.lt_trans (hf id inner hv) (lt_of_mem_items hv)

theorem Layered.stored (hl : h.Layered) {v : Value} (hv : v ∈ h.items id) : h.Stored v :=
  hl.founded.stored hv

/-- A new array is made of older ones. -/
theorem Founded.alloc (hf : h.Founded) {items : Array Value} (hitems : ∀ v ∈ items, h.Stored v) :
    (h.alloc items).2.Founded := by
  intro id inner hmem
  rw [items_alloc] at hmem
  split at hmem
  · rename_i hnew
    rw [hnew]
    exact hitems _ hmem inner rfl
  · exact hf id inner hmem

/-- Elements of arrays leave room for one more array around them. -/
theorem Layered.depthWith_le (hl : h.Layered) {items : Array Value} (hfits : h.Fits items) :
    h.depthWith items ≤ maxDepth := by
  rcases hfits with hle | hheld
  · exact hle
  · refine depthWith_le_iff.mpr fun v hv => ?_
    rcases hheld v hv with ⟨id, hmem⟩
    have hbound := hl.bounded id
    rw [hl.recorded id (lt_of_mem_items hmem)] at hbound
    exact depthWith_le_iff.mp hbound v hmem

/-- A new array whose elements are there and not too deep leaves the heap layered. -/
theorem Layered.alloc (hl : h.Layered) {items : Array Value} (hitems : ∀ v ∈ items, h.Stored v)
    (hfits : h.Fits items) : (h.alloc items).2.Layered := by
  -- Each part is shown of the new array first, and then of those that were there.
  refine ⟨hl.founded.alloc hitems, fun id hid => ?_, fun id => ?_⟩
  · rw [items_alloc, depth_alloc]
    split
    · exact (depthWith_alloc hitems).symm
    · rename_i hold
      rw [size_alloc] at hid
      rw [depthWith_alloc fun v hv => hl.stored hv]
      exact hl.recorded id (by omega)
  · rw [depth_alloc]
    split
    · exact hl.depthWith_le hfits
    · exact hl.bounded id

theorem depthOf_of_not_isArray {v : Value} (hv : v.isArray = false) : h.depthOf v = 0 := by
  cases v with
  | array _ => cases hv
  | _ => rfl

/-- Writing an element changes no depth that is recorded. -/
theorem depthOf_set {i : Nat} {v w : Value} : (h.set id i v).depthOf w = h.depthOf w := by
  cases w with
  | array other => exact depth_set other
  | _ => rfl

/-- Where neither the old element nor the new one is an array, the elements are
    as deep as before. -/
theorem depthWith_set {i : Nat} {v : Value} (ho : h.Open id i) (hv : v.isArray = false)
    (other : ArrayId) : (h.set id i v).depthWith ((h.set id i v).items other) =
      h.depthWith (h.items other) := by
  refine depthWith_congr (Array.ext_getElem? fun j => ?_)
  have hget : ((h.set id i v).items other)[j]? =
      if other = id ∧ j = i ∧ (h.get? id i).isSome then some v else (h.items other)[j]? :=
    get?_set other
  have hdepth : (h.set id i v).depthOf = h.depthOf := funext fun _ => depthOf_set
  rw [Array.getElem?_map, Array.getElem?_map, hget, hdepth]
  split
  · rename_i hc
    -- Both elements count for nothing.
    rcases hc with ⟨rfl, rfl, _⟩
    rcases ho with ⟨w, hw, hnone⟩
    have hold : (h.items other)[j]? = some w := hw
    rw [hold, Option.map_some, Option.map_some, depthOf_of_not_isArray hv,
      depthOf_of_not_isArray hnone]
  · rfl

/-- Neither does a write change whether it is layered: it takes no array out and puts none in. -/
theorem Layered.set (hl : h.Layered) {i : Nat} {v : Value} (ho : h.Open id i)
    (hv : v.isArray = false) : (h.set id i v).Layered := by
  refine ⟨fun other inner hmem => ?_, fun other hid => ?_, fun other => ?_⟩
  · -- The new element is no array, so any array among the elements was there before.
    rcases mem_items_set hmem with ⟨he, _⟩ | hold
    · rw [← he] at hv
      cases hv
    · exact hl.older other inner hold
  · rw [depth_set, depthWith_set ho hv]
    exact hl.recorded other (by simpa using hid)
  · rw [depth_set]
    exact hl.bounded other

end Heap

/-- Arrays are layered, and what is kept has storage. -/
def nestingInvariant : Invariant where
  arrays := Heap.Layered
  data := Heap.Stored
  data_plain := by
    intro h v hv id he
    subst he
    cases hv
  data_element := fun hl _ hmem => hl.stored hmem
  data_alloc := by
    intro h items v hv id he
    rw [Heap.size_alloc]
    exact Nat.lt_succ_of_lt (hv id he)
  data_set := by
    intro h id i v w hw other he
    rw [Heap.size_set]
    exact hw other he
  alloc := by
    intro h items hl hitems hfits
    refine ⟨hl.alloc hitems hfits, fun id he => ?_⟩
    cases he
    rw [Heap.size_alloc, Heap.alloc_id]
    exact Nat.lt_succ_self _
  set := fun hl _ ho _ hv => hl.set ho hv

/-- Elements of an array before and after, where only elements that are no arrays
    may have changed, and not into arrays. -/
structure SameShape (old new : Array Value) : Prop where
  size : new.size = old.size
  array : ∀ (i : Nat) (id : ArrayId), old[i]? = some (.array id) → new[i]? = some (.array id)
  other : ∀ (i : Nat) (v : Value), old[i]? = some v → v.isArray = false →
    ∃ w : Value, new[i]? = some w ∧ w.isArray = false

/-- Every array of a heap has kept its shape. -/
def Heap.KeepsShape (h h' : Heap) : Prop :=
  ∀ id, id.index < h.cells.size → SameShape (h.items id) (h'.items id)

theorem sameShape_refl (items : Array Value) : SameShape items items :=
  ⟨rfl, fun _ _ h => h, fun _ v h hv => ⟨v, h, hv⟩⟩

/-- Shapes that are the same twice are the same. -/
theorem SameShape.trans {a b c : Array Value} (h₁ : SameShape a b) (h₂ : SameShape b c) :
    SameShape a c := by
  refine ⟨h₂.size.trans h₁.size, fun i id h => h₂.array i id (h₁.array i id h), ?_⟩
  intro i v h hv
  rcases h₁.other i v h hv with ⟨w, hw, hnone⟩
  exact h₂.other i w hw hnone

/-- A write to an element that is no array changes no shape. -/
theorem sameShape_set {h : Heap} {id : ArrayId} {i : Nat} {v : Value} (ho : h.Open id i)
    (hv : v.isArray = false) (other : ArrayId) :
    SameShape (h.items other) ((h.set id i v).items other) := by
  by_cases he : other = id
  · subst he
    rcases ho with ⟨w, hw, hnone⟩
    rw [Heap.items_set_self]
    refine ⟨Array.size_setIfInBounds, fun j inner hj => ?_, fun j u hj hu => ?_⟩
    · by_cases hij : i = j
      · -- The element at the place that is written to is no array.
        subst hij
        rw [Heap.get?, hj] at hw
        cases hw
        cases hnone
      · rw [Array.getElem?_setIfInBounds_ne hij]
        exact hj
    · by_cases hij : i = j
      · subst hij
        rcases Array.getElem?_eq_some_iff.mp hj with ⟨hlt, _⟩
        exact ⟨v, Array.getElem?_setIfInBounds_self_of_lt hlt, hv⟩
      · rw [Array.getElem?_setIfInBounds_ne hij]
        exact ⟨u, hj, hu⟩
  · rw [Heap.items_set_of_ne h he]
    exact sameShape_refl _

/-- The arrays of an older heap are all there and have their shape. -/
def shapeInvariant (old : Heap) : Invariant where
  arrays h := old.cells.size ≤ h.cells.size ∧ old.KeepsShape h
  data _ _ := True
  data_plain _ := trivial
  data_element _ _ _ := trivial
  data_alloc _ := trivial
  data_set _ := trivial
  alloc := by
    intro h items ha _ _
    rcases ha with ⟨hsize, hshape⟩
    refine ⟨⟨?_, fun id hid => ?_⟩, trivial⟩
    · rw [Heap.size_alloc]
      exact Nat.le_succ_of_le hsize
    · rw [Heap.items_alloc, if_neg (by omega)]
      exact hshape id hid
  set := by
    intro h id i v ha _ ho _ hv
    rcases ha with ⟨hsize, hshape⟩
    refine ⟨?_, fun other hother => ?_⟩
    · rw [Heap.size_set]
      exact hsize
    · exact (hshape other hother).trans (sameShape_set ho hv other)

/-- An array is nested soundly: it is not found inside itself, its depth is the
    one recorded, and that is not too large. -/
structure Heap.NestsSoundly (h : Heap) (id : ArrayId) : Prop where
  acyclic : ∀ v ∈ h.items id, ¬ h.Reaches v id
  exact_depth : h.IsDepth id (h.depth id)
  bounded : h.depth id ≤ 64

/-- A program can get at an array: a name is bound to it, an array holds it, or
    it has been yielded. -/
def Machine.Refers (m : Machine) (yielded : List Value) (id : ArrayId) : Prop :=
  (∃ name, m.store.get? name = some (.array id)) ∨ (∃ holder, .array id ∈ m.heap.items holder) ∨
    .array id ∈ yielded

/-- In every history all arrays that a program can get at are nested soundly, and
    whatever is evaluated on whatever machine, however it ends, all arrays that
    there were keep their shape. -/
theorem arrays_nest_soundly :
    (∀ m yielded, Reached m yielded → ∀ id, m.Refers yielded id → m.heap.NestsSoundly id) ∧
    ∀ limits t (m : Machine), m.heap.KeepsShape ((evaluate limits t).after m).heap := by
  constructor
  · intro m yielded hreached id hrefers
    have hstart : ∀ input limit, nestingInvariant.Holds (.start input limit) :=
      fun _ _ => ⟨Heap.layered_empty, fun _ _ hv => by cases hv⟩
    rcases Invariant.holds_of_reached hstart hreached with ⟨hm, hyielded⟩
    have hl : m.heap.Layered := hm.arrays
    -- However the program gets at the array, it has storage.
    have hstored : id.index < m.heap.cells.size := by
      rcases hrefers with ⟨name, hname⟩ | ⟨holder, hmem⟩ | hmem
      · exact hm.bound name _ hname id rfl
      · exact hl.stored hmem id rfl
      · exact (hyielded _ hmem).array id rfl
    exact ⟨fun v hv => hl.acyclic hv, hl.isDepth id hstored, hl.bounded id⟩
  · intro limits t m
    have hm : (shapeInvariant m.heap).Holds m :=
      ⟨⟨Nat.le_refl _, fun id _ => sameShape_refl _⟩, fun _ _ _ => trivial⟩
    -- The heap that is looked back at is the one before the evaluation.
    have hends := (shapeInvariant m.heap).keeps_evaluate limits t m hm
    have hafter : (shapeInvariant m.heap).Later m ((evaluate limits t).after m) :=
      (hends.mono (fun _ _ h => h.1) fun _ _ h => h).after
    exact hafter.holds.arrays.2

/-- Binds a name to a list that holds a list. -/
def assignRows : Tree :=
  ⟨"assign", [.token "rows",
    .tree "list" [.seq [.tree "list" [.seq [.tree "number" [.token "1"]]]]]]⟩

/-- A list of two rows is nested two deep, and is recorded so. -/
theorem arrays_nest_soundly_rows :
    ∃ m, evaluate ⟨8, 8⟩ assignRows (.start [] none) = .ok (.array ⟨1⟩) m ∧
      m.store.get? "rows" = some (.array ⟨1⟩) ∧ m.heap.depth ⟨1⟩ = 2 ∧
      m.heap.NestsSoundly ⟨1⟩ := by
  have hrun : evaluate ⟨8, 8⟩ assignRows (.start [] none) = .ok (.array ⟨1⟩)
      ⟨⟨[("rows", .array ⟨1⟩)]⟩, ⟨#[⟨1, #[.int 1]⟩, ⟨2, #[.array ⟨0⟩]⟩]⟩, [], .empty none, 0⟩ :=
    rfl
  refine ⟨_, hrun, rfl, rfl, ?_⟩
  exact arrays_nest_soundly.1 _ _ (.yields (.start [] none) hrun) _ (Or.inl ⟨"rows", rfl⟩)

end TreeScript
