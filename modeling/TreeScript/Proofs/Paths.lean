import Mathlib.Data.List.Basic
import Mathlib.Data.List.Induction
import TreeScript.Eval.Expression
import TreeScript.Proofs.Origin
import TreeScript.Proofs.Outcome

/-!
# Writing at the End of a Path

Positions are a path: each of them leads from an array to an element, and the next one
goes on there if the element is an array again. Arrays are shared, so many paths may end
at one place. A write checks that its path ends at an element that is no array, puts a
value there that is none either, and so it cannot bend any path: all paths end where they
ended before, and only those that end at the place that is written to lead to another
value now.

Nothing is supposed of the heap here, in particular not how its arrays are shared.

A write is defined by cases on what it meets, each with an error of its own.
`Heap.slot_eq_ok_iff` gathers the one case in which there is no error as three conditions,
and nothing after it looks at the cases again. `Heap.Replaces` then says what a write does
to every path of every array at once; it is proved by induction on paths, where the step
is `Heap.get?_write`.

## Main definitions

* `Heap.follow`: What positions lead to from a value.
* `Heap.place?`: The place where a path ends.
* `Heap.Replaces`: A heap in which one place holds another value.
* `writeElement`: The write that assigning to an element ends with.

## Theorems

* `Heap.elementAt_concat_eq_some_iff`, `Heap.place?_concat`: The last position of a path.
* `Heap.slot_eq_ok_iff`: When an element may be written.
* `Heap.replaces_write`: What a write to an open place replaces.
* `element_writes_change_one_place`: A write that fails changes nothing, and one that
  succeeds changes one place.
* `Heap.get?_write`, `Heap.place?_write`, `Heap.elementAt_write`: Elements, places and paths
  after a write.
* `evalArrayAssign_eq`, `writeElement_eq`: The write that a tree of this form ends with.
* `Heap.exists_open_place`: A path to an element that is no array ends at an open place.
-/

namespace TreeScript

namespace Heap

variable {h h' : Heap} {id parent : ArrayId} {path positions : List Nat} {last : Nat} {s : Slot}
  {v w : Value} {name : String}

/-- What positions lead to from a value. -/
def follow (h : Heap) (v : Value) (positions : List Nat) : Option Value :=
  positions.foldlM h.descend? v

theorem elementAt_eq (h : Heap) (id : ArrayId) (positions : List Nat) :
    h.elementAt id positions = h.follow (.array id) positions := rfl

theorem follow_cons (v : Value) (p : Nat) (positions : List Nat) :
    h.follow v (p :: positions) = (h.descend? v p).bind fun w => h.follow w positions :=
  List.foldlM_cons

theorem follow_concat (v : Value) (path : List Nat) (last : Nat) :
    h.follow v (path ++ [last]) = (h.follow v path).bind fun w => h.descend? w last := by
  simp [follow, List.foldlM_append]

@[simp]
theorem descend?_array (id : ArrayId) (p : Nat) : h.descend? (.array id) p = h.get? id p := rfl

theorem descend?_of_not_isArray (hv : v.isArray = false) (p : Nat) : h.descend? v p = none := by
  cases v with
  | array _ => cases hv
  | _ => rfl

theorem descend?_eq_some_iff {p : Nat} :
    h.descend? v p = some w ↔ ∃ id, v = .array id ∧ h.get? id p = some w := by
  cases v <;> simp [descend?]

/-- The last position goes on from an array, like all others. -/
theorem elementAt_concat_eq_some_iff : h.elementAt id (path ++ [last]) = some w ↔
    ∃ parent, h.elementAt id path = some (.array parent) ∧ h.get? parent last = some w := by
  rw [elementAt_eq, follow_concat, Option.bind_eq_some_iff]
  simp only [descend?_eq_some_iff]
  constructor
  · rintro ⟨_, hpath, parent, rfl, hw⟩
    exact ⟨parent, hpath, hw⟩
  · rintro ⟨parent, hpath, hw⟩
    exact ⟨_, hpath, parent, rfl, hw⟩

/-- The place where a path ends, if it leads to an element. A path without positions does
    not: it leads to the array itself. -/
def place? (h : Heap) (id : ArrayId) (positions : List Nat) : Option Slot :=
  match positions.getLast? with
  | none => none
  | some last => match h.elementAt id positions.dropLast with
    | some (.array parent) => (h.get? parent last).map fun _ => ⟨parent, last⟩
    | _ => none

@[simp]
theorem place?_nil (id : ArrayId) : h.place? id [] = none := rfl

/-- The place at the end of a path is a slot of the array its beginning leads to. -/
theorem place?_concat (id : ArrayId) (path : List Nat) (last : Nat) :
    h.place? id (path ++ [last]) = match h.elementAt id path with
      | some (.array parent) => (h.get? parent last).map fun _ => ⟨parent, last⟩
      | _ => none := by
  simp [place?]

/-- The same, as the three conditions on the place. -/
theorem place?_concat_eq_some_iff : h.place? id (path ++ [last]) = some s ↔
    h.elementAt id path = some (.array s.array) ∧ last = s.position ∧
      (h.get? s.array s.position).isSome := by
  rw [place?_concat]
  split
  · rename_i parent hparent
    rw [hparent, Option.map_eq_some_iff]
    constructor
    · rintro ⟨w, hw, rfl⟩
      exact ⟨rfl, rfl, by simp [hw]⟩
    · rintro ⟨hp, rfl, hs⟩
      cases hp
      rcases Option.isSome_iff_exists.mp hs with ⟨w, hw⟩
      exact ⟨w, hw, rfl⟩
  · -- A path that does not lead to an array has no slot at its end.
    rename_i hne
    simp only [reduceCtorEq, false_iff]
    exact fun hs => hne _ hs.1

/-- A path that ends at a place leads to what is there. -/
theorem elementAt_of_place? (hs : h.place? id positions = some s) :
    h.elementAt id positions = h.get? s.array s.position := by
  rcases List.eq_nil_or_concat' positions with rfl | ⟨path, last, rfl⟩
  · cases hs
  · rcases place?_concat_eq_some_iff.mp hs with ⟨hpath, rfl, hsome⟩
    rcases Option.isSome_iff_exists.mp hsome with ⟨w, hw⟩
    rw [hw]
    exact elementAt_concat_eq_some_iff.mpr ⟨_, hpath, hw⟩

theorem isSome_elementAt_of_place? (hs : h.place? id positions = some s) :
    (h.elementAt id positions).isSome := by
  rcases List.eq_nil_or_concat' positions with rfl | ⟨path, last, rfl⟩
  · cases hs
  · rw [elementAt_of_place? hs]
    exact (place?_concat_eq_some_iff.mp hs).2.2

/-- An element may be written if its path ends at a place that holds no array, and the new
    one is no array either. -/
theorem slot_eq_ok_iff : h.slot id positions v name = .ok s ↔
    h.place? id positions = some s ∧ h.Open s.array s.position ∧ v.isArray = false := by
  rcases List.eq_nil_or_concat' positions with rfl | ⟨path, last, rfl⟩
  · simp [slot]
  rw [place?_concat_eq_some_iff]
  constructor
  · intro hs
    rcases slot_open hs with ⟨hpath, hopen, hv⟩
    rw [List.dropLast_concat] at hpath
    -- The place is made of the array at the end of the path and of the last position.
    have hlast : last = s.position := by
      simp only [slot, List.getLast?_concat, List.dropLast_concat, hpath] at hs
      split at hs
      · cases hs
      · split at hs
        · cases hs
        · split at hs
          · exact congrArg Slot.position (Except.ok.inj hs)
          · cases hs
    rcases hopen with ⟨w, hw, hplain⟩
    exact ⟨⟨hpath, hlast, by simp [hw]⟩, ⟨w, hw, hplain⟩, hv⟩
  · rintro ⟨⟨hpath, rfl, -⟩, ⟨w, hw, hplain⟩, hv⟩
    simp only [slot, List.getLast?_concat, List.dropLast_concat, hpath, hw, hv]
    cases w with
    | array _ => cases hplain
    | _ => rfl

/-- The second heap is the first one with the value at the place. Every path ends at the
    same place in both, and leads to the value now if it ends at that one. -/
structure Replaces (h : Heap) (s : Slot) (v : Value) (h' : Heap) : Prop where
  size : h'.cells.size = h.cells.size
  get? : ∀ other i, h'.get? other i =
    if other = s.array ∧ i = s.position then some v else h.get? other i
  place? : ∀ other path, h'.place? other path = h.place? other path
  elementAt : ∀ other path, h'.elementAt other path =
    if h.place? other path = some s then some v else h.elementAt other path

/-- A write is seen in its own slot and in no other. -/
theorem get?_write (hopen : h.Open s.array s.position) (v : Value) (other : ArrayId) (i : Nat) :
    (h.write s v).get? other i =
      if other = s.array ∧ i = s.position then some v else h.get? other i := by
  rcases hopen with ⟨w, hw, _⟩
  rw [write, get?_set]
  simp [hw]

/-- A write makes no slot and takes none away. -/
theorem isSome_get?_write (hopen : h.Open s.array s.position) (v : Value) (other : ArrayId)
    (i : Nat) : ((h.write s v).get? other i).isSome = (h.get? other i).isSome := by
  rw [get?_write hopen]
  split
  · rename_i hc
    rcases hopen with ⟨w, hw, _⟩
    rw [hc.1, hc.2, hw]
    rfl
  · rfl

/-- Neither the old value at the place is an array, nor the new one. -/
theorem get?_write_array_iff (hopen : h.Open s.array s.position) (hv : v.isArray = false)
    (other row : ArrayId) (i : Nat) :
    (h.write s v).get? other i = some (.array row) ↔ h.get? other i = some (.array row) := by
  rw [get?_write hopen]
  split
  · -- At the slot itself there was a plain value, and there is one now.
    rename_i hc
    rcases hopen with ⟨w, hw, hplain⟩
    rw [hc.1, hc.2, hw]
    constructor
    · rintro ⟨⟩
      cases hv
    · rintro ⟨⟩
      cases hplain
  · rfl

/-- So the arrays are found on the same paths as before. -/
theorem elementAt_write_array_iff (hopen : h.Open s.array s.position) (hv : v.isArray = false)
    (other row : ArrayId) (path : List Nat) :
    (h.write s v).elementAt other path = some (.array row) ↔
      h.elementAt other path = some (.array row) := by
  -- From the end of the path, since the last position is the one that tells a row from
  -- an element.
  induction path using List.reverseRecOn generalizing row with
  | nil => rfl
  | append_singleton path last ih =>
      simp only [elementAt_concat_eq_some_iff, ih, get?_write_array_iff hopen hv]

/-- A write of a plain value redirects no path: the arrays on the way are the same as before. -/
theorem place?_write (hopen : h.Open s.array s.position) (hv : v.isArray = false)
    (other : ArrayId) (path : List Nat) :
    (h.write s v).place? other path = h.place? other path := by
  rcases List.eq_nil_or_concat' path with rfl | ⟨path, last, rfl⟩
  · rfl
  · ext t
    rw [place?_concat_eq_some_iff, place?_concat_eq_some_iff,
      elementAt_write_array_iff hopen hv, isSome_get?_write hopen]

/-- A path sees a write exactly when it ends at the slot written. -/
theorem elementAt_write (hopen : h.Open s.array s.position) (hv : v.isArray = false)
    (other : ArrayId) (path : List Nat) : (h.write s v).elementAt other path =
      if h.place? other path = some s then some v else h.elementAt other path := by
  split
  · rename_i hs
    rw [← place?_write hopen hv] at hs
    rw [elementAt_of_place? hs, get?_write hopen]
    simp
  · rename_i hs
    rcases List.eq_nil_or_concat' path with rfl | ⟨path, last, rfl⟩
    · rfl
    · ext w
      simp only [elementAt_concat_eq_some_iff, elementAt_write_array_iff hopen hv]
      refine exists_congr fun parent => and_congr_right fun hparent => ?_
      -- Were this the place that is written to, the path would end there.
      rw [get?_write hopen, if_neg]
      rintro ⟨rfl, rfl⟩
      rcases hopen with ⟨u, hu, _⟩
      exact hs (place?_concat_eq_some_iff.mpr ⟨hparent, rfl, by simp [hu]⟩)

/-- A write is the replacement of one slot that the specification asks for. -/
theorem replaces_write (hopen : h.Open s.array s.position) (hv : v.isArray = false) :
    h.Replaces s v (h.write s v) where
  size := size_set
  get? := get?_write hopen v
  place? := place?_write hopen hv
  elementAt := elementAt_write hopen hv

/-- A write succeeds exactly when there is an open place for a plain value. -/
theorem assignElement_eq_ok_iff : h.assignElement id positions v name = .ok h' ↔
    ∃ s, h.place? id positions = some s ∧ h.Open s.array s.position ∧ v.isArray = false ∧
      h' = h.write s v := by
  rw [assignElement, map_eq_ok_iff]
  simp only [slot_eq_ok_iff, and_assoc]

/-- A path that leads to an element other than an array ends at an open place. -/
theorem exists_open_place (hw : h.elementAt id positions = some w) (hplain : w.isArray = false) :
    ∃ s, h.place? id positions = some s ∧ h.Open s.array s.position := by
  rcases List.eq_nil_or_concat' positions with rfl | ⟨path, last, rfl⟩
  · -- Without positions the array itself is reached.
    cases hw
    cases hplain
  · rcases elementAt_concat_eq_some_iff.mp hw with ⟨parent, hpath, hget⟩
    refine ⟨⟨parent, last⟩, place?_concat_eq_some_iff.mpr ⟨hpath, rfl, ?_⟩, w, hget, hplain⟩
    rw [hget]
    rfl

end Heap

/-- Writes an element of the array that has the given name, if that is allowed. -/
def writeElement (id : ArrayId) (positions : List Nat) (v : Value) (name : String) :
    Action Unit := do
  let slot ← (← heap).slot id positions v name
  changeHeap fun h => ((), h.write slot v)

/-- An assignment to an element ends with the write, when all else has been evaluated and
    the positions have been checked. -/
theorem evalArrayAssign_eq (eval : Evaluator) (rank : Nat) (t : Tree) :
    evalArrayAssign eval rank t = (do
      t.expectArity (← addSizes rank 2)
      let name ← t.token 0
      let id ← namedArray name
      let indices ← eval.children t 1 rank
      let v ← eval.present (← t.child (← addSizes rank 1))
      let positions ← (← heap).positions id indices
      writeElement id positions v name
      pure v) := by
  simp only [evalArrayAssign, writeElement, bind_assoc]

/-- The write is that of the heap. -/
theorem writeElement_eq (id : ArrayId) (positions : List Nat) (v : Value) (name : String)
    (m : Machine) : writeElement id positions v name m =
      match m.heap.assignElement id positions v name with
      | .ok h => .ok () { m with heap := h }
      | .error f => .error (.fault f) m := by
  have hheap : heap m = .ok m.heap m := rfl
  unfold Heap.assignElement writeElement
  rw [bind_of_ok hheap]
  cases m.heap.slot id positions v name <;> rfl

/-- A write that fails leaves the machine as it was. One that succeeds puts a value that is
    no array to one place, which held none before; every path of every array ends where it
    ended before, and it leads to another value only if it ends there. The write succeeds
    just if its own path leads to an element that is no array. -/
theorem element_writes_change_one_place (id : ArrayId) (positions : List Nat) (v : Value)
    (name : String) (m : Machine) :
    (∀ e m', writeElement id positions v name m = .error e m' → m' = m ∧ ∃ f, e = .fault f) ∧
    (∀ m', writeElement id positions v name m = .ok () m' → ∃ s h', m' = { m with heap := h' } ∧
      m.heap.place? id positions = some s ∧ m.heap.Open s.array s.position ∧
      v.isArray = false ∧ m.heap.Replaces s v h' ∧ h'.elementAt id positions = some v) ∧
    ((∃ m', writeElement id positions v name m = .ok () m') ↔
      v.isArray = false ∧ ∃ w, m.heap.elementAt id positions = some w ∧ w.isArray = false) := by
  rw [writeElement_eq]
  refine ⟨fun e m' herror => ?_, fun m' hok => ?_, fun ⟨m', hok⟩ => ?_,
    fun ⟨hv, w, hw, hplain⟩ => ?_⟩
  · split at herror
    · cases herror
    · cases herror
      exact ⟨rfl, _, rfl⟩
  · -- The write is the one slot that the path leads to.
    split at hok
    · rename_i h' hassign
      cases hok
      rcases Heap.assignElement_eq_ok_iff.mp hassign with ⟨s, hplace, hopen, hv, rfl⟩
      have hreplaces := Heap.replaces_write hopen hv
      refine ⟨s, _, rfl, hplace, hopen, hv, hreplaces, ?_⟩
      rw [hreplaces.elementAt, if_pos hplace]
    · cases hok
  · split at hok
    · rename_i h' hassign
      rcases Heap.assignElement_eq_ok_iff.mp hassign with ⟨s, hplace, ⟨w, hw, hplain⟩, hv, -⟩
      exact ⟨hv, w, (Heap.elementAt_of_place? hplace).trans hw, hplain⟩
    · cases hok
  · rcases Heap.exists_open_place hw hplain with ⟨s, hplace, hopen⟩
    rw [Heap.assignElement_eq_ok_iff.mpr ⟨s, hplace, hopen, hv, rfl⟩]
    exact ⟨_, rfl⟩

/-- Two rows of one list are one list. -/
def sharedRows : Machine :=
  { Machine.start [] none with heap := ⟨#[⟨1, #[.int 1, .int 2]⟩, ⟨2, #[.array ⟨0⟩, .array ⟨0⟩]⟩]⟩ }

/-- A block whose two rows are one array: a write through one row is seen through the other. -/
theorem element_writes_change_one_place_shared :
    ∃ m', writeElement ⟨1⟩ [0, 1] (.int 7) "rows" sharedRows = .ok () m' ∧
      m'.heap.elementAt ⟨1⟩ [0, 1] = some (.int 7) ∧
      m'.heap.elementAt ⟨1⟩ [1, 1] = some (.int 7) ∧
      m'.heap.elementAt ⟨1⟩ [1, 0] = some (.int 1) := by
  rcases element_writes_change_one_place ⟨1⟩ [0, 1] (.int 7) "rows" sharedRows with
    ⟨-, hchanges, hsucceeds⟩
  rcases hsucceeds.mpr ⟨rfl, .int 2, rfl, rfl⟩ with ⟨m', hok⟩
  rcases hchanges m' hok with ⟨s, h', rfl, hplace, -, -, hreplaces, hwritten⟩
  cases hplace
  refine ⟨_, hok, hwritten, ?_, ?_⟩
  · -- Both paths lead to one slot, since the two rows are one array.
    rw [hreplaces.elementAt]
    rfl
  · rw [hreplaces.elementAt]
    rfl

end TreeScript
