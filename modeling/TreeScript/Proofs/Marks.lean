import TreeScript.Proofs.History

/-!
# Marks Are Never Kept

A statement may yield a mark: that a loop is to be left, or that there is no
value. Marks travel through the same values as data, but they never become data:
no name is bound to one, and no array that a program or its host can get at has
one among its elements.

What an evaluation can reach is not known beforehand, so the invariant looks back
at the arrays from before. It keeps track of the arrays from which no mark could
be reached then; arrays that are made later count among them, as they had no
elements before.

That no array at all holds a mark would be simpler and is what programs do; but a host may
hand over any machine, and then only what is reached from it can be vouched for. Reaching
is not kept by a write as such, and asking for it at every write would need an induction
on paths each time. With the older heap as a parameter a write asks for a condition on one
value, and paths are looked at once, in the end.

## Main definitions

* `Heap.Clean`: No mark can be reached from a value by way of elements.
* `Machine.MarkFree`: No name is bound to a mark, and bindings and yielded values
  are clean.
* `marksInvariant`: What has been clean stays so, and only clean values are kept.

## Theorems

* `Heap.clean_of_empty`: Nothing is reached from an array without elements.
* `marks_are_never_kept`: Machines with a history are free of marks, and every
  evaluation keeps a machine so.
* `Heap.Clean.element`: An element of a clean array is no mark and is clean.
* `Value.Kept.clean_later`, `Heap.Clean.later`: What was clean before is clean now.
* `Machine.MarkFree.evaluate`: One evaluation, however it ends.
-/

namespace TreeScript

namespace Heap

variable {h : Heap} {v : Value} {id : ArrayId}

/-- No array that is reached from a value has a mark among its elements. -/
def Clean (h : Heap) (v : Value) : Prop := ∀ id, h.Reaches v id → ∀ w ∈ h.items id, w.isMark = false

theorem Clean.element (hc : h.Clean (.array id)) (hv : v ∈ h.items id) :
    v.isMark = false ∧ h.Clean v :=
  ⟨hc id (.self rfl) v hv, fun inner hr => hc inner (reaches_of_element hv hr)⟩

theorem clean_of_not_isArray (hv : v.isArray = false) : h.Clean v := by
  intro id hr
  rw [hr.isArray] at hv
  cases hv

/-- Nothing is reached from an array without elements. -/
theorem clean_of_empty (he : h.items id = #[]) : h.Clean (.array id) := by
  -- Without elements nothing is reached but the array itself.
  have hself : ∀ inner, h.Reaches (.array id) inner → inner = id := by
    intro inner hr
    induction hr with
    | self hi =>
        cases hi
        rfl
    | element _ hmem ih =>
        rw [ih, he] at hmem
        simp at hmem
  intro inner hr w hw
  rw [hself inner hr, he] at hw
  simp at hw

end Heap

/-- A value that can be kept: no mark, and clean in the older heap. -/
structure Value.Kept (old : Heap) (v : Value) : Prop where
  unmarked : v.isMark = false
  clean : old.Clean v

/-- Arrays that were clean before have elements that can be kept. -/
def marksInvariant (old : Heap) : Invariant where
  arrays h := old.cells.size ≤ h.cells.size ∧
    ∀ id, old.Clean (.array id) → ∀ v ∈ h.items id, v.Kept old
  data _ v := v.Kept old
  data_plain := by
    intro h v hv
    cases hv <;> exact ⟨rfl, Heap.clean_of_not_isArray rfl⟩
  data_element ha hid hmem := ha.2 _ hid.clean _ hmem
  data_alloc hv := hv
  data_set hv := hv
  alloc := by
    intro h items ha hitems _
    rcases ha with ⟨hsize, hkept⟩
    refine ⟨⟨?_, fun id hid v hv => ?_⟩, rfl, ?_⟩
    · rw [Heap.size_alloc]
      exact Nat.le_succ_of_le hsize
    · rw [Heap.items_alloc] at hv
      split at hv
      · exact hitems v hv
      · exact hkept id hid v hv
    · -- The place of the new array was not in use, so no mark was reached from it.
      exact Heap.clean_of_empty (Heap.items_of_le hsize)
  set := by
    intro h id i v ha _ _ hv _
    rcases ha with ⟨hsize, hkept⟩
    refine ⟨?_, fun other hother w hw => ?_⟩
    · rw [Heap.size_set]
      exact hsize
    · rcases Heap.mem_items_set hw with ⟨rfl, _⟩ | hold
      · exact hv
      · exact hkept other hother w hold

theorem marksInvariant_self (h : Heap) : (marksInvariant h).arrays h :=
  ⟨Nat.le_refl _, fun _ hc _ hv => ⟨(hc.element hv).1, (hc.element hv).2⟩⟩

/-- What could be kept before is clean now. -/
theorem Value.Kept.clean_later {old h : Heap} {v : Value} (ha : (marksInvariant old).arrays h)
    (hv : v.Kept old) : h.Clean v := by
  -- Every array on the way can be kept itself, by induction on the way.
  have hreached : ∀ id, h.Reaches v id → Value.Kept old (.array id) := by
    intro id hr
    induction hr with
    | self he =>
        rw [← he]
        exact hv
    | element _ hmem ih => exact ha.2 _ ih.clean _ hmem
  exact fun id hr w hw => (ha.2 id (hreached id hr).clean w hw).unmarked

/-- A value that was clean before is so now: it was kept, or it is a mark. -/
theorem Heap.Clean.later {old h : Heap} {v : Value} (ha : (marksInvariant old).arrays h)
    (hv : old.Clean v) : h.Clean v := by
  cases v with
  | array id => exact Value.Kept.clean_later ha ⟨rfl, hv⟩
  | _ => exact Heap.clean_of_not_isArray rfl

/-- No mark has become data: no name is bound to one, and none is an element of
    an array that is reached from a binding or from a value yielded before. -/
structure Machine.MarkFree (m : Machine) (yielded : List Value) : Prop where
  bound : ∀ name v, m.store.get? name = some v → v.isMark = false
  elements : ∀ name v, m.store.get? name = some v → m.heap.Clean v
  yielded : ∀ v ∈ yielded, m.heap.Clean v

/-- One evaluation keeps the machine free of marks, on failing exits too. -/
theorem Machine.MarkFree.evaluate {m : Machine} {yielded : List Value} (hm : m.MarkFree yielded)
    (limits : Limits) (t : Tree) :
    Ends (evaluate limits t) m (fun v m' => m'.MarkFree (v :: yielded))
      fun _ m' => m'.MarkFree yielded := by
  have hholds : (marksInvariant m.heap).Holds m :=
    ⟨marksInvariant_self m.heap, fun name v hv => ⟨hm.bound name v hv, hm.elements name v hv⟩⟩
  -- Whatever the end is, the store is unmarked and old values are still clean.
  have hlater : ∀ {m'}, (marksInvariant m.heap).Later m m' → m'.MarkFree yielded := by
    intro m' hl
    refine ⟨fun name v hv => (hl.holds.bound name v hv).unmarked, fun name v hv => ?_,
      fun v hv => (hm.yielded v hv).later hl.holds.arrays⟩
    exact (hl.holds.bound name v hv).clean_later hl.holds.arrays
  refine ((marksInvariant m.heap).keeps_evaluate limits t m hholds).mono ?_ fun _ _ => hlater
  rintro v m' ⟨hl, hv⟩
  refine ⟨(hlater hl).bound, (hlater hl).elements, fun w hw => ?_⟩
  rcases List.mem_cons.mp hw with rfl | hw
  · rcases hv with hmark | hdata
    · -- A mark may be yielded, but it leads to no array.
      refine Heap.clean_of_not_isArray ?_
      cases w <;> first | rfl | cases hmark
    · exact Value.Kept.clean_later hl.holds.arrays hdata
  · exact (hlater hl).yielded w hw

/-- Every history leaves a machine free of marks, and every evaluation keeps a
    machine so that is, however it ends. -/
theorem marks_are_never_kept :
    (∀ m yielded, Reached m yielded → m.MarkFree yielded) ∧
    ∀ limits t (m : Machine) yielded, m.MarkFree yielded →
      Ends (evaluate limits t) m (fun v m' => m'.MarkFree (v :: yielded))
        fun _ m' => m'.MarkFree yielded := by
  refine ⟨fun m yielded hreached => ?_, fun limits t m yielded hm => hm.evaluate limits t⟩
  -- The base of the induction is a machine that has not kept anything.
  induction hreached with
  | start input limit =>
      exact ⟨fun _ _ hv => (by cases hv), fun _ _ hv => (by cases hv), fun _ hv => (by cases hv)⟩
  | yields _ hr ih => exact (ih.evaluate _ _).of_ok hr
  | fails _ hr ih => exact (ih.evaluate _ _).of_error hr
  | streams _ _ _ ih => exact ⟨ih.bound, ih.elements, ih.yielded⟩

/-- Binds a name to a list and leaves a loop that is not there. -/
def assignAndLeave : Tree :=
  ⟨"statements", [.seq [
    .tree "assign" [.token "xs", .tree "list" [.seq [.tree "number" [.token "1"]]]],
    .tree "break" []]]⟩

/-- The mark is yielded, and yet it is not found in what is kept. -/
theorem marks_are_never_kept_leave :
    ∃ m, evaluate ⟨8, 8⟩ assignAndLeave (.start [] none) = .ok .breakMark m ∧
      m.MarkFree [.breakMark] ∧
      Ends (evaluate ⟨8, 8⟩ assignAndLeave) m (fun v m' => m'.MarkFree [v, .breakMark])
        fun _ m' => m'.MarkFree [.breakMark] := by
  have hrun : evaluate ⟨8, 8⟩ assignAndLeave (.start [] none) = .ok .breakMark
      ⟨⟨[("xs", .array ⟨0⟩)]⟩, ⟨#[⟨1, #[.int 1]⟩]⟩, [], .empty none, 0⟩ := rfl
  have hfree := marks_are_never_kept.1 _ _ (.yields (.start [] none) hrun)
  exact ⟨_, hrun, hfree, marks_are_never_kept.2 _ _ _ _ hfree⟩

end TreeScript
