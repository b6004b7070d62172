import Mathlib.Data.List.Forall2
import TreeScript.Eval.Tree
import TreeScript.Proofs.Paths

/-!
# Coordinates

Three functions walk down an array along positions: one checks the values that are to be
the positions, one reads the element, and one writes it. They agree: the values that pass
the check are the sizes that lead to an element, so a read behind the check always finds
one, and a write behind it can only be refused because of what is found or what is written.

Where the check fails there is a first value at which it does. Everything before it has led
to some value, and what that is decides the fault before the failing value is looked at.

`Heap.next?` is the step that the three walks have in common. The check is written with an
error at every point where it can stop, and `Heap.positionsFrom_cons` shows that these are
one case: there is no next value, and `Heap.indexFault` says what to report. The
inductions below it then have two cases for each index, whatever the number of errors is.

The least failing index is stated by prefixes: exactly those that end before it pass. This
leaves no room for a second one, and needs no order on the indices.

## Main definitions

* `Value.IsSize`: A value that is a number of elements.
* `Heap.next?`: One step of the check.
* `Heap.indexFault`: What is wrong with an index below a value.

## Theorems

* `Heap.positionsFrom_cons`: The check goes on behind a step, or fails there.
* `Heap.positionsFrom_eq_ok_iff`: Which values pass.
* `Heap.exists_of_positionsFrom_error`: Where the check fails, and how.
* `Heap.assignElement_eq_error_iff`: Why an element that is found cannot be written.
* `coordinates_are_checked_exactly`: Checking, reading and writing agree.
* `Heap.next?_eq_some_iff`: When one index is accepted.
* `Heap.slot_of_array`, `Heap.slot_of_nested`: What is refused behind the check.
* `exists_of_arrayAccess`: A read behind the check finds an element.
-/

namespace TreeScript

/-- The value is a number, and as an integer it is the number of elements. -/
def Value.IsSize (v : Value) (size : Nat) : Prop :=
  ∃ x n, v = .number x ∧ x.whole? = some n ∧ n.toInt = size

theorem Value.isArray_iff {v : Value} : v.isArray = true ↔ ∃ row, v = .array row := by
  cases v <;> simp [isArray]

theorem sizeOf?_eq_some_iff {n : Int64} {size : Nat} : sizeOf? n = some size ↔ n.toInt = size :=
  Int.mem_toNat?

/-- The two ways to say that a value is a size: as a natural number, and as the checks find it. -/
theorem Value.isSize_iff {v : Value} {size : Nat} :
    v.IsSize size ↔ ∃ n, v.whole? = some n ∧ sizeOf? n = some size := by
  simp only [sizeOf?_eq_some_iff]
  cases v <;> simp [IsSize, whole?]

namespace Heap

variable {h : Heap} {id : ArrayId} {d p : Nat} {here next w : Value} {i : Value}
  {indices : List Value} {positions : List Nat} {f : Fault}

/-- The position that an index is below a value, and the element that it leads to. -/
def next? (h : Heap) (here i : Value) : Option (Nat × Value) :=
  (i.whole?.bind sizeOf?).bind fun p => (h.descend? here p).map fun next => (p, next)

/-- One coordinate is accepted when it is a size and there is an element at it. -/
theorem next?_eq_some_iff :
    h.next? here i = some (p, next) ↔ i.IsSize p ∧ h.descend? here p = some next := by
  rw [Value.isSize_iff, next?, Option.bind_eq_some_iff]
  simp only [Option.bind_eq_some_iff, Option.map_eq_some_iff, Prod.mk.injEq]
  constructor
  · rintro ⟨q, hq, next, hnext, rfl, rfl⟩
    exact ⟨hq, hnext⟩
  · rintro ⟨hp, hnext⟩
    exact ⟨p, hp, next, hnext, rfl, rfl⟩

theorem next?_eq_none_of_not_isArray (hhere : here.isArray = false) (i : Value) :
    h.next? here i = none := by
  simp [next?, descend?_of_not_isArray hhere]

/-- What is wrong with an index that leads to nothing below a value: there is no dimension
    left, or it is no integer, or it lies outside of the dimension. -/
def indexFault (h : Heap) (d : Nat) (reached index : Value) : Fault :=
  if reached.isArray then
    match index.whole? with
    | none => .positionNotWhole (h.textOf index)
    | some n => .positionOutOfBounds n.toInt d
  else .tooManyPositions d

/-- Reading coordinates takes one step and reads the rest from the element reached. -/
theorem positionsFrom_cons (h : Heap) (d : Nat) (here i : Value) (rest : List Value) :
    h.positionsFrom d here (i :: rest) = match h.next? here i with
      | none => .error (h.indexFault d here i)
      | some (p, next) => (h.positionsFrom (d + 1) next rest).map (p :: ·) := by
  cases here with
  | array id =>
      -- The check looks at the kind of index first, then at its size, then at the array.
      simp only [positionsFrom, indexFault, Value.isArray, if_true, next?, descend?_array]
      cases i.whole? with
      | none => rfl
      | some n =>
          dsimp only [Option.bind_some]
          cases sizeOf? n with
          | none => rfl
          | some p =>
              dsimp only [Option.bind_some]
              cases h.get? id p with
              | none => rfl
              | some next => cases h.positionsFrom (d + 1) next rest <;> rfl
  | _ =>
      rw [next?_eq_none_of_not_isArray rfl]
      rfl

/-- The values that pass are the sizes that lead to something. -/
theorem positionsFrom_eq_ok_iff : h.positionsFrom d here indices = .ok positions ↔
    List.Forall₂ Value.IsSize indices positions ∧ (h.follow here positions).isSome := by
  induction indices generalizing d here positions with
  | nil =>
      rw [List.forall₂_nil_left_iff]
      constructor
      · rintro ⟨⟩
        exact ⟨rfl, rfl⟩
      · rintro ⟨rfl, -⟩
        rfl
  -- One coordinate takes one step down, and the rest are read from there.
  | cons i rest ih =>
      rw [positionsFrom_cons, List.forall₂_cons_left_iff]
      constructor
      · intro hok
        split at hok
        · cases hok
        · rename_i p next hnext
          rcases next?_eq_some_iff.mp hnext with ⟨hp, hdown⟩
          rcases map_eq_ok_iff.mp hok with ⟨positions, hrest, rfl⟩
          rcases ih.mp hrest with ⟨hsizes, hfollow⟩
          refine ⟨⟨p, positions, hp, hsizes, rfl⟩, ?_⟩
          rw [follow_cons, hdown]
          exact hfollow
      · rintro ⟨⟨p, positions, hp, hsizes, rfl⟩, hfollow⟩
        rw [follow_cons] at hfollow
        rcases Option.isSome_iff_exists.mp hfollow with ⟨w, hw⟩
        rcases Option.bind_eq_some_iff.mp hw with ⟨next, hdown, hnext⟩
        rw [next?_eq_some_iff.mpr ⟨hp, hdown⟩]
        refine map_eq_ok_iff.mpr ⟨positions, ih.mpr ⟨hsizes, ?_⟩, rfl⟩
        rw [hnext]
        rfl

/-- Where the check fails, one value is the first that it cannot go on with. -/
theorem exists_of_positionsFrom_error (herror : h.positionsFrom d here indices = .error f) :
    ∃ k index positions reached, indices[k]? = some index ∧
      h.positionsFrom d here (indices.take k) = .ok positions ∧
      h.follow here positions = some reached ∧ f = h.indexFault (d + k) reached index ∧
      ∀ j, (∃ ps, h.positionsFrom d here (indices.take j) = .ok ps) ↔ j ≤ k := by
  induction indices generalizing d here with
  | nil => cases herror
  | cons i rest ih =>
      rw [positionsFrom_cons] at herror
      split at herror
      · -- No more than nothing passes.
        rename_i hnone
        cases herror
        refine ⟨0, i, [], here, rfl, rfl, rfl, rfl, fun j => ?_⟩
        cases j with
        | zero => simp [positionsFrom]
        | succ j =>
            rw [List.take_succ_cons, positionsFrom_cons, hnone]
            simp
      · rename_i p next hnext
        rcases ih (map_eq_error_iff.mp herror) with
          ⟨k, index, positions, reached, hindex, hok, hreached, hf, hfirst⟩
        refine ⟨k + 1, index, p :: positions, reached, hindex, ?_, ?_, ?_, fun j => ?_⟩
        · rw [List.take_succ_cons, positionsFrom_cons, hnext]
          exact map_eq_ok_iff.mpr ⟨positions, hok, rfl⟩
        · rw [follow_cons, (next?_eq_some_iff.mp hnext).2]
          exact hreached
        · rw [hf, Nat.add_assoc, Nat.add_comm 1 k]
        · cases j with
          | zero => simp [positionsFrom]
          | succ j =>
              rw [List.take_succ_cons, positionsFrom_cons, hnext]
              rw [Nat.succ_le_succ_iff, ← hfirst j]
              constructor
              · rintro ⟨_, hj⟩
                rcases map_eq_ok_iff.mp hj with ⟨positions, hj, -⟩
                exact ⟨positions, hj⟩
              · rintro ⟨positions, hj⟩
                exact ⟨_, map_eq_ok_iff.mpr ⟨positions, hj, rfl⟩⟩

variable {v : Value} {name : String}

theorem slot_of_array {row : ArrayId} (hw : h.elementAt id positions = some (.array row)) :
    h.slot id positions v name = .error (.tooFewPositions positions.length) := by
  rcases List.eq_nil_or_concat' positions with rfl | ⟨path, last, rfl⟩
  · rfl
  · rcases elementAt_concat_eq_some_iff.mp hw with ⟨parent, hpath, hget⟩
    simp only [slot, List.getLast?_concat, List.dropLast_concat, hpath, hget]

/-- An array is refused as an element, wherever it is to be written. -/
theorem slot_of_nested (hw : h.elementAt id positions = some w) (hplain : w.isArray = false)
    (hv : v.isArray = true) : h.slot id positions v name = .error (.nestedElement name) := by
  rcases List.eq_nil_or_concat' positions with rfl | ⟨path, last, rfl⟩
  · cases hw
    cases hplain
  · rcases elementAt_concat_eq_some_iff.mp hw with ⟨parent, hpath, hget⟩
    simp only [slot, List.getLast?_concat, List.dropLast_concat, hpath, hget, hv, if_true]
    cases w with
    | array _ => cases hplain
    | _ => rfl

/-- An element that is found can only be refused to a write for being an array, or else for
    the value being one. -/
theorem assignElement_eq_error_iff (hw : h.elementAt id positions = some w) :
    h.assignElement id positions v name = .error f ↔
      (w.isArray = true ∧ f = .tooFewPositions positions.length) ∨
      (w.isArray = false ∧ v.isArray = true ∧ f = .nestedElement name) := by
  by_cases harray : w.isArray = true
  · rcases Value.isArray_iff.mp harray with ⟨row, rfl⟩
    rw [assignElement, map_eq_error_iff, slot_of_array hw]
    constructor
    · rintro ⟨⟩
      exact Or.inl ⟨rfl, rfl⟩
    · rintro (⟨-, rfl⟩ | ⟨hplain, -⟩)
      · rfl
      · cases hplain
  · rw [Bool.not_eq_true] at harray
    by_cases hv : v.isArray = true
    · rw [assignElement, map_eq_error_iff, slot_of_nested hw harray hv]
      simp only [harray, hv, Bool.false_eq_true, false_and, false_or, true_and, Except.error.injEq,
        eq_comm]
    · -- Nothing is in the way of the write.
      rw [Bool.not_eq_true] at hv
      rcases exists_open_place hw harray with ⟨s, hplace, hopen⟩
      rw [assignElement_eq_ok_iff.mpr ⟨s, hplace, hopen, hv, rfl⟩]
      simp [harray, hv]

end Heap

variable {eval : Evaluator} {t : Tree} {m m' : Machine} {v : Value} {rank : Nat}

/-- What an access to an element yields is the element that its indices lead to, as they have
    been checked. -/
theorem exists_of_arrayAccess (hr : evalArrayAccess eval rank t m = .ok v m') :
    ∃ name id indices positions, t.token 0 = .ok name ∧ m.store.get? name = some (.array id) ∧
      eval.children t 1 rank m = .ok indices m' ∧ m'.heap.positions id indices = .ok positions ∧
      m'.heap.elementAt id positions = some v := by
  rcases exists_of_size_ok hr with ⟨_, _, hr₀⟩
  rcases exists_of_shape_ok hr₀ with ⟨_, _, hr₁⟩
  rcases exists_of_shape_ok hr₁ with ⟨name, hname, hr₂⟩
  rcases exists_of_bind_ok hr₂ with ⟨id, m₁, hid, hr₃⟩
  rcases eq_of_namedArray hid with ⟨hm₁, hbound⟩
  rcases exists_of_bind_ok hr₃ with ⟨indices, m₂, hindices, hr₄⟩
  rw [hm₁] at hindices
  rcases exists_of_bind_ok hr₄ with ⟨h, m₃, hheap, hr₅⟩
  cases hheap
  cases hchecked : m₂.heap.positions id indices with
  | error f =>
      rw [hchecked] at hr₅
      cases hr₅
  | ok positions =>
      have hfound := (Heap.positionsFrom_eq_ok_iff.mp hchecked).2
      rcases Option.isSome_iff_exists.mp hfound with ⟨w, hw⟩
      have helement : m₂.heap.elementAt id positions = some w := hw
      rw [hchecked] at hr₅
      cases hr₅
      -- The value that would stand for a missing one is not used.
      rw [helement]
      exact ⟨name, id, indices, positions, hname, hbound, hindices, hchecked, helement⟩

/-- The values that pass the check of coordinates are the sizes that lead to an element. Behind
    the check a write is refused only if that is an array, or else if the new one is. Where the
    check fails, there is a longest part of the values that passes, and what it leads to decides
    the fault together with the value behind it. An access yields the element that its checked
    indices lead to, and nothing else. -/
theorem coordinates_are_checked_exactly (h : Heap) (id : ArrayId) (indices : List Value) :
    (∀ positions, h.positions id indices = .ok positions ↔
      List.Forall₂ Value.IsSize indices positions ∧ (h.elementAt id positions).isSome) ∧
    (∀ positions, h.positions id indices = .ok positions → ∃ w,
      h.elementAt id positions = some w ∧ ∀ v name f,
        h.assignElement id positions v name = .error f ↔
          (w.isArray = true ∧ f = .tooFewPositions positions.length) ∨
          (w.isArray = false ∧ v.isArray = true ∧ f = .nestedElement name)) ∧
    (∀ f, h.positions id indices = .error f → ∃ d index positions reached,
      indices[d]? = some index ∧ h.positions id (indices.take d) = .ok positions ∧
      h.elementAt id positions = some reached ∧
      (∀ j, (∃ ps, h.positions id (indices.take j) = .ok ps) ↔ j ≤ d) ∧
      f = if reached.isArray then
          match index.whole? with
          | none => .positionNotWhole (h.textOf index)
          | some n => .positionOutOfBounds n.toInt d
        else .tooManyPositions d) ∧
    ∀ eval rank t m v m', evalArrayAccess eval rank t m = .ok v m' →
      ∃ name id indices positions, t.token 0 = .ok name ∧
        m.store.get? name = some (.array id) ∧ eval.children t 1 rank m = .ok indices m' ∧
        m'.heap.positions id indices = .ok positions ∧ m'.heap.elementAt id positions = some v := by
  refine ⟨fun positions => Heap.positionsFrom_eq_ok_iff, fun positions hok => ?_,
    fun f herror => ?_, fun eval rank t m v m' hr => exists_of_arrayAccess hr⟩
  · -- Coordinates that are accepted lead to an element, and its kind decides the write.
    have hfound := (Heap.positionsFrom_eq_ok_iff.mp hok).2
    rcases Option.isSome_iff_exists.mp hfound with ⟨w, hw⟩
    exact ⟨w, hw, fun v name f => Heap.assignElement_eq_error_iff hw⟩
  · rcases Heap.exists_of_positionsFrom_error herror with
      ⟨d, index, positions, reached, hindex, hok, hreached, hf, hfirst⟩
    rw [Nat.zero_add] at hf
    exact ⟨d, index, positions, reached, hindex, hok, hreached, hfirst, hf⟩

/-- A list of a list and a number. -/
def raggedRows : Machine :=
  { Machine.start [] none with
    store := ⟨[("rows", .array ⟨1⟩)]⟩
    heap := ⟨#[⟨1, #[.int 1, .int 2]⟩, ⟨2, #[.array ⟨0⟩, .int 3]⟩]⟩ }

/-- An element of an element of the list. -/
def accessRows : Tree :=
  ⟨"array_access2d", [.token "rows", .tree "number" [.token "0"], .tree "number" [.token "1"]]⟩

/-- All four kinds of answers on one ragged list of rows. -/
theorem coordinates_are_checked_exactly_ragged :
    raggedRows.heap.positions ⟨1⟩ [.int 0, .float 1.0] = .ok [0, 1] ∧
    raggedRows.heap.assignElement ⟨1⟩ [0, 1] (.array ⟨0⟩) "rows" = .error (.nestedElement "rows") ∧
    raggedRows.heap.positions ⟨1⟩ [.int 1, .text "x"] = .error (.tooManyPositions 1) ∧
    (∃ positions, raggedRows.heap.positions ⟨1⟩ [.int 1] = .ok positions) ∧
    evalArrayAccess (evalTree ⟨8, 8⟩) 2 accessRows raggedRows = .ok (.int 2) raggedRows ∧
    ∃ id positions, raggedRows.heap.elementAt id positions = some (.int 2) := by
  rcases coordinates_are_checked_exactly raggedRows.heap ⟨1⟩ [.int 0, .float 1.0] with
    ⟨hcheck, hwrite, -, haccess⟩
  have hzero : (Value.int 0).IsSize 0 := ⟨_, 0, rfl, rfl, rfl⟩
  have hone : (Value.float 1.0).IsSize 1 := ⟨_, 1, rfl, by decide +kernel, rfl⟩
  have hok := (hcheck [0, 1]).mpr ⟨.cons hzero (.cons hone .nil), rfl⟩
  rcases hwrite [0, 1] hok with ⟨w, hw, hrefused⟩
  cases hw
  have hnested := (hrefused (.array ⟨0⟩) "rows" _).mpr (Or.inr ⟨rfl, rfl, rfl⟩)
  rcases coordinates_are_checked_exactly raggedRows.heap ⟨1⟩ [.int 1, .text "x"] with
    ⟨-, -, hfails, -⟩
  have herror : raggedRows.heap.positions ⟨1⟩ [.int 1, .text "x"] = .error (.tooManyPositions 1) :=
    rfl
  rcases hfails _ herror with ⟨d, index, positions, reached, -, hpassed, -, -, hf⟩
  have hrun : evalArrayAccess (evalTree ⟨8, 8⟩) 2 accessRows raggedRows =
      .ok (.int 2) raggedRows := rfl
  rcases haccess _ _ _ _ _ _ hrun with ⟨name, id, indices, ps, -, -, -, -, helement⟩
  refine ⟨hok, hnested, herror, ⟨positions, ?_⟩, hrun, id, ps, helement⟩
  -- Only one value can have passed where the fault is that of the second one.
  split at hf
  · split at hf <;> cases hf
  · cases hf
    exact hpassed

end TreeScript
