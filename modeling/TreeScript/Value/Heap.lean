import TreeScript.Value.Basic

/-!
# Storage of Arrays

The arrays of a program. An array has a fixed length; its elements can be
replaced, and every value that refers to the array sees the replacement. A new
array can only hold arrays that exist already, and the program never puts an
array into an element afterwards, so arrays refer to older arrays only and
never to themselves.

How deep arrays are nested in an array is counted when it is made.

An identity is the number of a cell, and cells are never given back. There is no end to
the storage, and what is not referred to any more stays where it is without being seen.

## Main definitions

* `Cell`: The storage of one array.
* `Heap`: The storage of all arrays.
* `Heap.alloc`, `Heap.get?`, `Heap.set`: A new array, reading and writing.
* `Produced`, `Heap.settle`: Values that may still need storage, and giving it to
  them.
* `Heap.zeroed`: A block of zeros.

## Theorems

* `Heap.items_alloc_self`: What a new array holds.
* `Heap.items_set_self`, `Heap.items_set_of_ne`: What writing changes, and that it
  leaves the other arrays alone.
-/

namespace TreeScript

/-- The storage of one array: its elements, and how many arrays a path from it
    to an element can pass, itself included. -/
structure Cell where
  depth : Nat
  items : Array Value
  deriving DecidableEq, Inhabited

/-- The storage of all arrays, oldest first. -/
structure Heap where
  cells : Array Cell
  deriving DecidableEq, Inhabited

/-- What an operator produces: a value, or the elements of a new array that has
    no storage yet. -/
inductive Produced where
  | value (v : Value)
  | fresh (items : Array Value)
  deriving DecidableEq, Inhabited

namespace Heap

/-- The heap without arrays. -/
def empty : Heap := ⟨#[]⟩

/-- The elements of an array. -/
def items (h : Heap) (id : ArrayId) : Array Value :=
  (h.cells[id.index]?.map Cell.items).getD #[]

/-- The length of an array. -/
def length (h : Heap) (id : ArrayId) : Nat := (h.items id).size

/-- The depth of an array. -/
def depth (h : Heap) (id : ArrayId) : Nat :=
  (h.cells[id.index]?.map Cell.depth).getD 0

/-- The depth of a value; only arrays have one. -/
def depthOf (h : Heap) : Value → Nat
  | .array id => h.depth id
  | _ => 0

/-- The depth of an array with these elements. -/
def depthWith (h : Heap) (items : Array Value) : Nat :=
  items.foldl (fun d v => max d (h.depthOf v)) 0 + 1

/-- A new array with the given elements. -/
def alloc (h : Heap) (items : Array Value) : ArrayId × Heap :=
  (⟨h.cells.size⟩, ⟨h.cells.push ⟨h.depthWith items, items⟩⟩)

/-- The element at a position. -/
def get? (h : Heap) (id : ArrayId) (i : Nat) : Option Value :=
  (h.items id)[i]?

/-- The heap with another element at a position; the same heap if the array does
    not have that position. -/
def set (h : Heap) (id : ArrayId) (i : Nat) (v : Value) : Heap :=
  ⟨h.cells.modify id.index fun c => { c with items := c.items.setIfInBounds i v }⟩

/-- The value with its storage, and the heap that holds it. -/
def settle (h : Heap) : Produced → Value × Heap
  | .value v => (v, h)
  | .fresh items =>
    let (id, h) := h.alloc items
    (.array id, h)

/-- A block of zeros with the given sides. No two of its rows share storage.
    Without sides it is an empty array. -/
def zeroed : List Nat → Heap → ArrayId × Heap
  | [], h => h.alloc #[]
  | [n], h => h.alloc (Array.replicate n (.int 0))
  | n :: sides, h =>
    let addRow := fun (block : Array Value × Heap) =>
      let (row, h) := zeroed sides block.2
      (block.1.push (.array row), h)
    let (rows, h) := Nat.repeat addRow n (#[], h)
    h.alloc rows

/-- Whether a value counts as true: a number that is not zero, a sequence that
    is not empty, or the mark of a loop that is to be left. -/
def isTrue (h : Heap) : Value → Bool
  | .number n => !n.isZero
  | .text s => !s.isEmpty
  | .array id => h.length id != 0
  | .breakMark => true
  | .absent => false

/-- A new array has the elements that it was made with. -/
@[simp]
theorem items_alloc_self (h : Heap) (items : Array Value) :
    (h.alloc items).2.items (h.alloc items).1 = items := by
  simp [alloc, Heap.items]

/-- Writing replaces the element at the position. -/
theorem items_set_self (h : Heap) (id : ArrayId) (i : Nat) (v : Value) :
    (h.set id i v).items id = (h.items id).setIfInBounds i v := by
  unfold Heap.items set
  rw [Array.getElem?_modify]
  cases h.cells[id.index]? <;> simp

/-- Writing leaves all other arrays alone. -/
theorem items_set_of_ne (h : Heap) {id other : ArrayId} (hne : other ≠ id) (i : Nat)
    (v : Value) : (h.set id i v).items other = h.items other := by
  have hi : id.index ≠ other.index := by
    intro e
    cases id
    cases other
    simp_all
  simp [Heap.items, set, Array.getElem?_modify, hi]

end Heap

end TreeScript
