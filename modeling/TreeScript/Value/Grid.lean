import TreeScript.Value.Sequence

/-!
# Blocks and Coordinates

Arrays in several dimensions: blocks of zeros, and elements addressed by one
position for each dimension. Dimensions and positions are checked one after the
other, and the first one that is wrong decides the fault. A position is checked
against the array that it is reached by, so blocks whose rows differ in length
need no rule of their own.

A block is a tree of arrays and nothing marks it as one. So reading and writing an element
walk down the arrays position by position, and a position that leads to an array at the
end, or past an element that is none, is found out on the way.

## Main definitions

* `slots`: How many elements the arrays of a block have.
* `Heap.dimensions`: The sides of a block that is to be made.
* `Heap.positions`: The positions that values name in an array.
* `Heap.elementAt`: The element at some positions.
* `Heap.slot`: The place there, if it may be written to.
* `Heap.assignElement`: The heap with another element there.
-/

namespace TreeScript

/-- The number of elements that the arrays of a block with these sides have
    together. The whole block is one array with as many elements as the first
    side; each of them is an array with as many elements as the second side, and
    so on. -/
def slots (sides : List Nat) : Nat :=
  (List.range sides.length).foldl
    (fun total k => saturate (total + product (sides.take (k + 1)))) 0

namespace Heap

/-- A side of a block: a whole number that is not negative. -/
def dimension (h : Heap) (v : Value) : Except Fault Nat :=
  match v with
  | .number n =>
    -- A negative dimension is named as such, also if it is not whole.
    if n.isNegative then .error (.dimensionNotPositive (h.textOf v))
    else match n.whole? with
      | none => .error (.dimensionNotWhole (h.textOf v))
      | some m => match sizeOf? m with
        | none => .error (.tooLarge maxSize maxElements)
        | some size => .ok size
  | v => .error (.dimensionNotPositive (h.textOf v))

/-- The sides of a block. There are not too many of them, and the block is not
    too large. -/
def dimensions (h : Heap) (vs : List Value) : Except Fault (List Nat) := do
  -- The number of sides is checked before any of them is looked at.
  checkDepth vs.length
  let sides ← vs.mapM h.dimension
  checkSize (slots sides)
  pure sides

/-- The element of a value at a position, if the value is an array. -/
def descend? (h : Heap) (v : Value) (position : Nat) : Option Value :=
  match v with
  | .array id => h.get? id position
  | _ => none

/-- The element at some positions, the array itself if there are none. -/
def elementAt (h : Heap) (id : ArrayId) (positions : List Nat) : Option Value :=
  positions.foldlM h.descend? (.array id)

/-- The positions that values name below a value, which has been reached by as
    many positions as `dimension` says. -/
def positionsFrom (h : Heap) (dimension : Nat) (here : Value) :
    List Value → Except Fault (List Nat)
  | [] => .ok []
  | i :: rest => match here with
    | .array id => match i.whole? with
      | none => .error (.positionNotWhole (h.textOf i))
      | some n => match sizeOf? n with
        | none => .error (.positionOutOfBounds n.toInt dimension)
        | some position => match h.get? id position with
          | none => .error (.positionOutOfBounds n.toInt dimension)
          | some next => do
            let positions ← h.positionsFrom (dimension + 1) next rest
            pure (position :: positions)
    -- There is nothing to look in, so this coordinate is one too many, whatever it is.
    | _ => .error (.tooManyPositions dimension)

/-- The positions that values name in an array. -/
def positions (h : Heap) (id : ArrayId) (indices : List Value) : Except Fault (List Nat) :=
  h.positionsFrom 0 (.array id) indices

/-- The place of an element: an array and a position in it. -/
structure Slot where
  array : ArrayId
  position : Nat
  deriving DecidableEq, Inhabited

/-- The place at some positions of the array that has the given name, into which
    a value may be written. The positions have to lead to an element that is no
    array, and the value must not be one either. -/
def slot (h : Heap) (id : ArrayId) (positions : List Nat) (v : Value) (name : String) :
    Except Fault Slot :=
  match positions.getLast? with
  | none => .error (.tooFewPositions 0)
  | some last =>
    let path := positions.dropLast
    match h.elementAt id path with
    | some (.array parent) => match h.get? parent last with
      | some (.array _) => .error (.tooFewPositions positions.length)
      | found =>
        -- The value is checked before the position, but not before the path.
        if v.isArray then .error (.nestedElement name)
        else if found.isSome then .ok ⟨parent, last⟩
        else .error (.positionOutOfBounds (intOfSize last).toInt path.length)
    | _ => .error (.tooManyPositions path.length)

/-- The heap with another element at a place. -/
def write (h : Heap) (s : Slot) (v : Value) : Heap :=
  h.set s.array s.position v

/-- The heap with another element at some positions of an array. -/
def assignElement (h : Heap) (id : ArrayId) (positions : List Nat) (v : Value) (name : String) :
    Except Fault Heap :=
  (h.slot id positions v name).map fun s => h.write s v

end Heap

end TreeScript
