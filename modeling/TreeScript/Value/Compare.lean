import TreeScript.Value.Heap

/-!
# Comparing and Writing Values

Equality, order and text of values. Numbers compare as numbers and texts as
texts; arrays compare element by element, but storage is always equal to
itself. Values of different sorts are neither equal nor ordered.

Arrays refer to older arrays only, so the number of arrays bounds how deep a
comparison or a text can descend. That number is the allowance of the functions
below.

Equality and order are two functions, and each goes through the elements on its own. An
order is undefined as soon as a pair of elements is, and of two arrays that are equal as
far as both go the longer one is greater.

## Main definitions

* `Heap.eq`: Equality of values.
* `Heap.compare`: The order of values.
* `Heap.textOf`: The text of a value.
-/

namespace TreeScript

/-- The order of two lists whose elements are ordered by `cmp`: that of the
    first two elements that differ, or else that of the lengths. It is undefined
    if an undefined pair is met. -/
def lexicographic (cmp : Value → Value → Option Ordering) :
    List Value → List Value → Option Ordering
  | [], [] => some .eq
  | [], _ :: _ => some .lt
  | _ :: _, [] => some .gt
  | a :: as, b :: bs => match cmp a b with
    | some .eq => lexicographic cmp as bs
    | other => other

namespace Heap

/-- Equality of values whose arrays are nested at most as deep as the
    allowance. -/
def eqWithin (h : Heap) : Nat → Value → Value → Bool
  | _, .number a, .number b => a.eq b
  | _, .text a, .text b => a == b
  | 0, .array a, .array b => a == b
  | allowance + 1, .array a, .array b =>
    a == b || (h.items a).isEqv (h.items b) (h.eqWithin allowance)
  | _, .breakMark, .breakMark => true
  | _, .absent, .absent => true
  | _, _, _ => false

/-- Equality of values. -/
def eq (h : Heap) (a b : Value) : Bool :=
  h.eqWithin h.cells.size a b

/-- The order of values whose arrays are nested at most as deep as the
    allowance. -/
def compareWithin (h : Heap) : Nat → Value → Value → Option Ordering
  | _, .number a, .number b => a.compare b
  | _, .text a, .text b => some (Ord.compare a b)
  -- One storage is equal to itself, and its elements are not looked at.
  | 0, .array a, .array b => if a == b then some .eq else none
  | allowance + 1, .array a, .array b =>
    if a == b then some .eq
    else lexicographic (h.compareWithin allowance) (h.items a).toList (h.items b).toList
  | _, .breakMark, .breakMark => some .eq
  | _, .absent, .absent => some .eq
  | _, _, _ => none

/-- The order of values, where they have one. -/
def compare (h : Heap) (a b : Value) : Option Ordering :=
  h.compareWithin h.cells.size a b

/-- The text of an element: like the text of the value, but a text stands
    between quotes. -/
def elementText (textOf : Value → String) : Value → String
  | .text s => "'" ++ s ++ "'"
  | v => textOf v

/-- The text of a value whose arrays are nested at most as deep as the
    allowance. -/
def textWithin (h : Heap) : Nat → Value → String
  | _, .number n => n.text
  | _, .text s => s
  | 0, .array _ => "[]"
  | allowance + 1, .array id =>
    let elements := (h.items id).toList.map (elementText (h.textWithin allowance))
    "[" ++ String.intercalate ", " elements ++ "]"
  | _, .breakMark => "break"
  | _, .absent => "None"

/-- The text of a value. -/
def textOf (h : Heap) (v : Value) : String :=
  h.textWithin h.cells.size v

end Heap

end TreeScript
