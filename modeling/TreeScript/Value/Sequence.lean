import TreeScript.Number.Size
import TreeScript.Value.Compare

/-!
# Sequences

Texts and arrays as sequences: joining two of a kind, repeating one, and
picking an element. The size of a result is known before it is built, and a
result that is too large is refused. A text is measured in the bytes of its
encoding but picked from by characters.

Joined and repeated arrays get new storage; the arrays in them are shared.

Sizes are counted in words that stop at the greatest size and compared with the limit, and
the result is made after that. A product is counted with the number of copies, which is
zero for any count below one.

## Main definitions

* `checkSize`, `checkDepth`: The limits on what a program may build.
* `fill`: Elements appended until there are as many as asked for.
* `Heap.sequence`: The operators where an operand is no number.
* `Heap.index`: An element of a sequence.
-/

namespace TreeScript

/-- The greatest number of elements of an array, or bytes of a text, that an
    operation may build. -/
def maxElements : Nat := Nat.pow 2 24

/-- The greatest depth of an array. -/
def maxDepth : Nat := 64

/-- Refuses sizes above the limit. -/
def checkSize (requested : Nat) : Except Fault Unit :=
  if requested ≤ maxElements then .ok () else .error (.tooLarge requested maxElements)

/-- Refuses depths above the limit. -/
def checkDepth (depth : Nat) : Except Fault Unit :=
  if depth ≤ maxDepth then .ok () else .error (.tooDeep maxDepth)

/-- How often a count repeats: a negative one not at all. -/
def repetitions (count : Int64) : Nat := count.toInt.toNat

/-- A text a number of times over. -/
def repeatText (s : String) (n : Nat) : String :=
  -- The empty text would be appended to itself as often as the count says.
  if s.isEmpty then s else Nat.repeat (· ++ s) n ""

/-- Appends the elements to those put down so far until there are as many as asked for. This
    comes to an end because there is something to append if any are asked for. -/
def fill (items : Array Value) (total : Nat) (more : 0 < total → 0 < items.size)
    (filled : Array Value) : Array Value :=
  if filled.size < total then fill items total more (filled ++ items) else filled
termination_by total - filled.size
decreasing_by
  have hsize := more (by omega)
  rw [Array.size_append]
  omega

/-- The elements of an array a number of times over. -/
def repeatItems (items : Array Value) (n : Nat) : Array Value :=
  fill items (items.size * n) Nat.pos_of_mul_pos_right #[]

/-- Joins two texts. -/
def joinTexts (a b : String) : Except Fault Produced := do
  checkSize (saturate (a.utf8ByteSize + b.utf8ByteSize))
  pure (.value (.text (a ++ b)))

/-- Repeats a text. -/
def timesText (s : String) (count : Int64) : Except Fault Produced := do
  let n := repetitions count
  -- The size is checked before anything is built.
  checkSize (saturate (s.utf8ByteSize * n))
  pure (.value (.text (repeatText s n)))

/-- Joins two arrays. -/
def joinItems (a b : Array Value) : Except Fault Produced := do
  checkSize (saturate (a.size + b.size))
  pure (.fresh (a ++ b))

/-- Repeats an array. -/
def timesItems (items : Array Value) (count : Int64) : Except Fault Produced := do
  let n := repetitions count
  checkSize (saturate (items.size * n))
  pure (.fresh (repeatItems items n))

namespace Heap

/-- The arithmetic operators where an operand is no number: a sum joins two
    sequences of a kind, and a product with an integer repeats one. -/
def sequence (h : Heap) (op : ArithOp) (left right : Value) : Except Fault Produced :=
  match op, left, right with
  | .add, .text a, .text b => joinTexts a b
  | .add, .array a, .array b => joinItems (h.items a) (h.items b)
  | .mul, .text s, .number (.int n) => timesText s n
  | .mul, .number (.int n), .text s => timesText s n
  | .mul, .array a, .number (.int n) => timesItems (h.items a) n
  | .mul, .number (.int n), .array a => timesItems (h.items a) n
  | op, left, right => .error (.mismatch (.arith op) left.type right.type)

/-- The number of elements of a sequence: those of an array, or the characters
    of a text. -/
def count? (h : Heap) : Value → Option Nat
  | .array id => some (h.length id)
  | .text s => some s.length
  | _ => none

/-- The element of a sequence at a position. That of a text is a text of one
    character. -/
def element? (h : Heap) (v : Value) (position : Nat) : Option Value :=
  match v with
  | .array id => h.get? id position
  | .text s => s.toList[position]?.map fun c => .text (String.singleton c)
  | _ => none

/-- The position in a sequence of the given length that an index names. A
    negative index counts from the end. The length is added to it as an integer
    of 64 bits, and a sum out of their range is no position either. -/
def position? (length : Nat) (n : Int64) : Option Nat :=
  (if n < 0 then int64? (n.toInt + (intOfSize length).toInt) else some n).bind sizeOf?

/-- The element of a sequence that an index names. -/
def index (h : Heap) (base i : Value) : Except Fault Value :=
  match h.count? base with
  | none => .error (.notIndexable base.type)
  | some length => match i.whole? with
    | none => .error (.indexNotWhole (h.textOf i))
    | some n => match (position? length n).bind (h.element? base) with
      | none => .error (.indexOutOfRange n.toInt)
      | some v => .ok v

end Heap

end TreeScript
