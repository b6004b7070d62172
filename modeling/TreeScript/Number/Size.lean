import TreeScript.Number.Basic

/-!
# Sizes

Numbers of elements, each in a word of 64 bits. Where a program asks for a size
that may be too large, it is counted up to the greatest size and stays there:
what matters is only that it is too large.

Some sums of sizes are taken without such care, since nobody expects them to be
too large. Where one is, the run is given up on the spot. That is a panic and no
failure: it is not told of, and nothing goes on behind it.

## Main definitions

* `maxSize`: The greatest size that is told apart from greater ones.
* `saturate`: A number of elements as a size.
* `product`: The size of a block with given sides.
* `sizeOf?`: The size that an integer names.
* `intOfSize`: The integer nearest to a size.
* `Panic`: Why a run is given up on the spot.
* `addSizes`, `reserve`: A sum of sizes, and room for so many values.

## Theorems

* `addSizes_of_le`, `addSizes_of_lt`: Where there is a sum, and where there is none.
* `reserve_eq_ok_iff`: Where there is room.
-/

namespace TreeScript

/-- The greatest size that is told apart from greater ones. -/
def maxSize : Nat := Nat.pow 2 64 - 1

/-- A number of elements as a size. -/
def saturate (n : Nat) : Nat := min n maxSize

/-- The size of a block with the given sides. -/
def product (sides : List Nat) : Nat :=
  sides.foldl (fun size side => saturate (size * side)) 1

/-- The size that an integer names. -/
def sizeOf? (n : Int64) : Option Nat := n.toInt.toNat?

/-- The integer nearest to a size. -/
def intOfSize (n : Nat) : Int64 :=
  (int64? n).getD Int64.maxValue

/-- Why a run is given up on the spot. -/
inductive Panic where
  /-- A sum of sizes is greater than the greatest size. -/
  | sum
  /-- There is no room for as many values. -/
  | room
  deriving DecidableEq, Inhabited

/-- The wording of a panic. -/
def Panic.message : Panic → String
  | .sum => "attempt to add with overflow"
  | .room => "capacity overflow"

/-- The sum of two sizes. -/
def addSizes (m n : Nat) : Except Panic Nat :=
  if m + n ≤ maxSize then .ok (m + n) else .error .sum

/-- The greatest number of values that there can be room for. A value takes 24
    bytes, and all of them together less than half of what a word can count. -/
def maxRoom : Nat := (Nat.pow 2 63 - 1) / 24

/-- Makes room for so many values. -/
def reserve (n : Nat) : Except Panic Unit :=
  if n ≤ maxRoom then .ok () else .error .room

/-- A sum that is not too large is the sum. -/
theorem addSizes_of_le {m n : Nat} (h : m + n ≤ maxSize) : addSizes m n = .ok (m + n) :=
  if_pos h

/-- A sum that is too large is none. -/
theorem addSizes_of_lt {m n : Nat} (h : maxSize < m + n) : addSizes m n = .error .sum :=
  if_neg (Nat.not_le_of_lt h)

theorem addSizes_eq_ok_iff {m n k : Nat} :
    addSizes m n = .ok k ↔ m + n ≤ maxSize ∧ m + n = k := by
  unfold addSizes
  split <;> simp [*]

/-- There is room for every number of values that is not too large. -/
theorem reserve_eq_ok_iff {n : Nat} : reserve n = .ok () ↔ n ≤ maxRoom := by
  unfold reserve
  split <;> simp [*]

/-- Nearly all sizes are greater than what there can be room for. -/
theorem maxRoom_lt_maxSize : maxRoom < maxSize := by decide

end TreeScript
