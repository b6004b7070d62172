import TreeScript.Proofs.Paths

/-!
# How Blocks Are Laid Out

A block of zeros is made row by row: each row is a block with one side less, made behind
the arrays that there were before, and the array of the rows comes last. So it is known
where every array of a block stands before anything is made. The rows of a block take equal
parts of the heap one after the other, which is why no two positions share an array.

A write goes through a row that was never copied, so this is what keeps the elements of a
block apart. A list that is repeated has the same rows over and over, and no such layout.

`Heap.ZerosAt` goes down the sides as the definition of a block does, and is stated for a
place in a heap that may have more arrays behind it. So it is kept when the next row is
made, and the induction can go through the rows: `Heap.MakesRows` is what holds after some
of them, and a row more is made at the place that the ones before it leave.

That two lists of positions lead to different rows is a fact about numbers. `rowAt`
computes where the row stands, and of two lists that part at some side, the smaller
position leads to the lower place.

## Main definitions

* `rowsIn`: How many arrays a block has below the one that holds its rows.
* `Heap.ZerosAt`: A block of zeros stands in the heap from an index on.
* `Covers`: Positions that lie within the sides of a block.
* `rowAt`: The array that positions lead to in a block.

## Theorems

* `Heap.zeroed_spec`: Making a block lays it out behind all other arrays.
* `Heap.ZerosAt.follow_row`, `Heap.ZerosAt.follow_zero`, `Heap.ZerosAt.follow_outside`: What
  positions lead to in a block.
* `rowAt_injective`: Different positions lead to rows in different places.
* `rowBase_succ`, `blockId_lt_rowBase`: Where rows begin and end.
* `Heap.MakesRows.push`: One row more.
* `rowAt_lt_of_lt`: The smaller position leads to the lower place.
-/

namespace TreeScript

/-- How many arrays a block with the sides has below its first dimension. -/
def rowsIn : List Nat → Nat
  | n :: s :: sides => n * (rowsIn (s :: sides) + 1)
  | _ => 0

/-- Where a row begins in a block, if the block begins at an index and its rows have the
    sides. -/
def rowBase (lo : Nat) (sides : List Nat) (k : Nat) : Nat := lo + k * (rowsIn sides + 1)

/-- The array of a block that begins at an index. It stands behind all of its rows. -/
def blockId (lo : Nat) (sides : List Nat) : ArrayId := ⟨lo + rowsIn sides⟩

/-- The next row begins behind the array of the rows of the one before. -/
theorem rowBase_succ (lo : Nat) (sides : List Nat) (k : Nat) :
    rowBase lo sides (k + 1) = (blockId (rowBase lo sides k) sides).index + 1 := by
  simp only [rowBase, blockId, Nat.succ_mul]
  omega

/-- A row ends before the next ones begin. -/
theorem blockId_lt_rowBase (lo : Nat) (sides : List Nat) {k k' : Nat} (hk : k < k') :
    (blockId (rowBase lo sides k) sides).index < rowBase lo sides k' := by
  have hle : rowBase lo sides (k + 1) ≤ rowBase lo sides k' :=
    Nat.add_le_add_left (Nat.mul_le_mul_right _ hk) lo
  rw [rowBase_succ] at hle
  omega

theorem blockId_cons (lo n s : Nat) (sides : List Nat) :
    blockId lo (n :: s :: sides) = ⟨rowBase lo (s :: sides) n⟩ := rfl

namespace Heap

variable {h h' : Heap} {lo n k : Nat} {sides positions : List Nat}

/-- The rows of a block that begins at an index, as many as are asked for. -/
def rowIds (lo : Nat) (sides : List Nat) (n : Nat) : Array Value :=
  ((List.range n).map fun k => .array (blockId (rowBase lo sides k) sides)).toArray

/-- A block of zeros stands in a heap from an index on: first its rows, one behind the
    other, and then the array of the rows. -/
def ZerosAt (h : Heap) : Nat → List Nat → Prop
  | lo, [] => h.items (blockId lo []) = #[]
  | lo, [n] => h.items (blockId lo [n]) = Array.replicate n (.int 0)
  | lo, n :: s :: sides =>
    (∀ k < n, h.ZerosAt (rowBase lo (s :: sides) k) (s :: sides)) ∧
      h.items (blockId lo (n :: s :: sides)) = rowIds lo (s :: sides) n

/-- More arrays behind a block leave it alone. -/
theorem ZerosAt.later (hext : h.Extends h') : ∀ {sides : List Nat} {lo : Nat},
    h.ZerosAt lo sides → (blockId lo sides).index < h.cells.size → h'.ZerosAt lo sides
  | [], lo, hz, hlt => by
      rw [ZerosAt, hext.items_eq hlt]
      exact hz
  | [n], lo, hz, hlt => by
      rw [ZerosAt, hext.items_eq hlt]
      exact hz
  | n :: s :: sides, lo, hz, hlt => by
      rw [ZerosAt, hext.items_eq hlt]
      refine ⟨fun k hk => (hz.1 k hk).later hext ?_, hz.2⟩
      exact Nat.lt_trans (blockId_lt_rowBase lo (s :: sides) hk) hlt

/-- What is made when a block is. -/
structure MakesZeros (h : Heap) (sides : List Nat) (made : ArrayId × Heap) : Prop where
  id : made.1 = blockId h.cells.size sides
  size : made.2.cells.size = made.1.index + 1
  grown : h.Extends made.2
  zeros : made.2.ZerosAt h.cells.size sides

/-- A block of one dimension is one array of zeros. -/
theorem makesZeros_alloc {items : Array Value} (hlast : rowsIn sides = 0)
    (hz : (h.alloc items).2.ZerosAt h.cells.size sides) : h.MakesZeros sides (h.alloc items) where
  id := by rw [alloc_id, blockId, hlast, Nat.add_zero]
  size := by rw [size_alloc, alloc_id]
  grown := extends_alloc h items
  zeros := hz

/-- Some rows of a block have been made. -/
structure MakesRows (h : Heap) (sides : List Nat) (k : Nat) (block : Array Value × Heap) :
    Prop where
  ids : block.1 = rowIds h.cells.size sides k
  size : block.2.cells.size = rowBase h.cells.size sides k
  grown : h.Extends block.2
  zeros : ∀ j < k, block.2.ZerosAt (rowBase h.cells.size sides j) sides

/-- One row more is made behind the others, and leaves them where they are. -/
theorem MakesRows.push {block : Array Value × Heap} {made : ArrayId × Heap}
    (hb : h.MakesRows sides k block) (hm : block.2.MakesZeros sides made) :
    h.MakesRows sides (k + 1) (block.1.push (.array made.1), made.2) where
  -- The new row starts where the rows before it end, which is what its number says.
  ids := by
    have hid := hm.id
    rw [hb.size] at hid
    rw [hb.ids, hid, rowIds, rowIds, List.range_succ, List.map_append]
    simp
  size := by
    rw [hm.size, hm.id, hb.size, rowBase_succ]
  grown := hb.grown.trans hm.grown
  zeros := by
    intro j hj
    have hzeros := hm.zeros
    rw [hb.size] at hzeros
    -- The last row is the new one; the others lie below it and are not touched.
    by_cases hlast : j = k
    · rw [hlast]
      exact hzeros
    · have hlt : j < k := by omega
      refine (hb.zeros j hlt).later hm.grown ?_
      rw [hb.size]
      exact blockId_lt_rowBase _ sides hlt

/-- The array of the rows is made behind them. -/
theorem MakesRows.alloc {s : Nat} {block : Array Value × Heap}
    (hb : h.MakesRows (s :: sides) n block) :
    h.MakesZeros (n :: s :: sides) (block.2.alloc block.1) where
  id := by rw [alloc_id, hb.size, blockId_cons]
  size := by rw [size_alloc, alloc_id]
  grown := hb.grown.trans (extends_alloc block.2 block.1)
  zeros := by
    -- The array of the rows comes last, and has the number the block is known by.
    have hnew : blockId h.cells.size (n :: s :: sides) = (block.2.alloc block.1).1 := by
      rw [alloc_id, hb.size, blockId_cons]
    refine ⟨fun k hk => (hb.zeros k hk).later (extends_alloc block.2 block.1) ?_, ?_⟩
    · rw [hb.size]
      exact blockId_lt_rowBase _ (s :: sides) hk
    · rw [hnew, items_alloc_self, hb.ids]

/-- Making a block lays it out behind all other arrays. -/
theorem zeroed_spec : ∀ (sides : List Nat) (h : Heap), h.MakesZeros sides (zeroed sides h)
  | [], h => makesZeros_alloc rfl (items_alloc_self h _)
  | [_], h => makesZeros_alloc rfl (items_alloc_self h _)
  | n :: s :: sides, h => by
      -- The rows that have been made so far are the invariant of the loop.
      have hrows : h.MakesRows (s :: sides) n (Nat.repeat (fun block =>
          (block.1.push (.array (zeroed (s :: sides) block.2).1), (zeroed (s :: sides) block.2).2))
          n (#[], h)) := by
        refine repeat_counts ?_ (fun k block hb => hb.push (zeroed_spec (s :: sides) block.2)) n
        exact ⟨rfl, by simp [rowBase], extends_refl h, fun j hj => absurd hj (Nat.not_lt_zero j)⟩
      exact hrows.alloc

/-- A block has as many rows as its first side says. -/
theorem ZerosAt.length_eq (hz : h.ZerosAt lo (n :: sides)) :
    h.length (blockId lo (n :: sides)) = n := by
  unfold length
  cases sides with
  | nil =>
      rw [ZerosAt] at hz
      simp [hz]
  | cons s sides =>
      rw [ZerosAt] at hz
      simp [hz.2, rowIds]

theorem ZerosAt.get?_zero (hz : h.ZerosAt lo [n]) (hk : k < n) :
    h.get? (blockId lo [n]) k = some (.int 0) := by
  rw [ZerosAt] at hz
  simp [Heap.get?, hz, hk]

/-- A row stands at its place, one after the other. -/
theorem ZerosAt.get?_row {s : Nat} (hz : h.ZerosAt lo (n :: s :: sides)) (hk : k < n) :
    h.get? (blockId lo (n :: s :: sides)) k =
      some (.array (blockId (rowBase lo (s :: sides) k) (s :: sides))) := by
  rw [ZerosAt] at hz
  simp [Heap.get?, hz.2, rowIds, hk]

/-- There is nothing outside of the first side. -/
theorem ZerosAt.get?_outside (hz : h.ZerosAt lo (n :: sides)) (hk : n ≤ k) :
    h.get? (blockId lo (n :: sides)) k = none := by
  refine Array.getElem?_eq_none ?_
  have hlen := hz.length_eq
  unfold length at hlen
  omega

end Heap

/-- Positions lie within the sides of a block: there are not more of them, and each of them
    is below its side. -/
def Covers (sides positions : List Nat) : Prop :=
  positions.length ≤ sides.length ∧
    ∀ (k n p : Nat), sides[k]? = some n → positions[k]? = some p → p < n

theorem covers_nil (sides : List Nat) : Covers sides [] := ⟨Nat.zero_le _, by simp⟩

/-- Positions lie within the sides if each of them does. -/
theorem covers_cons_cons {n p : Nat} {sides positions : List Nat} :
    Covers (n :: sides) (p :: positions) ↔ p < n ∧ Covers sides positions := by
  constructor
  · rintro ⟨hlen, hlt⟩
    refine ⟨hlt 0 n p rfl rfl, by simpa using hlen, fun k m q hm hq => ?_⟩
    exact hlt (k + 1) m q hm hq
  · rintro ⟨hp, hlen, hlt⟩
    refine ⟨by simpa using hlen, fun k m q hm hq => ?_⟩
    -- The bounds are checked place by place, so the first place is a case of its own.
    cases k with
    | zero =>
        cases hm
        cases hq
        exact hp
    | succ k => exact hlt k m q hm hq

/-- Positions lie within the sides if one more does. -/
theorem Covers.of_concat {sides path : List Nat} {last : Nat} (hc : Covers sides (path ++ [last])) :
    Covers sides path := by
  rcases hc with ⟨hlen, hlt⟩
  rw [List.length_append, List.length_singleton] at hlen
  refine ⟨by omega, fun k n p hn hp => hlt k n p hn ?_⟩
  have hk := (List.getElem?_eq_some_iff.mp hp).1
  rw [List.getElem?_append_left hk]
  exact hp

/-- Where the part of a block begins that positions lead to. -/
def baseAt : Nat → List Nat → List Nat → Nat
  | lo, _, [] => lo
  | lo, [], _ :: _ => lo
  | lo, _ :: sides, p :: positions => baseAt (rowBase lo sides p) sides positions

/-- The array that positions lead to in a block that begins at an index. -/
def rowAt (lo : Nat) (sides positions : List Nat) : ArrayId :=
  blockId (baseAt lo sides positions) (sides.drop positions.length)

theorem rowAt_nil (lo : Nat) (sides : List Nat) : rowAt lo sides [] = blockId lo sides := by
  cases sides <;> rfl

theorem rowAt_cons_cons (lo n p : Nat) (sides positions : List Nat) :
    rowAt lo (n :: sides) (p :: positions) = rowAt (rowBase lo sides p) sides positions := rfl

namespace Heap

variable {h : Heap} {lo n : Nat} {sides positions : List Nat}

/-- Too few positions for an element lead to a part of the block. -/
theorem ZerosAt.follow_row : ∀ {sides positions : List Nat} {lo : Nat}, h.ZerosAt lo sides →
    Covers sides positions → positions.length < sides.length →
    h.follow (.array (blockId lo sides)) positions =
      some (.array (rowAt lo sides positions)) ∧
    h.ZerosAt (baseAt lo sides positions) (sides.drop positions.length)
  | n :: sides, [], lo, hz, _, _ => ⟨rfl, hz⟩
  | n :: s :: sides, p :: positions, lo, hz, hc, hlen => by
      rcases covers_cons_cons.mp hc with ⟨hp, hc⟩
      rw [follow_cons, descend?_array, hz.get?_row hp]
      exact (hz.1 p hp).follow_row hc (by simpa using hlen)
  | [n], p :: positions, lo, _, _, hlen => by simp at hlen

/-- As many positions as there are sides lead to a zero. -/
theorem ZerosAt.follow_zero : ∀ {sides positions : List Nat} {lo : Nat}, h.ZerosAt lo sides →
    sides ≠ [] → Covers sides positions → positions.length = sides.length →
    h.follow (.array (blockId lo sides)) positions = some (.int 0)
  | n :: s :: sides, p :: positions, lo, hz, _, hc, hlen => by
      rcases covers_cons_cons.mp hc with ⟨hp, hc⟩
      -- All but the last position choose a row.
      rw [follow_cons, descend?_array, hz.get?_row hp]
      exact (hz.1 p hp).follow_zero (by simp) hc (by simpa using hlen)
  | [n], [p], lo, hz, _, hc, _ => by
      rw [follow_cons, descend?_array, hz.get?_zero (covers_cons_cons.mp hc).1]
      rfl
  | [], _, _, _, hne, _, _ => absurd rfl hne
  | _ :: _, [], _, _, _, _, hlen => by simp at hlen
  | [_], _ :: _ :: _, _, _, _, _, hlen => by simp at hlen

/-- All other positions lead to nothing. -/
theorem ZerosAt.follow_outside : ∀ {sides positions : List Nat} {lo : Nat}, h.ZerosAt lo sides →
    sides ≠ [] → ¬ Covers sides positions →
    h.follow (.array (blockId lo sides)) positions = none
  | _, [], _, _, _, hc => absurd (covers_nil _) hc
  | [], _ :: _, _, _, hne, _ => absurd rfl hne
  | n :: sides, p :: positions, lo, hz, _, hc => by
      rw [follow_cons, descend?_array]
      by_cases hp : p < n
      · cases sides with
        | nil =>
            -- Below an element there is nothing, so one position would do.
            rw [hz.get?_zero hp]
            cases positions with
            | nil => exact absurd (covers_cons_cons.mpr ⟨hp, covers_nil _⟩) hc
            | cons q positions => rfl
        | cons s sides =>
            rw [hz.get?_row hp]
            exact (hz.1 p hp).follow_outside (by simp) fun hrest =>
              hc (covers_cons_cons.mpr ⟨hp, hrest⟩)
      · rw [hz.get?_outside (Nat.le_of_not_lt hp)]
        rfl

end Heap

/-- A row stands behind the beginning of the block. -/
theorem le_rowAt : ∀ (lo : Nat) (sides positions : List Nat), lo ≤ (rowAt lo sides positions).index
  | lo, sides, [] => by
      rw [rowAt_nil]
      exact Nat.le_add_right lo _
  | lo, [], _ :: _ => Nat.le_add_right lo _
  | lo, n :: sides, p :: positions => by
      have hrow := le_rowAt (rowBase lo sides p) sides positions
      exact Nat.le_trans (Nat.le_add_right lo _) hrow

/-- It stands before the array that holds the whole block, or is that array. -/
theorem rowAt_le : ∀ {sides positions : List Nat} (lo : Nat), Covers sides positions →
    positions.length < sides.length → (rowAt lo sides positions).index ≤ (blockId lo sides).index
  | _, [], lo, _, _ => by simp [rowAt_nil]
  | [_], _ :: _, _, _, hlen => by simp at hlen
  | n :: s :: sides, p :: positions, lo, hc, hlen => by
      rcases covers_cons_cons.mp hc with ⟨hp, hc⟩
      have hrow := rowAt_le (rowBase lo (s :: sides) p) hc (by simpa using hlen)
      exact Nat.le_trans hrow (Nat.le_of_lt (blockId_lt_rowBase lo (s :: sides) hp))

/-- A row stands before the array of the rows. -/
theorem rowAt_lt {n s p : Nat} {sides positions : List Nat} (lo : Nat)
    (hc : Covers (n :: s :: sides) (p :: positions))
    (hlen : positions.length < (s :: sides).length) :
    (rowAt lo (n :: s :: sides) (p :: positions)).index < (blockId lo (n :: s :: sides)).index := by
  rcases covers_cons_cons.mp hc with ⟨hp, hrest⟩
  have hrow := rowAt_le (rowBase lo (s :: sides) p) hrest hlen
  exact Nat.lt_of_le_of_lt hrow (blockId_lt_rowBase lo (s :: sides) hp)

/-- The parts of the heap that two rows of a block take do not meet. -/
theorem rowAt_lt_of_lt {p q : Nat} {sides positions : List Nat} (lo : Nat) (hpq : p < q)
    (hc : Covers sides positions) (hlen : positions.length < sides.length)
    (positions' : List Nat) :
    (rowAt (rowBase lo sides p) sides positions).index <
      (rowAt (rowBase lo sides q) sides positions').index := by
  have hfirst := rowAt_le (rowBase lo sides p) hc hlen
  have hnext := blockId_lt_rowBase lo sides hpq
  have hsecond := le_rowAt (rowBase lo sides q) sides positions'
  omega

/-- Different positions lead to rows in different places. -/
theorem rowAt_injective : ∀ {sides positions positions' : List Nat} {lo : Nat},
    Covers sides positions → Covers sides positions' → positions.length < sides.length →
    positions'.length < sides.length → rowAt lo sides positions = rowAt lo sides positions' →
    positions = positions'
  | _, [], [], _, _, _, _, _, _ => rfl
  | [_], _ :: _, _, _, _, _, hlen, _, _ => by simp at hlen
  | [_], _, _ :: _, _, _, _, _, hlen', _ => by simp at hlen'
  -- An array is numbered before its rows, so it has another number than any of them.
  | n :: s :: sides, [], q :: positions', lo, _, hc', _, hlen', heq => by
      have hlt := rowAt_lt lo hc' (by simpa using hlen')
      rw [← heq, rowAt_nil] at hlt
      exact absurd hlt (Nat.lt_irrefl _)
  | n :: s :: sides, p :: positions, [], lo, hc, _, hlen, _, heq => by
      have hlt := rowAt_lt lo hc (by simpa using hlen)
      rw [heq, rowAt_nil] at hlt
      exact absurd hlt (Nat.lt_irrefl _)
  | n :: s :: sides, p :: positions, q :: positions', lo, hc, hc', hlen, hlen', heq => by
      have hrest := (covers_cons_cons.mp hc).2
      have hrest' := (covers_cons_cons.mp hc').2
      rw [List.length_cons, List.length_cons, Nat.succ_lt_succ_iff] at hlen hlen'
      rw [rowAt_cons_cons, rowAt_cons_cons] at heq
      -- Paths that part here lead into rows whose numbers do not overlap.
      rcases Nat.lt_trichotomy p q with hpq | hpq | hqp
      · have hlt := rowAt_lt_of_lt lo hpq hrest hlen positions'
        rw [heq] at hlt
        exact absurd hlt (Nat.lt_irrefl _)
      · rw [hpq] at heq ⊢
        rw [rowAt_injective hrest hrest' hlen hlen' heq]
      · have hlt := rowAt_lt_of_lt lo hqp hrest' hlen' positions
        rw [heq] at hlt
        exact absurd hlt (Nat.lt_irrefl _)

end TreeScript
