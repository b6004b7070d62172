import Mathlib.Algebra.BigOperators.Ring.Finset
import Mathlib.Data.Set.Card
import TreeScript.Proofs.Blocks
import TreeScript.Proofs.Coordinates

/-!
# Sizes of Blocks

Before a block is made, its elements are counted, and a block with too many of them is
refused. The count stops at the greatest size, in every product and in the sum of them, and a
side of zero may follow a product that has stopped. Still it is the true count, stopped
once at the end: stopping earlier makes no difference to a sum or to a product that is stopped
as well. As the limit lies below the greatest size, the check decides what it is meant to.

The count is also what making the block takes. That is shown for the making itself, row by row,
and not for the block that is there in the end, so that nothing is made and forgotten.

The two sides of the count meet in `blockSlots`, the sum of the products of all beginnings
of the list of sides. The check computes it with numbers that stop at the greatest size,
and `slots_eq` takes the stops away. Making a block allocates as many elements, by
induction on the sides with the rows of a block for each of them.

Leaves are counted as a set of positions and not in the order in which they are made, so
the number says nothing of the layout.

## Main definitions

* `Value.IsSide`: A value that is a side of a block.
* `blockSlots`: The number of elements of the arrays of a block, however great it is.
* `Heap.slotCount`: The number of elements of all arrays.
* `Heap.leaves`: The positions in an array that lead to elements which are no arrays.

## Theorems

* `slots_eq`: The count is the true one, stopped at the greatest size.
* `Heap.dimensions_eq_ok_iff`: Which values pass as the sides of a block.
* `Heap.slotCount_zeroed`: How many elements are made with a block.
* `Heap.ZerosAt.leaves_eq`: The leaves of a block are the positions of its elements.
* `block_sizes_are_exact`: The check counts what is made.
* `saturate_add`, `saturate_mul`, `product_eq`: Sums and products that stop.
* `blockSlots_cons`: A block has slots of its own and those of its rows.
* `Heap.encard_leaves_zeroed`: How many leaves a block has.
-/

namespace TreeScript

/-- The number of elements that the arrays of a block with the sides have together: the arrays
    that as many positions lead to have the product of one side more. -/
def blockSlots (sides : List Nat) : Nat :=
  ∑ k ∈ Finset.range sides.length, (sides.take (k + 1)).prod

theorem blockSlots_nil : blockSlots [] = 0 := rfl

/-- A block of `n` parts has `n` slots of its own and those of its parts. -/
theorem blockSlots_cons (n : Nat) (sides : List Nat) :
    blockSlots (n :: sides) = n + n * blockSlots sides := by
  simp only [blockSlots, List.length_cons, Finset.sum_range_succ', List.take_succ_cons,
    List.prod_cons, List.take_zero, List.prod_nil, mul_one, Finset.mul_sum]
  exact Nat.add_comm _ _

theorem saturate_add (a b : Nat) : saturate (saturate a + saturate b) = saturate (a + b) := by
  unfold saturate
  omega

/-- A product that has stopped at the greatest size stays there, unless it becomes zero. -/
theorem saturate_mul (a b : Nat) : saturate (saturate a * b) = saturate (a * b) := by
  rcases Nat.le_total a maxSize with ha | ha
  · have hsmall : saturate a = a := Nat.min_eq_left ha
    rw [hsmall]
  · have hmax : saturate a = maxSize := Nat.min_eq_right ha
    rw [hmax]
    -- A factor of zero brings a saturated product back to zero.
    rcases Nat.eq_zero_or_pos b with rfl | hb
    · rfl
    · have hstopped : maxSize ≤ maxSize * b := Nat.le_mul_of_pos_right maxSize hb
      have hle : maxSize * b ≤ a * b := Nat.mul_le_mul_right b ha
      rw [saturate, saturate, Nat.min_eq_right hstopped, Nat.min_eq_right (hstopped.trans hle)]

theorem foldl_saturate_mul (sides : List Nat) (a : Nat) :
    sides.foldl (fun size side => saturate (size * side)) (saturate a) =
      saturate (a * sides.prod) := by
  induction sides generalizing a with
  | nil => rw [List.foldl_nil, List.prod_nil, mul_one]
  | cons n sides ih => rw [List.foldl_cons, saturate_mul, ih, List.prod_cons, mul_assoc]

theorem product_eq (sides : List Nat) : product sides = saturate sides.prod := by
  have hfold := foldl_saturate_mul sides 1
  rw [one_mul] at hfold
  exact hfold

/-- The count is the true one, stopped at the greatest size. -/
theorem slots_eq (sides : List Nat) : slots sides = saturate (blockSlots sides) := by
  have hcount : ∀ k, (List.range k).foldl
      (fun total k => saturate (total + product (sides.take (k + 1)))) 0 =
        saturate (∑ k ∈ Finset.range k, (sides.take (k + 1)).prod) := by
    intro k
    induction k with
    | zero => rfl
    | succ k ih =>
        rw [List.range_succ, List.foldl_append, ih, Finset.sum_range_succ, List.foldl_cons,
          List.foldl_nil, product_eq, saturate_add]
  exact hcount sides.length

/-- Saturation does not matter below the bound. -/
theorem saturate_le_iff {n limit : Nat} (hlimit : limit < maxSize) :
    saturate n ≤ limit ↔ n ≤ limit := by
  unfold saturate
  omega

/-- The value is a number that is not below zero, and as an integer it is the side. -/
def Value.IsSide (v : Value) (side : Nat) : Prop :=
  ∃ x n, v = .number x ∧ x.isNegative = false ∧ x.whole? = some n ∧ n.toInt = side

theorem checkSize_eq_ok_iff {requested : Nat} :
    checkSize requested = .ok () ↔ requested ≤ maxElements := by
  unfold checkSize
  split <;> simp_all

/-- A step that may fail succeeds on a list if it does so on every element. -/
theorem mapM_eq_ok_iff {α β ε : Type} {g : α → Except ε β} {as : List α} {bs : List β} :
    as.mapM g = .ok bs ↔ List.Forall₂ (fun a b => g a = .ok b) as bs := by
  induction as generalizing bs with
  | nil =>
      rw [List.forall₂_nil_left_iff]
      constructor
      · rintro ⟨⟩
        rfl
      · rintro rfl
        rfl
  | cons a as ih =>
      -- The map has succeeded on the head and on the rest.
      rw [List.mapM_cons, List.forall₂_cons_left_iff]
      constructor
      · intro hok
        rcases exists_of_bind hok with ⟨b, hb, hok⟩
        rcases exists_of_bind hok with ⟨rest, hrest, hok⟩
        cases hok
        exact ⟨b, rest, hb, ih.mp hrest, rfl⟩
      · rintro ⟨b, rest, hb, hrest, rfl⟩
        rw [hb, ih.mpr hrest]
        rfl

namespace Heap

variable {h : Heap} {v : Value} {vs : List Value} {side : Nat} {sides : List Nat}

/-- A value is accepted as a dimension exactly when it is a side. -/
theorem dimension_eq_ok_iff : h.dimension v = .ok side ↔ v.IsSide side := by
  constructor
  · intro hok
    unfold dimension at hok
    split at hok
    · split at hok
      · cases hok
      · -- The checks are passed in the order of the definition: sign, whole number, size.
        rename_i x hnegative
        split at hok
        · cases hok
        · rename_i n hwhole
          split at hok
          · cases hok
          · rename_i size hsize
            cases hok
            rw [Bool.not_eq_true] at hnegative
            exact ⟨x, n, rfl, hnegative, hwhole, sizeOf?_eq_some_iff.mp hsize⟩
    · cases hok
  · rintro ⟨x, n, rfl, hnegative, hwhole, hsize⟩
    simp only [dimension, hnegative, hwhole, sizeOf?_eq_some_iff.mpr hsize, Bool.false_eq_true,
      if_false]

/-- Values pass as the sides of a block if there are not too many of them, each of them is a
    side, and the block has not too many elements. -/
theorem dimensions_eq_ok_iff : h.dimensions vs = .ok sides ↔
    vs.length ≤ maxDepth ∧ List.Forall₂ Value.IsSide vs sides ∧ blockSlots sides ≤ maxElements := by
  -- The saturated sum is within the limit exactly if the true sum is.
  have hcount : slots sides ≤ maxElements ↔ blockSlots sides ≤ maxElements := by
    rw [slots_eq]
    exact saturate_le_iff (by decide)
  have hsides : vs.mapM h.dimension = .ok sides ↔ List.Forall₂ Value.IsSide vs sides := by
    simp only [mapM_eq_ok_iff, dimension_eq_ok_iff]
  rw [← hcount, ← hsides, ← checkDepth_eq_ok_iff, ← checkSize_eq_ok_iff]
  unfold dimensions
  -- The three checks are made one after another, and all of them have to pass.
  constructor
  · intro hok
    rcases exists_of_bind hok with ⟨_, hdepth, hok⟩
    rcases exists_of_bind hok with ⟨made, hmade, hok⟩
    rcases exists_of_bind hok with ⟨_, hsize, hok⟩
    cases hok
    exact ⟨hdepth, hmade, hsize⟩
  · rintro ⟨hdepth, hmade, hsize⟩
    rw [hdepth, hmade]
    dsimp only [bind, Except.bind]
    rw [hsize]
    rfl

/-- The number of elements of all arrays. -/
def slotCount (h : Heap) : Nat := (h.cells.toList.map fun cell => cell.items.size).sum

theorem slotCount_alloc (h : Heap) (items : Array Value) :
    (h.alloc items).2.slotCount = h.slotCount + items.size := by
  simp [slotCount, alloc]

/-- The elements of a block and of all its rows are made, and no others. -/
theorem slotCount_zeroed : ∀ (sides : List Nat) (h : Heap),
    (zeroed sides h).2.slotCount = h.slotCount + blockSlots sides
  | [], h => slotCount_alloc h _
  | [n], h => by
      rw [zeroed, slotCount_alloc, Array.size_replicate, blockSlots_cons, blockSlots_nil, mul_zero,
        add_zero]
  | n :: s :: sides, h => by
      let addRow := fun (block : Array Value × Heap) =>
        (block.1.push (.array (zeroed (s :: sides) block.2).1), (zeroed (s :: sides) block.2).2)
      -- Every row takes the same number of elements below the array of the rows.
      have hrows : (Nat.repeat addRow n (#[], h)).1.size = n ∧
          (Nat.repeat addRow n (#[], h)).2.slotCount =
            h.slotCount + n * blockSlots (s :: sides) := by
        refine repeat_counts (P := fun k (block : Array Value × Heap) => block.1.size = k ∧
          block.2.slotCount = h.slotCount + k * blockSlots (s :: sides)) ⟨rfl, by simp⟩ ?_ n
        rintro k block ⟨hsize, hcount⟩
        refine ⟨by simp [addRow, hsize], ?_⟩
        change (zeroed (s :: sides) block.2).2.slotCount = _
        rw [slotCount_zeroed (s :: sides) block.2, hcount, Nat.succ_mul, add_assoc]
      have hmade : (zeroed (n :: s :: sides) h).2.slotCount =
          (Nat.repeat addRow n (#[], h)).2.slotCount + (Nat.repeat addRow n (#[], h)).1.size :=
        slotCount_alloc _ _
      rw [hmade, hrows.1, hrows.2, blockSlots_cons n]
      omega

/-- The positions in an array that lead to elements which are no arrays. -/
def leaves (h : Heap) (id : ArrayId) : Set (List Nat) :=
  {positions | ∃ w, h.elementAt id positions = some w ∧ w.isArray = false}

end Heap

/-- The positions of the elements of a block: one below each of its sides. -/
def elementPlaces : List Nat → Finset (List Nat)
  | [] => {[]}
  | n :: sides => (Finset.range n ×ˢ elementPlaces sides).image fun place => place.1 :: place.2

theorem mem_elementPlaces {sides positions : List Nat} :
    positions ∈ elementPlaces sides ↔ Covers sides positions ∧ positions.length = sides.length := by
  induction sides generalizing positions with
  | nil =>
      rw [elementPlaces, Finset.mem_singleton, List.length_nil, List.length_eq_zero_iff]
      constructor
      · rintro rfl
        exact ⟨covers_nil [], rfl⟩
      · exact And.right
  | cons n sides ih =>
      -- A place in a block is a place on its first side and one in a row.
      cases positions with
      | nil => simp [elementPlaces]
      | cons p positions =>
          rw [covers_cons_cons, List.length_cons, List.length_cons, Nat.succ_inj, and_assoc, ← ih]
          simp [elementPlaces]

/-- There are as many positions of elements as the product of the sides. -/
theorem card_elementPlaces (sides : List Nat) : (elementPlaces sides).card = sides.prod := by
  induction sides with
  | nil => rfl
  | cons n sides ih =>
      have hinj : Function.Injective fun place : Nat × List Nat => place.1 :: place.2 := by
        rintro ⟨p, ps⟩ ⟨q, qs⟩ heq
        cases heq
        rfl
      rw [elementPlaces, Finset.card_image_of_injective _ hinj, Finset.card_product,
        Finset.card_range, ih, List.prod_cons]

namespace Heap

variable {h : Heap} {lo : Nat} {sides : List Nat}

/-- The leaves of a block are the positions of its elements. -/
theorem ZerosAt.leaves_eq (hz : h.ZerosAt lo sides) (hsides : sides ≠ []) :
    h.leaves (blockId lo sides) = elementPlaces sides := by
  ext positions
  rw [Finset.mem_coe, mem_elementPlaces]
  constructor
  · rintro ⟨w, hw, hplain⟩
    have hc : Covers sides positions := by
      by_contra hc
      have hnone : h.elementAt (blockId lo sides) positions = none := hz.follow_outside hsides hc
      rw [hnone] at hw
      cases hw
    -- With too few positions there is a row.
    refine ⟨hc, le_antisymm hc.1 (Nat.le_of_not_lt fun hlen => ?_)⟩
    have hrow : h.elementAt (blockId lo sides) positions =
        some (.array (rowAt lo sides positions)) := (hz.follow_row hc hlen).1
    rw [hrow] at hw
    cases hw
    cases hplain
  · rintro ⟨hc, hlen⟩
    exact ⟨.int 0, hz.follow_zero hsides hc hlen, rfl⟩

/-- A block has as many leaves as the product of its sides. -/
theorem encard_leaves_zeroed (hsides : sides ≠ []) (h : Heap) :
    ((zeroed sides h).2.leaves (zeroed sides h).1).encard = sides.prod := by
  have hmade := zeroed_spec sides h
  rw [hmade.id, hmade.zeros.leaves_eq hsides, Set.encard_coe_eq_coe_finsetCard, card_elementPlaces]

end Heap

/-- Values pass as the sides of a block exactly if there are at most 64 of them, each of them is
    a side, and the true number of elements of the arrays of the block is at most 2 ^ 24. Making
    a block leaves the other arrays alone, makes just as many elements as that, and the array
    has as many leaves as the product of the sides. So sides that have passed never take more
    elements than the limit. -/
theorem block_sizes_are_exact (h : Heap) (values : List Value) (sides : List Nat) :
    (h.dimensions values = .ok sides ↔
      values.length ≤ 64 ∧ List.Forall₂ Value.IsSide values sides ∧ blockSlots sides ≤ 2 ^ 24) ∧
    (sides ≠ [] →
      h.Extends (Heap.zeroed sides h).2 ∧
      (Heap.zeroed sides h).2.slotCount = h.slotCount + blockSlots sides ∧
      ((Heap.zeroed sides h).2.leaves (Heap.zeroed sides h).1).encard = sides.prod) ∧
    (h.dimensions values = .ok sides →
      (Heap.zeroed sides h).2.slotCount ≤ h.slotCount + 2 ^ 24) := by
  refine ⟨Heap.dimensions_eq_ok_iff, fun hsides => ?_, fun hok => ?_⟩
  · exact ⟨(Heap.zeroed_spec sides h).grown, Heap.slotCount_zeroed sides h,
      Heap.encard_leaves_zeroed hsides h⟩
  · -- What is made is what was counted, so it is within the limit.
    have hlimit : blockSlots sides ≤ 2 ^ 24 := (Heap.dimensions_eq_ok_iff.mp hok).2.2
    rw [Heap.slotCount_zeroed sides h]
    exact Nat.add_le_add_left hlimit h.slotCount

/-- A block of two rows passes and takes eight elements, six of them leaves. Behind a product
    that is greater than any size a side of zero does not help; in front of it, it does. -/
theorem block_sizes_are_exact_zero_side :
    Heap.empty.dimensions [.int 2, .int 3] = .ok [2, 3] ∧
    (Heap.zeroed [2, 3] .empty).2.slotCount = 8 ∧
    ((Heap.zeroed [2, 3] .empty).2.leaves ⟨2⟩).encard = 6 ∧
    Heap.empty.dimensions [.int 4294967296, .int 4294967296, .int 0] ≠
      .ok [4294967296, 4294967296, 0] ∧
    Heap.empty.dimensions [.int 0, .int 4294967296, .int 4294967296] =
      .ok [0, 4294967296, 4294967296] := by
  have hzero : (Value.int 0).IsSide 0 := ⟨_, 0, rfl, rfl, rfl, rfl⟩
  have htwo : (Value.int 2).IsSide 2 := ⟨_, 2, rfl, rfl, rfl, rfl⟩
  have hthree : (Value.int 3).IsSide 3 := ⟨_, 3, rfl, rfl, rfl, rfl⟩
  have hgreat : (Value.int 4294967296).IsSide 4294967296 := ⟨_, 4294967296, rfl, rfl, rfl, rfl⟩
  rcases block_sizes_are_exact .empty [.int 2, .int 3] [2, 3] with ⟨hcheck, hmade, -⟩
  rcases hmade (by simp) with ⟨-, hcount, hleaves⟩
  have hok := hcheck.mpr ⟨by decide, .cons htwo (.cons hthree .nil), by decide⟩
  refine ⟨hok, hcount, hleaves, fun hpassed => ?_, ?_⟩
  · -- A side of zero behind two large ones comes too late: the prefixes were too large.
    have hlimit := ((block_sizes_are_exact .empty _ _).1.mp hpassed).2.2
    revert hlimit
    decide
  · have hsides : List.Forall₂ Value.IsSide [.int 0, .int 4294967296, .int 4294967296]
        [0, 4294967296, 4294967296] := .cons hzero (.cons hgreat (.cons hgreat .nil))
    exact (block_sizes_are_exact .empty _ _).1.mpr ⟨by decide, hsides, by decide⟩

end TreeScript
