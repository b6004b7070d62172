import Mathlib.Data.Finset.Card
import TreeScript.Proofs.Sharing

/-!
# Agreement of the Comparisons

There are six comparisons, and two ways of looking at arrays behind them: equality asks whether
as many elements are equal, one by one, and the order goes along both arrays until elements
differ or cannot be compared. The two agree on all values, also where numbers are undefined or
the sorts of values are mixed. So there are four possibilities for two values, and each
comparison says of which of them it is true.

Equality and the order are defined with an allowance for how deep they descend. Where arrays
are not found inside themselves, the number of all arrays is allowance enough, whatever order
they were made in: the arrays that are reached become fewer with each step into an element. So
there the allowance does not show, and both do what they say on arrays without it.

The rank is counted and not read from the recorded depths. A recorded depth is right only
on a heap that a program has made, and a measure that falls with every step into an
element is there on any heap that is not circular. Which arrays are reached cannot be
decided by evaluation, so the rank is a number that proofs speak of and that nothing
computes.

The equations of the source on arrays follow: an array is compared by its elements, with
the comparison itself for those. `Heap.compare_arrays` and `Heap.eq_arrays` are these
equations, and the laws of all six comparisons are then cases on four possibilities.

## Main definitions

* `Heap.Acyclic`: No array is found inside itself.
* `Heap.rank`: The number of arrays that are reached from a value.

## Theorems

* `Heap.rank_lt`: Fewer arrays are reached from an element than from the array.
* `Heap.compareWithin_of_rank_le`: An allowance of that number is enough.
* `Heap.compare_arrays`, `Heap.eq_arrays`: Order and equality of arrays, without allowances.
* `comparisons_agree`: What the six comparisons say of two values fits together.
* `Heap.rank_le`, `Heap.rank_pos`: How many arrays can be reached.
* `Reached.acyclic`: The arrays of a history are not circular.
* `Heap.holds_notEqual_iff`, `Heap.holds_greater_iff`, `Heap.holds_greaterEqual_iff`: Three of the
  comparisons by the possibilities.
-/

namespace TreeScript

namespace Heap

variable {h : Heap} {n n' : Nat} {a b v : Value} {i j id : ArrayId}

/-- All elements have storage, and no array is found inside itself. -/
structure Acyclic (h : Heap) : Prop where
  stored : ∀ id, ∀ v ∈ h.items id, h.Stored v
  apart : ∀ id, ∀ v ∈ h.items id, ¬ h.Reaches v id

/-- The arrays of a program are not found inside themselves. -/
theorem Layered.is_acyclic (hl : h.Layered) : h.Acyclic :=
  ⟨fun _ _ hv => hl.stored hv, fun _ _ hv => hl.acyclic hv⟩

open Classical in
/-- The arrays with storage that are reached from a value. -/
noncomputable def reached (h : Heap) (v : Value) : Finset Nat :=
  (Finset.range h.cells.size).filter fun k => h.Reaches v ⟨k⟩

theorem mem_reached {k : Nat} : k ∈ h.reached v ↔ k < h.cells.size ∧ h.Reaches v ⟨k⟩ := by
  simp only [reached, Finset.mem_filter, Finset.mem_range]

/-- The number of arrays that are reached from a value. -/
noncomputable def rank (h : Heap) (v : Value) : Nat := (h.reached v).card

theorem rank_le (h : Heap) (v : Value) : h.rank v ≤ h.cells.size := by
  have hsubset : h.reached v ⊆ Finset.range h.cells.size := fun k hk =>
    Finset.mem_range.mpr (mem_reached.mp hk).1
  have hcard := Finset.card_le_card hsubset
  rwa [Finset.card_range] at hcard

/-- An array is reached from itself. -/
theorem rank_pos (hi : h.Stored (.array i)) : 0 < h.rank (.array i) :=
  Finset.card_pos.mpr ⟨i.index, mem_reached.mpr ⟨hi i rfl, .self rfl⟩⟩

/-- What is reached from an element is reached from the array, and so is the array itself. -/
theorem rank_lt (hc : h.Acyclic) (hv : v ∈ h.items id) : h.rank v < h.rank (.array id) := by
  have hsubset : h.reached v ⊆ h.reached (.array id) := by
    intro k hk
    rcases mem_reached.mp hk with ⟨hstored, hr⟩
    exact mem_reached.mpr ⟨hstored, reaches_of_element hv hr⟩
  have hself : id.index ∈ h.reached (.array id) :=
    mem_reached.mpr ⟨lt_of_mem_items hv, .self rfl⟩
  have hapart : id.index ∉ h.reached v := fun hmem => hc.apart id v hv (mem_reached.mp hmem).2
  exact Finset.card_lt_card ((Finset.ssubset_iff_of_subset hsubset).mpr ⟨_, hself, hapart⟩)

/-- It makes no difference how far an allowance is above the number of arrays that are reached
    on one side. -/
theorem compareWithin_of_rank_le (hc : h.Acyclic) (ha : h.Stored a) (hn : h.rank a ≤ n)
    (hn' : h.rank a ≤ n') : h.compareWithin n a b = h.compareWithin n' a b := by
  induction n generalizing a b n' with
  | zero =>
      cases a with
      | array i => exact absurd hn (Nat.not_le_of_lt (rank_pos ha))
      | _ => exact compareWithin_of_plain (.inl rfl) h h 0 n'
  | succ n ih =>
      cases a with
      | array i =>
          cases b with
          | array j =>
              by_cases hij : i = j
              · rw [hij, compareWithin_self_array, compareWithin_self_array]
              · -- There is something left for the elements on both sides.
                have hpos := rank_pos ha
                obtain ⟨m, rfl⟩ : ∃ m, n' = m + 1 := ⟨n' - 1, by omega⟩
                rw [compareWithin_array hij, compareWithin_array hij]
                refine lexicographic_congr_order fun p hp => ?_
                have hmem : p.1 ∈ h.items i := Array.mem_toList_iff.mp (List.of_mem_zip hp).1
                have hlt := rank_lt hc hmem
                exact ih (hc.stored i p.1 hmem) (by omega) (by omega)
          | _ => exact compareWithin_of_plain (.inr rfl) h h (n + 1) n'
      | _ => exact compareWithin_of_plain (.inl rfl) h h (n + 1) n'

/-- Arrays that are not one array have the order of their elements. -/
theorem compare_arrays (hc : h.Acyclic) (hi : h.Stored (.array i)) (j : ArrayId) :
    h.compare (.array i) (.array j) = if i = j then some .eq
      else lexicographic h.compare (h.items i).toList (h.items j).toList := by
  by_cases hij : i = j
  · rw [if_pos hij, hij]
    exact compareWithin_self_array _ j
  · -- The depth of the comparison is enough for the elements, too, since they have a smaller
    -- rank.
    have hle := h.rank_le (.array i)
    rw [if_neg hij, compare, compareWithin_of_rank_le hc hi hle (Nat.le_succ_of_le hle),
      compareWithin_array hij]
    rfl

/-- They are equal if there are as many elements and these are equal. -/
theorem eq_arrays (hc : h.Acyclic) (hi : h.Stored (.array i)) (j : ArrayId) :
    h.eq (.array i) (.array j) = (i == j || (h.items i).isEqv (h.items j) h.eq) := by
  have helements : (h.items i).toList.isEqv (h.items j).toList h.eq = true ↔
      lexicographic h.compare (h.items i).toList (h.items j).toList = some .eq :=
    isEqv_iff _ _ fun a _ b _ => eqWithin_iff h h.cells.size a b
  have heq : h.eq (.array i) (.array j) = true ↔ h.compare (.array i) (.array j) = some .eq :=
    eqWithin_iff h _ _ _
  rw [Bool.eq_iff_iff, heq, compare_arrays hc hi, Bool.or_eq_true, beq_iff_eq,
    ← Array.isEqv_toList, helements]
  by_cases hij : i = j <;> simp [hij]

/-- The test for being different is the negation of equality, also on values without an order. -/
theorem holds_notEqual_iff : h.holds .notEqual a b = true ↔ ¬ h.compare a b = some .eq := by
  rw [← holds_equal_iff, Bool.not_eq_true, ← Bool.not_eq_true']
  rfl

theorem holds_greater_iff : h.holds .greater a b = true ↔ h.compare a b = some .gt := beq_iff_eq

/-- Being greater or equal needs an order: it is not the negation of being less. -/
theorem holds_greaterEqual_iff :
    h.holds .greaterEqual a b = true ↔ ∃ p, h.compare a b = some p ∧ p.isGE = true := by
  show (h.compare a b).any Ordering.isGE = true ↔ _
  rw [Option.any_eq_true]

/-- A comparison answers one of the two integers 0 and 1. -/
theorem comparison_eq_zero_iff {op : CompareOp} :
    h.comparison op a b = .int 0 ↔ ¬ h.comparison op a b = .int 1 := by
  rw [comparison_eq_one_iff]
  unfold comparison Value.ofBool
  cases h.holds op a b <;> simp [Value.int]

end Heap

/-- The arrays of a program are not found inside themselves. -/
theorem Reached.acyclic {m : Machine} {yielded : List Value} (hm : Reached m yielded) :
    m.heap.Acyclic := by
  have hstart : ∀ input limit, nestingInvariant.Holds (.start input limit) :=
    fun _ _ => ⟨Heap.layered_empty, fun _ _ hv => by cases hv⟩
  exact (Invariant.holds_of_reached hstart hm).1.arrays.is_acyclic

/-- Each comparison of two values is true or false, that is 1 or 0. Equality is true if the order
    says that the values are equal, so it is true if both orders with equality are; the opposite
    comparison is true if it is not. At most one of the strict orders and equality is true, and
    an order with equality is true if the strict one or equality is. With the values exchanged
    the order is reversed, or there is none on both sides. Where no array is found inside itself,
    arrays are ordered by their elements from first to last, and equal if these are, unless they
    are one array. That is so of all arrays of a program. -/
theorem comparisons_agree (h : Heap) :
    (∀ a b,
      (∀ op, h.comparison op a b = .int 1 ∨ h.comparison op a b = .int 0) ∧
      (h.comparison .equal a b = .int 1 ↔ h.compare a b = some .eq) ∧
      (h.comparison .equal a b = .int 1 ↔
        h.comparison .lessEqual a b = .int 1 ∧ h.comparison .greaterEqual a b = .int 1) ∧
      (h.comparison .notEqual a b = .int 1 ↔ h.comparison .equal a b = .int 0) ∧
      ¬(h.comparison .less a b = .int 1 ∧ h.comparison .equal a b = .int 1) ∧
      ¬(h.comparison .less a b = .int 1 ∧ h.comparison .greater a b = .int 1) ∧
      ¬(h.comparison .equal a b = .int 1 ∧ h.comparison .greater a b = .int 1) ∧
      (h.comparison .lessEqual a b = .int 1 ↔
        h.comparison .less a b = .int 1 ∨ h.comparison .equal a b = .int 1) ∧
      (h.comparison .greaterEqual a b = .int 1 ↔
        h.comparison .greater a b = .int 1 ∨ h.comparison .equal a b = .int 1) ∧
      h.compare b a = (h.compare a b).map Ordering.swap ∧
      (h.comparison .less a b = .int 1 ↔ h.comparison .greater b a = .int 1) ∧
      (h.comparison .equal a b = .int 1 ↔ h.comparison .equal b a = .int 1)) ∧
    (∀ i j, h.Acyclic → h.Stored (.array i) →
      (h.compare (.array i) (.array j) = if i = j then some .eq
        else lexicographic h.compare (h.items i).toList (h.items j).toList) ∧
      h.eq (.array i) (.array j) = (i == j || (h.items i).isEqv (h.items j) h.eq)) ∧
    ∀ m yielded, Reached m yielded → m.heap.Acyclic := by
  refine ⟨fun a b => ?_, fun i j hc hi => ⟨Heap.compare_arrays hc hi j, Heap.eq_arrays hc hi j⟩,
    fun m yielded hm => hm.acyclic⟩
  have hswap : h.compare b a = (h.compare a b).map Ordering.swap := h.compareWithin_swap _ a b
  simp only [Heap.comparison_eq_zero_iff, Heap.comparison_eq_one_iff, Heap.holds_equal_iff,
    Heap.holds_notEqual_iff, Heap.holds_less_iff, Heap.holds_lessEqual_iff,
    Heap.holds_greater_iff, Heap.holds_greaterEqual_iff, hswap]
  -- All of this depends on the order alone, for which there are four possibilities.
  generalize h.compare a b = p
  refine ⟨fun op => Classical.em _, ?_⟩
  rcases p with _ | _ | _ | _ <;> simp

/-- Two lists that hold one list, which was made after them and is not equal to any copy. -/
def youngerHeap : Heap :=
  ⟨#[⟨2, #[.array ⟨2⟩, .int 3]⟩, ⟨2, #[.array ⟨2⟩, .int 4]⟩, ⟨1, #[.float (0.0 / 0.0)]⟩]⟩

/-- The laws at lists that hold a younger list, and the list of rows that a tree makes. -/
theorem comparisons_agree_younger :
    youngerHeap.Acyclic ∧ youngerHeap.Stored (.array ⟨0⟩) ∧
    youngerHeap.compare (.array ⟨0⟩) (.array ⟨1⟩) = some .lt ∧
    youngerHeap.eq (.array ⟨0⟩) (.array ⟨1⟩) = false ∧
    ∃ m, evaluate ⟨8, 8⟩ assignRows (.start [] none) = .ok (.array ⟨1⟩) m ∧ m.heap.Acyclic := by
  have helements : ∀ k < 3, ∀ v ∈ youngerHeap.items ⟨k⟩, v.isArray = true →
      v = .array ⟨2⟩ ∧ k < 2 := by decide +kernel
  have hinner : ∀ id, ∀ v ∈ youngerHeap.items id, v.isArray = true →
      v = .array ⟨2⟩ ∧ id.index < 2 :=
    fun id v hv => helements id.index (Heap.lt_of_mem_items hv) v hv
  have hacyclic : youngerHeap.Acyclic := by
    refine ⟨fun id v hv inner he => ?_, fun id v hv hr => ?_⟩
    · subst he
      cases (hinner id _ hv rfl).1
      decide
    · -- What is reached from an element is the list that holds no lists.
      rcases hinner id v hv hr.isArray with ⟨rfl, hlt⟩
      rcases Heap.reaches_cases hr with rfl | ⟨w, hw, hr⟩
      · exact absurd hlt (by decide)
      · exact absurd (hinner _ w hw hr.isArray).2 (by decide)
  have hstored : youngerHeap.Stored (.array ⟨0⟩) := by
    rintro id ⟨⟩
    decide
  rcases comparisons_agree youngerHeap with ⟨-, harrays, hprogram⟩
  rcases harrays ⟨0⟩ ⟨1⟩ hacyclic hstored with ⟨hcompare, heq⟩
  have hrun : evaluate ⟨8, 8⟩ assignRows (.start [] none) = .ok (.array ⟨1⟩)
      ⟨⟨[("rows", .array ⟨1⟩)]⟩, ⟨#[⟨1, #[.int 1]⟩, ⟨2, #[.array ⟨0⟩]⟩]⟩, [], .empty none, 0⟩ :=
    rfl
  refine ⟨hacyclic, hstored, hcompare.trans ?_, heq.trans ?_, _, hrun, ?_⟩
  · decide +kernel
  · decide +kernel
  · exact hprogram _ _ (.yields (.start [] none) hrun)

end TreeScript
