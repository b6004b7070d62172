import TreeScript.Proofs.Sizes

/-!
# Joining and Repeating

A sum of two sequences of a kind is the one behind the other, and a product with an integer is
the sequence as many times over. How large the result would be is counted before it is made,
and counted up to the greatest size only. Still the limit is applied to the true size of the
result, and where that is too large, the fault names it.

An array is repeated by appending it until the counted size is reached. Each time there are
whole copies, so the size that is reached in the end is the counted one and not a larger one.
An array without elements is never appended at all, however often it is to be repeated.

Repeating is a loop that appends until there is enough, and there is a reason to look at
it as one: were the size that is counted not a multiple of the size of the array, the loop
would go past it. `fill_eq` is by induction on the copies that are still missing, and the
loop ends because each round fills in at least one element.

The cases of the operands are collected in `MakesSequence`, with the result that is meant
for each of them. That every other pair is a mismatch is then one statement.

## Main definitions

* `copies`: A list a number of times over.
* `Produced.size`, `limited`: The size of a result, and the result if it is not too large.
* `MakesSequence`: The operands of which a sequence is made.
* `Heap.elements?`: The elements of a sequence.

## Theorems

* `fill_eq`, `toList_repeatItems`, `repeatText_eq`: Repeating makes copies.
* `joinTexts_eq`, `joinItems_eq`, `timesText_eq`, `timesItems_eq`: The size that is counted
  is that of the result.
* `Heap.elements?_of_sum`, `Heap.elements?_of_product`: The elements of sums and products.
* `sequences_are_built_exactly`: What becomes of two operands one of which is no number.
* `utf8ByteSize_ofList_copies`: The size of a text that is repeated.
* `limited_eq_ok_iff`, `checkSize_saturate`: The limit is applied to the true size.
* `Heap.settle_fresh`: A new array is stored behind the others.
-/

namespace TreeScript

/-- A list a number of times over. -/
def copies {α : Type} (n : Nat) (xs : List α) : List α := (List.replicate n xs).flatten

section copies

variable {α β : Type} (n : Nat) (xs : List α)

@[simp]
theorem copies_zero : copies 0 xs = [] := rfl

theorem copies_succ : copies (n + 1) xs = xs ++ copies n xs := by
  simp [copies, List.replicate_succ]

theorem copies_succ' : copies (n + 1) xs = copies n xs ++ xs := by
  simp [copies, List.replicate_succ']

@[simp]
theorem copies_nil : copies n ([] : List α) = [] := by
  simp [copies]

@[simp]
theorem length_copies : (copies n xs).length = n * xs.length := by
  simp [copies]

theorem map_copies (f : α → β) : (copies n xs).map f = copies n (xs.map f) := by
  simp [copies, List.map_flatten]

end copies

/-- Whole copies are filled up to the number of copies that are as large as asked for. -/
theorem fill_eq {items filled : Array Value} {n k : Nat}
    {more : 0 < items.size * n → 0 < items.size} (hk : k ≤ n)
    (hfilled : filled.toList = copies k items.toList) :
    (fill items (items.size * n) more filled).toList = copies n items.toList := by
  -- The induction is on the number of copies that are missing.
  induction hm : n - k generalizing k filled with
  | zero =>
      have hkn : k = n := by omega
      subst hkn
      have hfull : ¬ filled.size < items.size * k := by
        rw [← Array.length_toList, hfilled, length_copies, Array.length_toList, Nat.mul_comm]
        exact Nat.lt_irrefl _
      rw [fill, if_neg hfull, hfilled]
  | succ m ih =>
      have hsize : filled.size = items.size * k := by
        rw [← Array.length_toList, hfilled, length_copies, Array.length_toList, Nat.mul_comm]
      rcases Nat.eq_zero_or_pos items.size with hzero | hpos
      · -- Nothing is asked for, and all numbers of copies are alike.
        have hempty : items.toList = [] := by
          rw [← List.length_eq_zero_iff, Array.length_toList, hzero]
        have hfull : ¬ filled.size < items.size * n := by simp [hzero]
        rw [fill, if_neg hfull, hfilled, hempty, copies_nil, copies_nil]
      · have hless : filled.size < items.size * n := by
          rw [hsize]
          exact Nat.mul_lt_mul_of_pos_left (by omega) hpos
        rw [fill, if_pos hless]
        refine ih (k := k + 1) (by omega) ?_ (by omega)
        rw [Array.toList_append, hfilled, copies_succ']

/-- The items are repeated as often as they should be. -/
theorem toList_repeatItems (items : Array Value) (n : Nat) :
    (repeatItems items n).toList = copies n items.toList :=
  fill_eq (Nat.zero_le n) rfl

/-- A text is repeated character by character, without loss of the encoding. -/
theorem repeatText_eq (s : String) (n : Nat) :
    repeatText s n = String.ofList (copies n s.toList) := by
  have hrepeat : ∀ k, Nat.repeat (· ++ s) k "" = String.ofList (copies k s.toList) := by
    intro k
    induction k with
    | zero => rfl
    | succ k ih =>
        rw [Nat.repeat, ih, copies_succ', String.ofList_append, String.ofList_toList]
  unfold repeatText
  -- The empty text is not repeated, which makes no difference.
  by_cases hempty : s.isEmpty = true
  · rw [if_pos hempty, String.isEmpty_iff.mp hempty]
    simp
  · rw [if_neg hempty, hrepeat]

/-- The requested size of a repeated text is counted in bytes. -/
theorem utf8ByteSize_ofList_copies (s : String) (n : Nat) :
    (String.ofList (copies n s.toList)).utf8ByteSize = s.utf8ByteSize * n := by
  induction n with
  | zero => simp
  | succ n ih =>
      rw [copies_succ, String.ofList_append, String.utf8ByteSize_append, ih, String.ofList_toList,
        Nat.mul_succ, Nat.add_comm]

/-- The size of what an operator produces: the bytes of a text, or the elements of an array. -/
def Produced.size : Produced → Nat
  | .value (.text s) => s.utf8ByteSize
  | .value _ => 0
  | .fresh items => items.size

/-- What is produced if its size is at most the limit, and else the fault that it is too large.
    The fault names the size, or the greatest size there is. -/
def limited (made : Produced) : Except Fault Produced :=
  if made.size ≤ 2 ^ 24 then .ok made else .error (.tooLarge (min made.size (2 ^ 64 - 1)) (2 ^ 24))

/-- The bound on sequences is a bound on the size of what was made. -/
theorem limited_eq_ok_iff {made p : Produced} :
    limited made = .ok p ↔ made.size ≤ 2 ^ 24 ∧ p = made := by
  unfold limited
  by_cases hsize : made.size ≤ 2 ^ 24
  · rw [if_pos hsize, Except.ok.injEq]
    exact ⟨fun heq => ⟨hsize, heq.symm⟩, fun hok => hok.2.symm⟩
  · rw [if_neg hsize]
    exact iff_of_false nofun fun hok => hsize hok.1

/-- To check the size that is counted up to the greatest one is to check the true size. -/
theorem checkSize_saturate {n : Nat} {made : Produced} (hn : made.size = n) :
    (checkSize (saturate n) >>= fun _ => pure made) = limited made := by
  have hlimit : saturate n ≤ maxElements ↔ made.size ≤ 2 ^ 24 := by
    rw [hn]
    exact saturate_le_iff (by decide)
  unfold checkSize limited
  -- The saturated size fails the check exactly when the true one does.
  by_cases hsize : made.size ≤ 2 ^ 24
  · rw [if_pos hsize, if_pos (hlimit.mpr hsize)]
    rfl
  · rw [if_neg hsize, if_neg (mt hlimit.mp hsize), hn]
    rfl

theorem joinTexts_eq (a b : String) : joinTexts a b = limited (.value (.text (a ++ b))) :=
  checkSize_saturate String.utf8ByteSize_append

theorem joinItems_eq (a b : Array Value) : joinItems a b = limited (.fresh (a ++ b)) :=
  checkSize_saturate Array.size_append

theorem timesText_eq (s : String) (k : Int64) :
    timesText s k = limited (.value (.text (String.ofList (copies k.toInt.toNat s.toList)))) := by
  have hsize : (Produced.value (.text (String.ofList (copies k.toInt.toNat s.toList)))).size =
      s.utf8ByteSize * k.toInt.toNat := utf8ByteSize_ofList_copies s _
  rw [← checkSize_saturate hsize, ← repeatText_eq]
  rfl

theorem timesItems_eq (items : Array Value) (k : Int64) :
    timesItems items k = limited (.fresh (copies k.toInt.toNat items.toList).toArray) := by
  have hsize : (Produced.fresh (copies k.toInt.toNat items.toList).toArray).size =
      items.size * k.toInt.toNat := by
    simp [Produced.size, Nat.mul_comm]
  rw [← checkSize_saturate hsize, ← toList_repeatItems, Array.toArray_toList]
  rfl

/-- The operators and operands of which a sequence is made: two of a kind that are joined, or
    one that is repeated, with the count on either side. -/
inductive MakesSequence : ArithOp → Value → Value → Prop where
  | joinTexts (a b : String) : MakesSequence .add (.text a) (.text b)
  | joinArrays (a b : ArrayId) : MakesSequence .add (.array a) (.array b)
  | textTimes (s : String) (k : Int64) : MakesSequence .mul (.text s) (.number (.int k))
  | timesText (k : Int64) (s : String) : MakesSequence .mul (.number (.int k)) (.text s)
  | arrayTimes (a : ArrayId) (k : Int64) : MakesSequence .mul (.array a) (.number (.int k))
  | timesArray (k : Int64) (a : ArrayId) : MakesSequence .mul (.number (.int k)) (.array a)

namespace Heap

variable {h : Heap} {a b left right : Value} {xs ys : List Value} {p : Produced} {op : ArithOp}

/-- The elements of a sequence: those of an array, or the characters of a text. -/
def elements? (h : Heap) : Value → Option (List Value)
  | .array id => some (h.items id).toList
  | .text s => some (s.toList.map fun c => .text (String.singleton c))
  | _ => none

/-- All other operands are of the wrong type. -/
theorem sequence_eq_mismatch (hop : ¬ MakesSequence op left right) :
    h.sequence op left right = .error (.mismatch (.arith op) left.type right.type) := by
  unfold sequence
  split
  · exact absurd (.joinTexts _ _) hop
  · exact absurd (.joinArrays _ _) hop
  · exact absurd (.textTimes _ _) hop
  · exact absurd (.timesText _ _) hop
  · exact absurd (.arrayTimes _ _) hop
  · exact absurd (.timesArray _ _) hop
  · rfl

/-- A pair that is not two numbers is treated as sequences. -/
theorem arith_eq_sequence (hnumbers : ¬ ∃ x y, left = .number x ∧ right = .number y) :
    h.arith op left right = h.sequence op left right := by
  unfold arith
  split
  · rename_i x y
    exact absurd ⟨x, y, rfl, rfl⟩ hnumbers
  · rfl

/-- New storage holds the elements that it is made for, and leaves all others alone. -/
theorem settle_fresh (h : Heap) (items : Array Value) : ∃ id h', h.settle (.fresh items) =
    (.array id, h') ∧ h.cells.size ≤ id.index ∧ h'.items id = items ∧ h.Extends h' :=
  ⟨_, _, rfl, Nat.le_refl _, items_alloc_self h items, extends_alloc h items⟩

theorem elements?_settle_fresh (h : Heap) (items : Array Value) :
    (h.settle (.fresh items)).2.elements? (h.settle (.fresh items)).1 = some items.toList := by
  show some ((h.alloc items).2.items (h.alloc items).1).toList = _
  rw [items_alloc_self]

/-- A sum has the elements of its operands. -/
theorem elements?_of_sum (ha : h.elements? a = some xs) (hb : h.elements? b = some ys)
    (hp : h.binary (.arith .add) a b = .ok p) :
    (h.settle p).2.elements? (h.settle p).1 = some (xs ++ ys) := by
  -- Two texts or two arrays have a sum. Any other pair has no elements or no sum.
  cases a with
  | text s =>
      cases b with
      | text t =>
          have hjoined : joinTexts s t = .ok p := hp
          rw [joinTexts_eq, limited_eq_ok_iff] at hjoined
          rw [hjoined.2]
          cases ha
          cases hb
          simp [settle, elements?]
      | array _ => cases hp
      | _ => cases hb
  | array i =>
      cases b with
      | text _ => cases hp
      | array j =>
          have hjoined : joinItems (h.items i) (h.items j) = .ok p := hp
          rw [joinItems_eq, limited_eq_ok_iff] at hjoined
          rw [hjoined.2, elements?_settle_fresh]
          cases ha
          cases hb
          rw [Array.toList_append]
      | _ => cases hb
  | _ => cases ha

/-- A product has the elements of the sequence as many times over. -/
theorem elements?_of_product {k : Int64} (ha : h.elements? a = some xs)
    (hp : h.binary (.arith .mul) a (.int k) = .ok p ∨ h.binary (.arith .mul) (.int k) a = .ok p) :
    (h.settle p).2.elements? (h.settle p).1 = some (copies k.toInt.toNat xs) := by
  -- The order of the operands does not matter, so both ways are one case.
  cases a with
  | text s =>
      have htimes : timesText s k = .ok p := hp.elim id id
      rw [timesText_eq, limited_eq_ok_iff] at htimes
      rw [htimes.2]
      cases ha
      simp [settle, elements?, map_copies]
  | array i =>
      have htimes : timesItems (h.items i) k = .ok p := hp.elim id id
      rw [timesItems_eq, limited_eq_ok_iff] at htimes
      rw [htimes.2, elements?_settle_fresh]
      cases ha
      rfl
  | _ => cases ha

end Heap

/-- A sum of two texts or of two arrays is the one behind the other, and a product of a text or
    an array with an integer, on either side, is the elements as many times over as the integer
    says, or not at all if it is negative. That is so if the true size of the result is at most
    2 ^ 24; otherwise the fault names this size, or the greatest size. An array that is made has
    new storage, and no other array is changed. All other operands, unless they are two numbers,
    are of the wrong type. -/
theorem sequences_are_built_exactly (h : Heap) :
    (∀ a b, h.binary (.arith .add) (.text a) (.text b) = limited (.value (.text (a ++ b)))) ∧
    (∀ a b, h.binary (.arith .add) (.array a) (.array b) =
      limited (.fresh (h.items a ++ h.items b))) ∧
    (∀ s k, h.binary (.arith .mul) (.text s) (.int k) =
        limited (.value (.text (String.ofList (copies k.toInt.toNat s.toList)))) ∧
      h.binary (.arith .mul) (.int k) (.text s) = h.binary (.arith .mul) (.text s) (.int k)) ∧
    (∀ a k, h.binary (.arith .mul) (.array a) (.int k) =
        limited (.fresh (copies k.toInt.toNat (h.items a).toList).toArray) ∧
      h.binary (.arith .mul) (.int k) (.array a) = h.binary (.arith .mul) (.array a) (.int k)) ∧
    (∀ items n, (repeatItems items n).toList = copies n items.toList) ∧
    (∀ items, ∃ id h', h.settle (.fresh items) = (.array id, h') ∧ h.cells.size ≤ id.index ∧
      h'.items id = items ∧ h.Extends h') ∧
    ∀ op left right, (¬ ∃ x y, left = .number x ∧ right = .number y) →
      ¬ MakesSequence op left right →
      h.binary (.arith op) left right = .error (.mismatch (.arith op) left.type right.type) := by
  refine ⟨joinTexts_eq, fun a b => joinItems_eq _ _, fun s k => ⟨timesText_eq s k, rfl⟩,
    fun a k => ⟨timesItems_eq _ k, rfl⟩, toList_repeatItems, h.settle_fresh,
    fun op left right hnumbers hop => ?_⟩
  exact (Heap.arith_eq_sequence hnumbers).trans (Heap.sequence_eq_mismatch hop)

/-- Two lists that hold one list are joined and repeated, and the new lists hold it as well. The
    greatest count is not too much for a list without elements, but for any other. -/
def nestedHeap : Heap := ⟨#[⟨1, #[.int 1]⟩, ⟨2, #[.array ⟨0⟩, .int 2]⟩, ⟨1, #[]⟩]⟩

/-- A list with an inner list, added to itself and multiplied: the inner array is shared and not
    copied. -/
theorem sequences_are_built_exactly_nested :
    nestedHeap.binary (.arith .add) (.array ⟨1⟩) (.array ⟨1⟩) =
      .ok (.fresh #[.array ⟨0⟩, .int 2, .array ⟨0⟩, .int 2]) ∧
    nestedHeap.binary (.arith .mul) (.int 2) (.array ⟨1⟩) =
      .ok (.fresh #[.array ⟨0⟩, .int 2, .array ⟨0⟩, .int 2]) ∧
    nestedHeap.binary (.arith .mul) (.array ⟨2⟩) (.int Int64.maxValue) = .ok (.fresh #[]) ∧
    nestedHeap.binary (.arith .mul) (.array ⟨1⟩) (.int Int64.maxValue) =
      .error (.tooLarge (2 ^ 64 - 2) (2 ^ 24)) ∧
    nestedHeap.binary (.arith .mul) (.text "ab") (.int (-3)) = .ok (.value (.text "")) ∧
    (¬ ∃ x y, Value.array ⟨1⟩ = .number x ∧ Value.int 1 = .number y) ∧
    ¬ MakesSequence .sub (.array ⟨1⟩) (.int 1) ∧
    nestedHeap.binary (.arith .sub) (.array ⟨1⟩) (.int 1) =
      .error (.mismatch (.arith .sub) .array .int) := by
  have hnumbers : ¬ ∃ x y, Value.array ⟨1⟩ = .number x ∧ Value.int 1 = .number y := by simp
  have hmakes : ¬ MakesSequence .sub (.array ⟨1⟩) (.int 1) := nofun
  -- The pair in the end is one that makes no sequence.
  rcases sequences_are_built_exactly nestedHeap with ⟨-, -, -, -, -, -, hother⟩
  exact ⟨by decide +kernel, by decide +kernel, by decide +kernel, by decide +kernel,
    by decide +kernel, hnumbers, hmakes, hother _ _ _ hnumbers hmakes⟩

end TreeScript
