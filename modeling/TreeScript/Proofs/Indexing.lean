import TreeScript.Proofs.ArrayNesting
import TreeScript.Proofs.Discipline
import TreeScript.Proofs.Joining

/-!
# Indices Into Sequences

An index counts the elements of a sequence from the front, or from the end if it is negative.
Both ways of counting are one way of counting in the list of the elements: an index that is
negative stands for the one that is greater by the length, and whether there is such an element
is looked at then. The length is added as an integer of 64 bits, which goes well as long as the
length is one itself: the sum lies between the index and zero, or between zero and the length.
So an index far below zero never names an element at the front.

Where a sequence is made of others, its elements are named by indices of the others: from the
front those of the first part come first, from the end those of the second one, and in copies
an index counts on as if there were one copy only.

Everything about indices is said of lists first, where an index is any integer and nothing
can overflow. `position?_eq` relates that to the words that are computed with, and
`Heap.index_of_whole` relates the elements of a text or of an array to a list. The laws of
sums and products are laws of lists then, and the limit on the size of a sequence is used
for one thing only, that its length is a word.

## Main definitions

* `picked`: The element of a list that an index names.

## Theorems

* `picked_natCast`, `picked_sub_length`: Counting from the front and from the end.
* `picked_eq_none_iff`: Which indices name an element.
* `picked_append`, `picked_copies`: Indices of lists that are made of others.
* `position?_eq`: The position that an index stands for is not out of range.
* `Heap.index_of_whole`: An index of a sequence names an element of the list of its elements.
* `indexing_follows_building`: Indices of sums and of products.
* `getElem?_copies`: The elements of copies, counted on.
* `Heap.length_le_limit`: The length of what has been made is a word.
* `Heap.index_of_outside`: An index that names no element is out of range.
* `Heap.index_of_sum`, `Heap.index_of_product`: Indices of what an operator has made.
-/

namespace TreeScript

open Heap (position?)

/-- The element of a list that an index names. A negative index counts from the end. -/
def picked {α : Type} (vs : List α) (i : Int) : Option α :=
  (if i < 0 then i + vs.length else i).toNat?.bind (vs[·]?)

section lists

variable {α : Type} {vs xs ys : List α} {i : Int}

theorem picked_natCast (vs : List α) (p : Nat) : picked vs p = vs[p]? := by
  rw [picked, if_neg (by omega)]
  rfl

theorem picked_sub_length {p : Nat} (hp : p < vs.length) : picked vs (p - vs.length) = vs[p]? := by
  rw [picked, if_pos (by omega), Int.sub_add_cancel]
  rfl

/-- An index names an element if it is within the length on its side. -/
theorem picked_eq_none_iff : picked vs i = none ↔ ¬(-(vs.length : Int) ≤ i ∧ i < vs.length) := by
  by_cases hi : 0 ≤ i
  · lift i to Nat using hi
    rw [picked_natCast, List.getElem?_eq_none_iff]
    omega
  · by_cases hlow : -(vs.length : Int) ≤ i
    · -- The index stands for a place that is there.
      obtain ⟨p, hp⟩ := Int.eq_ofNat_of_zero_le (a := i + vs.length) (by omega)
      have hi' : i = p - vs.length := by omega
      rw [hi', picked_sub_length (by omega), List.getElem?_eq_none_iff]
      omega
    · have hnegative : i < 0 := by omega
      have hnone : (i + vs.length).toNat? = none := by
        refine Option.eq_none_iff_forall_not_mem.mpr fun p hp => ?_
        have heq := Int.mem_toNat?.mp hp
        omega
      simp [picked, hnegative, hnone, hlow]

/-- Behind one another, lists are indexed from the front by the first one, and from the end by
    the second. -/
theorem picked_append (xs ys : List α) (i : Int) : picked (xs ++ ys) i =
    if 0 ≤ i ∧ i < xs.length then picked xs i
    else if xs.length ≤ i ∧ i < xs.length + ys.length then picked ys (i - xs.length)
    else if -(ys.length : Int) ≤ i ∧ i < 0 then picked ys i
    else if -((xs.length : Int) + ys.length) ≤ i ∧ i < -(ys.length : Int) then
      picked xs (i + ys.length)
    else none := by
  -- The five cases are those of the statement, from the front and from the back of either list.
  split_ifs with hfirst hsecond hsecond' hfirst'
  · lift i to Nat using hfirst.1
    rw [picked_natCast, picked_natCast, List.getElem?_append_left (by omega)]
  · obtain ⟨q, hq⟩ := Int.eq_ofNat_of_zero_le (a := i - xs.length) (by omega)
    have hi : i = (xs.length + q : Nat) := by omega
    rw [hq, hi, picked_natCast, picked_natCast,
      List.getElem?_append_right (by omega), Nat.add_sub_cancel_left]
  · obtain ⟨q, hq⟩ := Int.eq_ofNat_of_zero_le (a := i + ys.length) (by omega)
    have hi : i = q - ys.length := by omega
    have hi' : i = (xs.length + q : Nat) - (xs ++ ys).length := by
      rw [List.length_append]
      omega
    rw [hi', picked_sub_length (by rw [List.length_append]; omega), ← hi', hi,
      picked_sub_length (by omega), List.getElem?_append_right (by omega), Nat.add_sub_cancel_left]
  · obtain ⟨p, hp⟩ := Int.eq_ofNat_of_zero_le (a := i + (xs.length + ys.length)) (by omega)
    have hi : i + ys.length = p - xs.length := by omega
    have hi' : i = p - (xs ++ ys).length := by
      rw [List.length_append]
      omega
    rw [hi, hi', picked_sub_length (by rw [List.length_append]; omega),
      picked_sub_length (by omega), List.getElem?_append_left (by omega)]
  · rw [picked_eq_none_iff, List.length_append]
    omega

/-- The copies repeat the list with its length as the period. -/
theorem getElem?_copies {n p : Nat} (hp : p < n * vs.length) :
    (copies n vs)[p]? = vs[p % vs.length]? := by
  induction n generalizing p with
  | zero => omega
  | succ n ih =>
      rw [copies_succ]
      -- The index is in the first copy, or it is counted from the second one.
      by_cases hfirst : p < vs.length
      · rw [List.getElem?_append_left hfirst, Nat.mod_eq_of_lt hfirst]
      · rw [Nat.succ_mul] at hp
        rw [List.getElem?_append_right (by omega), ih (by omega), ← Nat.mod_eq_sub_mod (by omega)]

/-- In copies of a list an index counts on as if there were one copy, and a place is named from
    the front and from the end. -/
theorem picked_copies {n : Nat} (hi : 0 ≤ i) (hlt : i < n * vs.length) :
    picked (copies n vs) i = picked vs (i % vs.length) ∧
    picked (copies n vs) (i - n * vs.length) = picked (copies n vs) i := by
  lift i to Nat using hi
  have hp : i < n * vs.length := by exact_mod_cast hlt
  have hlen : ((n * vs.length : Nat) : Int) = (copies n vs).length := by rw [length_copies]
  constructor
  · rw [picked_natCast, getElem?_copies hp, ← Int.natCast_mod, picked_natCast]
  · rw [← Int.natCast_mul, hlen, picked_sub_length (by rwa [length_copies]), picked_natCast]

end lists

/-- A text has no more characters than bytes. -/
theorem length_le_utf8ByteSize (s : String) : s.toList.length ≤ s.utf8ByteSize := by
  have hchars : ∀ cs : List Char, cs.length ≤ (String.ofList cs).utf8ByteSize := by
    intro cs
    induction cs with
    | nil => exact Nat.zero_le _
    | cons c cs ih =>
        have hcons : String.ofList (c :: cs) = String.singleton c ++ String.ofList cs := by
          rw [String.singleton_eq_ofList, ← String.ofList_append, List.singleton_append]
        -- Each character takes at least one byte.
        have hpos : 0 < c.utf8Size := c.utf8Size_pos
        rw [hcons, String.utf8ByteSize_append, String.utf8ByteSize_singleton, List.length_cons]
        omega
  have hs := hchars s.toList
  rwa [String.ofList_toList] at hs

theorem int64?_eq_none_iff {n : Int} : int64? n = none ↔ ¬(-2 ^ 63 ≤ n ∧ n < 2 ^ 63) := by
  have hmin : Int64.minValue.toInt = -2 ^ 63 := by decide
  have hmax : Int64.maxValue.toInt = 2 ^ 63 - 1 := by decide
  rw [← Option.not_isSome_iff_eq_none, int64?_isSome_iff, hmin, hmax]
  omega

/-- A length that is an integer of 64 bits is added to an index without overflow: the sum lies
    between the index and zero, or between zero and the length. -/
theorem position?_eq {length : Nat} (hlength : length < 2 ^ 63) (n : Int64) :
    position? length n = (if n.toInt < 0 then n.toInt + length else n.toInt).toNat? := by
  -- The length fits into a word, so adding it to a negative index does not overflow.
  have hsum : (intOfSize length).toInt = length := by
    unfold intOfSize
    rcases hint : int64? length with _ | m
    · exact absurd (by omega) (int64?_eq_none_iff.mp hint)
    · exact toInt_of_int64? hint
  have hlow := n.le_toInt
  have hneg : n < 0 ↔ n.toInt < 0 := Int64.lt_iff_toInt_lt
  unfold position?
  by_cases hn : n.toInt < 0
  · rw [if_pos (hneg.mpr hn), if_pos hn, hsum]
    rcases hint : int64? (n.toInt + length) with _ | m
    · exact absurd (by omega) (int64?_eq_none_iff.mp hint)
    · rw [← toInt_of_int64? hint]
      rfl
  · rw [if_neg (mt hneg.mp hn), if_neg hn]
    rfl

namespace Heap

variable {h h' : Heap} {base base' i a b : Value} {vs vs' xs ys : List Value} {n n' k : Int64}
  {p : Produced}

theorem count?_eq (h : Heap) (v : Value) : h.count? v = (h.elements? v).map List.length := by
  cases v <;> simp [count?, elements?, length, String.length_toList]

theorem element?_eq (h : Heap) (v : Value) (p : Nat) :
    h.element? v p = (h.elements? v).bind (·[p]?) := by
  cases v <;> simp [element?, elements?, get?]

/-- An index of a sequence names an element of the list of its elements. -/
theorem index_of_whole (he : h.elements? base = some vs) (hlength : vs.length < 2 ^ 63)
    (hi : i.whole? = some n) :
    h.index base i = match picked vs n.toInt with
      | none => .error (.indexOutOfRange n.toInt)
      | some v => .ok v := by
  have hcount : h.count? base = some vs.length := by rw [count?_eq, he, Option.map_some]
  have helement : h.element? base = (vs[·]?) := by
    funext p
    rw [element?_eq, he, Option.bind_some]
  -- The position is computed in words, and picking is done with integers.
  have hposition : (position? vs.length n).bind (h.element? base) = picked vs n.toInt := by
    rw [position?_eq hlength, helement, picked]
  cases hpick : picked vs n.toInt with
  | none => simp only [index, hcount, hi, hposition, hpick]
  | some v => simp only [index, hcount, hi, hposition, hpick]

/-- An index is out of range unless it is within the length on its side. No length is so great
    that an index of 64 bits could be moved by it into the wrong place. -/
theorem index_of_outside (he : h.elements? base = some vs) (hi : i.whole? = some n)
    (hout : ¬(-(vs.length : Int) ≤ n.toInt ∧ n.toInt < vs.length)) :
    h.index base i = .error (.indexOutOfRange n.toInt) := by
  have hlow := n.le_toInt
  have hhigh := n.toInt_lt
  rw [index_of_whole he (by omega) hi, picked_eq_none_iff.mpr hout]

/-- Two indices give the same if they name the same element. -/
theorem index_congr (he : h.elements? base = some vs) (he' : h'.elements? base' = some vs')
    (hlength : vs.length < 2 ^ 63) (hlength' : vs'.length < 2 ^ 63)
    (hn : -(vs.length : Int) ≤ n.toInt ∧ n.toInt < vs.length)
    (hpick : picked vs n.toInt = picked vs' n'.toInt) :
    h.index base (.int n) = h'.index base' (.int n') := by
  rcases Option.ne_none_iff_exists'.mp fun hnone => picked_eq_none_iff.mp hnone hn with ⟨v, hv⟩
  rw [index_of_whole he hlength rfl, index_of_whole he' hlength' rfl, ← hpick, hv]

theorem elements?_settle (hbase : h.Stored base) (p : Produced) :
    (h.settle p).2.elements? base = h.elements? base := by
  cases base with
  | array id => simp only [elements?, (extends_settle p h).items_eq (hbase id rfl)]
  | _ => rfl

/-- Sequences that were there are indexed as before when a result is stored. -/
theorem index_settle (hbase : h.Stored base) (p : Produced) (n : Int64) :
    (h.settle p).2.index base (.int n) = h.index base (.int n) := by
  have helements := elements?_settle hbase p
  have helement : (h.settle p).2.element? base = h.element? base := by
    funext q
    rw [element?_eq, element?_eq, helements]
  unfold index
  rw [count?_eq, count?_eq, helements, helement]
  rfl

/-- What is made has at most as many elements as its size says, a text because it has no more
    characters than bytes. -/
theorem length_le_size (hnew : ∀ id, p ≠ .value (.array id))
    (he : (h.settle p).2.elements? (h.settle p).1 = some vs) : vs.length ≤ p.size := by
  cases p with
  | value v =>
      cases v with
      | text s =>
          cases he
          -- A text is measured in bytes, of which every character has at least one.
          rw [List.length_map]
          exact length_le_utf8ByteSize s
      | array id => exact absurd rfl (hnew id)
      | _ => cases he
  | fresh items =>
      rw [elements?_settle_fresh, Option.some.injEq] at he
      rw [← he, Array.length_toList]
      exact Nat.le_refl _

/-- Where an operand is no number, an operator makes no more elements than the limit allows. -/
theorem length_le_limit {op : ArithOp} (hnumbers : ¬ ∃ x y, a = .number x ∧ b = .number y)
    (hp : h.binary (.arith op) a b = .ok p)
    (he : (h.settle p).2.elements? (h.settle p).1 = some vs) : vs.length ≤ 2 ^ 24 := by
  have hsequence : h.sequence op a b = .ok p := (arith_eq_sequence hnumbers).symm.trans hp
  -- In all six cases of a sequence the limit was checked on what was made.
  have hmade : ∃ made, limited made = .ok p ∧ ∀ id, made ≠ .value (.array id) := by
    unfold sequence at hsequence
    split at hsequence
    · exact ⟨_, (joinTexts_eq _ _).symm.trans hsequence, fun _ => nofun⟩
    · exact ⟨_, (joinItems_eq _ _).symm.trans hsequence, fun _ => nofun⟩
    · exact ⟨_, (timesText_eq _ _).symm.trans hsequence, fun _ => nofun⟩
    · exact ⟨_, (timesText_eq _ _).symm.trans hsequence, fun _ => nofun⟩
    · exact ⟨_, (timesItems_eq _ _).symm.trans hsequence, fun _ => nofun⟩
    · exact ⟨_, (timesItems_eq _ _).symm.trans hsequence, fun _ => nofun⟩
    · cases hsequence
  rcases hmade with ⟨made, hok, hnew⟩
  rcases limited_eq_ok_iff.mp hok with ⟨hsize, rfl⟩
  exact Nat.le_trans (length_le_size hnew he) hsize

theorem not_number_of_elements? (he : h.elements? a = some xs) (x : Number) : a ≠ .number x := by
  rintro rfl
  cases he

/-- A sum is indexed in its first half or in its second. -/
theorem index_of_sum (ha : h.elements? a = some xs) (hb : h.elements? b = some ys)
    (hp : h.binary (.arith .add) a b = .ok p) :
    (h.settle p).2.index (h.settle p).1 (.int n) =
      if 0 ≤ n.toInt ∧ n.toInt < xs.length then h.index a (.int n)
      else if xs.length ≤ n.toInt ∧ n.toInt < xs.length + ys.length then
        h.index b (.int (.ofInt (n.toInt - xs.length)))
      else if -(ys.length : Int) ≤ n.toInt ∧ n.toInt < 0 then h.index b (.int n)
      else if -((xs.length : Int) + ys.length) ≤ n.toInt ∧ n.toInt < -(ys.length : Int) then
        h.index a (.int (.ofInt (n.toInt + ys.length)))
      else .error (.indexOutOfRange n.toInt) := by
  have hsum := elements?_of_sum ha hb hp
  have hpick := picked_append xs ys n.toInt
  have hlow := n.le_toInt
  have hhigh := n.toInt_lt
  have hlimit : (xs ++ ys).length ≤ 2 ^ 24 :=
    length_le_limit (fun ⟨x, _, hx, _⟩ => not_number_of_elements? ha x hx) hp hsum
  have hlength : (xs ++ ys).length = xs.length + ys.length := List.length_append
  -- An index that is moved lies between the old one and zero, so it still fits.
  split_ifs at hpick ⊢
  · exact index_congr hsum ha (by omega) (by omega) (by omega) hpick
  · refine index_congr hsum hb (by omega) (by omega) (by omega) ?_
    rw [hpick, Int64.toInt_ofInt_of_le (by omega) (by omega)]
  · exact index_congr hsum hb (by omega) (by omega) (by omega) hpick
  · refine index_congr hsum ha (by omega) (by omega) (by omega) ?_
    rw [hpick, Int64.toInt_ofInt_of_le (by omega) (by omega)]
  · rw [index_of_whole hsum (by omega) rfl, hpick]

/-- A product is indexed modulo the length of the list, from either end. -/
theorem index_of_product (ha : h.elements? a = some xs)
    (hp : h.binary (.arith .mul) a (.int k) = .ok p ∨ h.binary (.arith .mul) (.int k) a = .ok p)
    (hn : 0 ≤ n.toInt) (hlt : n.toInt < xs.length * k.toInt) :
    (h.settle p).2.index (h.settle p).1 (.int n) =
      h.index a (.int (.ofInt (n.toInt % xs.length))) ∧
    (h.settle p).2.index (h.settle p).1 (.int n) =
      (h.settle p).2.index (h.settle p).1 (.int (.ofInt (n.toInt - xs.length * k.toInt))) := by
  have hproduct := elements?_of_product ha hp
  have hlimit : (copies k.toInt.toNat xs).length ≤ 2 ^ 24 := by
    rcases hp with hp | hp
    · exact length_le_limit (fun ⟨x, _, hx, _⟩ => not_number_of_elements? ha x hx) hp hproduct
    · exact length_le_limit (fun ⟨_, y, _, hy⟩ => not_number_of_elements? ha y hy) hp hproduct
  -- There are copies, so the count is not negative.
  have hk : 0 < k.toInt := by
    by_contra hk
    have hnonpos := Int.mul_nonpos_of_nonneg_of_nonpos (Int.natCast_nonneg xs.length)
      (Int.not_lt.mp hk)
    omega
  have htotal : (xs.length : Int) * k.toInt = k.toInt.toNat * xs.length := by
    rw [Int.toNat_of_nonneg hk.le, Int.mul_comm]
  have hlength : ((copies k.toInt.toNat xs).length : Int) = k.toInt.toNat * xs.length := by
    rw [length_copies, Int.natCast_mul]
  have hlen : 0 < (xs.length : Int) := by
    by_contra hlen
    rw [Int.le_antisymm (Int.not_lt.mp hlen) (Int.natCast_nonneg _), Int.zero_mul] at hlt
    omega
  rw [htotal] at hlt ⊢
  rcases picked_copies hn hlt with ⟨hfront, hend⟩
  have hfirst : (xs.length : Int) ≤ k.toInt.toNat * xs.length := by
    exact_mod_cast Nat.le_mul_of_pos_left xs.length (by omega : 0 < k.toInt.toNat)
  have hmod := Int.emod_nonneg n.toInt hlen.ne'
  have hmod' := Int.emod_lt_of_pos n.toInt hlen
  constructor
  · refine index_congr hproduct ha (by omega) (by omega) (by omega) ?_
    rw [hfront, Int64.toInt_ofInt_of_le (by omega) (by omega)]
  · refine index_congr hproduct hproduct (by omega) (by omega) (by omega) ?_
    rw [← hend, Int64.toInt_ofInt_of_le (by omega) (by omega)]

end Heap

/-- Sums and products have the elements of their parts, and are indexed as these are. From the
    front an index of a sum names an element of the first part, and behind that one of the
    second, counted from where this begins; from the end it is the other way around. In a
    product it counts on through the copies. Whatever the sequence is, an index from the front
    or from the end gives that element if the length is an integer of 64 bits, and any other,
    however far below zero, is out of range. Sequences that are stored are indexed after the
    result is stored as before. -/
theorem indexing_follows_building (h : Heap) :
    (∀ a b m n p, h.count? a = some m → h.count? b = some n →
      h.binary (.arith .add) a b = .ok p →
      (h.settle p).2.count? (h.settle p).1 = some (m + n) ∧
      ∀ i : Int64, (h.settle p).2.index (h.settle p).1 (.int i) =
        if 0 ≤ i.toInt ∧ i.toInt < m then h.index a (.int i)
        else if m ≤ i.toInt ∧ i.toInt < m + n then h.index b (.int (.ofInt (i.toInt - m)))
        else if -(n : Int) ≤ i.toInt ∧ i.toInt < 0 then h.index b (.int i)
        else if -((m : Int) + n) ≤ i.toInt ∧ i.toInt < -(n : Int) then
          h.index a (.int (.ofInt (i.toInt + n)))
        else .error (.indexOutOfRange i.toInt)) ∧
    (∀ a k m p, h.count? a = some m →
      h.binary (.arith .mul) a (.int k) = .ok p ∨ h.binary (.arith .mul) (.int k) a = .ok p →
      (h.settle p).2.count? (h.settle p).1 = some (k.toInt.toNat * m) ∧
      ∀ i : Int64, 0 ≤ i.toInt → i.toInt < m * k.toInt →
        (h.settle p).2.index (h.settle p).1 (.int i) =
          h.index a (.int (.ofInt (i.toInt % m))) ∧
        (h.settle p).2.index (h.settle p).1 (.int i) =
          (h.settle p).2.index (h.settle p).1 (.int (.ofInt (i.toInt - m * k.toInt)))) ∧
    (∀ base vs, h.elements? base = some vs → ∀ i : Int64,
      (∀ (j : Nat) v, vs.length < 2 ^ 63 → vs[j]? = some v →
        i.toInt = j ∨ i.toInt = j - (vs.length : Int) → h.index base (.int i) = .ok v) ∧
      (¬(-(vs.length : Int) ≤ i.toInt ∧ i.toInt < vs.length) →
        h.index base (.int i) = .error (.indexOutOfRange i.toInt))) ∧
    ∀ base p, h.Stored base → ∀ i : Int64,
      (h.settle p).2.index base (.int i) = h.index base (.int i) := by
  refine ⟨fun a b m n p hm hn hp => ?_, fun a k m p hm hp => ?_, fun base vs hvs i => ?_,
    fun base p hbase i => Heap.index_settle hbase p i⟩
  · rw [Heap.count?_eq, Option.map_eq_some_iff] at hm hn
    rcases hm with ⟨xs, ha, rfl⟩
    rcases hn with ⟨ys, hb, rfl⟩
    refine ⟨?_, fun i => Heap.index_of_sum ha hb hp⟩
    rw [Heap.count?_eq, Heap.elements?_of_sum ha hb hp, Option.map_some, List.length_append]
  · rw [Heap.count?_eq, Option.map_eq_some_iff] at hm
    rcases hm with ⟨xs, ha, rfl⟩
    refine ⟨?_, fun i hi hlt => Heap.index_of_product ha hp hi hlt⟩
    rw [Heap.count?_eq, Heap.elements?_of_product ha hp, Option.map_some, length_copies]
  · refine ⟨fun j v hlength hv hj => ?_, fun hout => Heap.index_of_outside hvs rfl hout⟩
    -- Each element has one place from the front and one from the back.
    have hlt : j < vs.length := (List.getElem?_eq_some_iff.mp hv).1
    have hpick : picked vs i.toInt = some v := by
      rcases hj with hj | hj
      · rw [hj, picked_natCast, hv]
      · rw [hj, picked_sub_length hlt, hv]
    rw [Heap.index_of_whole hvs hlength rfl, hpick]

/-- Characters of several bytes are counted as one at both ends and at the seam. An array that is
    in all copies is found at the front of the last one. -/
theorem indexing_follows_building_accents :
    nestedHeap.binary (.arith .add) (.text "aé") (.text "日") = .ok (.value (.text "aé日")) ∧
    nestedHeap.index (.text "aé日") (.int 2) = .ok (.text "日") ∧
    nestedHeap.index (.text "aé日") (.int (-2)) = .ok (.text "é") ∧
    nestedHeap.index (.text "aé日") (.int Int64.minValue) =
      .error (.indexOutOfRange (-2 ^ 63)) ∧
    nestedHeap.binary (.arith .mul) (.int 2) (.array ⟨1⟩) =
      .ok (.fresh #[.array ⟨0⟩, .int 2, .array ⟨0⟩, .int 2]) ∧
    (nestedHeap.settle (.fresh #[.array ⟨0⟩, .int 2, .array ⟨0⟩, .int 2])).2.index
      (.array ⟨3⟩) (.int 2) = .ok (.array ⟨0⟩) ∧
    (nestedHeap.settle (.fresh #[.array ⟨0⟩, .int 2, .array ⟨0⟩, .int 2])).2.index
      (.array ⟨3⟩) (.int (-2)) = .ok (.array ⟨0⟩) ∧
    nestedHeap.index (.array ⟨1⟩) (.int (-3)) = .error (.indexOutOfRange (-3)) ∧
    (nestedHeap.settle (.fresh #[])).2.index (.array ⟨1⟩) (.int 0) = .ok (.array ⟨0⟩) := by
  rcases indexing_follows_building nestedHeap with ⟨hsum, hproduct, hany, hsettle⟩
  have hadded : nestedHeap.binary (.arith .add) (.text "aé") (.text "日") =
      .ok (.value (.text "aé日")) := by decide +kernel
  have htimes : nestedHeap.binary (.arith .mul) (.int 2) (.array ⟨1⟩) =
      .ok (.fresh #[.array ⟨0⟩, .int 2, .array ⟨0⟩, .int 2]) := by decide +kernel
  -- Texts are indexed by characters, although their size is that of their bytes.
  rcases hsum _ _ 2 1 _ (by decide +kernel) (by decide +kernel) hadded with ⟨-, hsum⟩
  rcases hproduct (.array ⟨1⟩) 2 2 _ (by decide +kernel) (.inr htimes) with ⟨-, hproduct⟩
  rcases hproduct 2 (by decide) (by decide) with ⟨hfront, hend⟩
  have hfirst : nestedHeap.index (.array ⟨1⟩) (.int 0) = .ok (.array ⟨0⟩) :=
    (hany _ [.array ⟨0⟩, .int 2] rfl 0).1 0 _ (by decide) rfl (.inl rfl)
  have hstored : nestedHeap.Stored (.array ⟨1⟩) := by
    rintro _ ⟨⟩
    decide
  refine ⟨hadded, (hsum 2).trans ?_, (hsum (-2)).trans ?_, (hsum Int64.minValue).trans ?_,
    htimes, hfront.trans hfirst, hend.symm.trans (hfront.trans hfirst), ?_, ?_⟩
  · decide +kernel
  · decide +kernel
  · decide +kernel
  · exact (hany _ [.array ⟨0⟩, .int 2] rfl (-3)).2 (by decide)
  · exact (hsettle _ _ hstored 0).trans hfirst

end TreeScript
