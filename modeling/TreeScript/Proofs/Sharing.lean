import TreeScript.Proofs.ArrayNesting
import TreeScript.Proofs.Transitivity

/-!
# Sharing and Deep Copies

Whether two values are compared as they are, or as deep copies that share no storage. A
comparison that meets one array on both sides takes it for equal without looking into it.
Without that rule a comparison would be made of the elements alone, and the copies of an
array would be as good as the array.

The rule changes the answer in one case only: where the array that is met holds, at any
depth, an undefined float, which is not equal to itself. So values compare like copies of
them unless one such array stands at the same place in both. Then they really may not: two
copies of a value are equal just if no undefined float occurs in it.

`Heap.elementwise` is the comparison without the rule. It stands between the values and
their copies: it does not change when a value is copied, and it agrees with the comparison
where no undefined float is shared.

Arrays are supposed to hold older arrays only, as those of a program do (`Heap.Layered`).
The comparison of a value with itself, say, would have no end otherwise.

## Main definitions

* `Heap.elementwise`: The order of values by their elements alone.
* `Heap.Meets`: An array stands at the same place in two values.
* `Heap.SharesNaN`: An array that does, and in which an undefined float occurs.
* `Heap.Copies`: A value of another heap is a copy of a value, down to the last element.
* `Heap.CopiedApart`: Two values are copied, and their copies share no array.
* `Heap.deepCopies`: Deep copies of two values.

## Theorems

* `Heap.elementwise_self_iff`: What is equal to itself by its elements.
* `Heap.compareWithin_eq_elementwise`: Where the rule for shared arrays does not show.
* `Heap.elementwise_copies`: Copies have the order of what they are copies of.
* `Heap.copiedApart_deepCopies`: Copying makes copies that share no array.
* `sharing_makes_no_difference`: Comparing values and comparing copies of them.
* `sharing_makes_a_difference`: A list that is not equal to its copy.
-/

namespace TreeScript

/-- Whether a number is an undefined float. -/
def Number.isNaN : Number → Bool
  | .int _ => false
  | .float x => x.isNaN

/-- A number equals itself unless it is NaN. -/
theorem Number.compare_self_iff {x : Number} : x.compare x = some .eq ↔ x.isNaN = false := by
  cases x with
  | int n => simp [Number.compare, Number.isNaN]
  | float x =>
      -- A float that is not NaN has a place, and the same one twice.
      have hdefined : x.isNaN = false ↔ x.toModel.unpack ≠ .notANumber := by
        unfold Float.isNaN Float.Model.isNaN
        cases x.toModel.unpack with
        | notANumber => exact iff_of_false nofun fun h => h rfl
        | _ => exact iff_of_true rfl nofun
      show floatCompare x x = some .eq ↔ x.isNaN = false
      rw [floatCompare_eq_some_iff, hdefined]
      exact ⟨fun h => h.1, fun h => ⟨h, h, Std.ReflCmp.compare_self⟩⟩

/-- A value that is no array, or an array with less than so many before it. -/
def Value.Below (v : Value) (n : Nat) : Prop := ∀ id, v = .array id → id.index < n

namespace Heap

variable {h h' : Heap} {n n' : Nat} {a a' b b' v w : Value} {i j : ArrayId} {x : Number}

/-- The order of values by their elements alone. It is not asked whether two arrays are one
    array. -/
def elementwise (h : Heap) : Nat → Value → Value → Option Ordering
  | allowance + 1, .array a, .array b =>
    lexicographic (h.elementwise allowance) (h.items a).toList (h.items b).toList
  | 0, .array _, .array _ => none
  | _, a, b => h.compareWithin 0 a b

theorem elementwise_array (n : Nat) (i j : ArrayId) : h.elementwise (n + 1) (.array i) (.array j) =
    lexicographic (h.elementwise n) (h.items i).toList (h.items j).toList := rfl

/-- The order of values that are not both arrays needs no heap and no allowance. -/
theorem compareWithin_of_plain (hab : a.isArray = false ∨ b.isArray = false) (h h' : Heap)
    (n n' : Nat) : h.compareWithin n a b = h'.compareWithin n' a b := by
  cases a <;> cases b <;> first | (cases n <;> cases n' <;> rfl) | simp [Value.isArray] at hab

theorem elementwise_of_plain (hab : a.isArray = false ∨ b.isArray = false) (n : Nat) :
    h.elementwise n a b = h.compareWithin n a b := by
  have hplain : h.elementwise n a b = h.compareWithin 0 a b := by
    cases a <;> cases b <;> first | (cases n <;> rfl) | simp [Value.isArray] at hab
  rw [hplain]
  exact compareWithin_of_plain hab h h 0 n

/-- An array and a value that is none are not ordered. -/
theorem compareWithin_plain_array (ha : a.isArray = false) (n : Nat) (i : ArrayId) :
    h.compareWithin n a (.array i) = none := by
  cases a with
  | array _ => cases ha
  | _ => cases n <;> rfl

theorem compareWithin_array_plain (hb : b.isArray = false) (n : Nat) (i : ArrayId) :
    h.compareWithin n (.array i) b = none := by
  rw [compareWithin_swap, compareWithin_plain_array hb]
  rfl

theorem Founded.below (hf : h.Founded) (hv : v ∈ (h.items i).toList)
    (hi : (Value.array i).Below (n + 1)) : v.Below n := by
  rintro inner rfl
  have holder := hf i inner (Array.mem_toList_iff.mp hv)
  have hbound := hi i rfl
  omega

/-- A value that is no array equals itself unless it is NaN. -/
theorem compareWithin_self_iff_of_plain (ha : a.isArray = false) :
    h.compareWithin n a a = some .eq ↔ ∀ x, h.Occurs a x → x.isNaN = false := by
  -- In a plain value no number occurs but itself.
  have hnone : (∀ y, a ≠ .number y) → ∀ x, ¬ h.Occurs a x := by
    rintro hne x (rfl | ⟨id, hr, _⟩)
    · exact hne x rfl
    · exact Bool.false_ne_true (ha.symm.trans hr.isArray)
  cases a with
  | number y =>
      have hself : h.compareWithin n (.number y) (.number y) = y.compare y := by cases n <;> rfl
      rw [hself, Number.compare_self_iff]
      refine ⟨fun hy x hx => ?_, fun hall => hall y (.inl rfl)⟩
      rwa [eq_of_occurs hx]
  | text s =>
      refine iff_of_true (Ordered.compare_eq ?_) fun x hx => (hnone nofun x hx).elim
      have htext := Ordered.text (h := h) (n := n) s s
      rwa [Std.ReflOrd.compare_self] at htext
  | array _ => cases ha
  | breakMark => exact iff_of_true Ordered.breakMark.compare_eq fun x hx => (hnone nofun x hx).elim
  | absent => exact iff_of_true Ordered.absent.compare_eq fun x hx => (hnone nofun x hx).elim

/-- A value is equal to itself by its elements just if no undefined float occurs in it. -/
theorem elementwise_self_iff (hf : h.Founded) (ha : a.Below n) :
    h.elementwise n a a = some .eq ↔ ∀ x, h.Occurs a x → x.isNaN = false := by
  -- Elements are older than their array, so the allowance is enough for them as well.
  induction n generalizing a with
  | zero =>
      cases a with
      | array i => exact absurd (ha i rfl) (Nat.not_lt_zero _)
      | _ =>
          rw [elementwise_of_plain (.inl rfl)]
          exact compareWithin_self_iff_of_plain rfl
  | succ n ih =>
      cases a with
      | array i =>
          have helements : ∀ v ∈ (h.items i).toList,
              (h.elementwise n v v = some .eq ↔ ∀ x, h.Occurs v x → x.isNaN = false) :=
            fun v hv => ih (hf.below hv ha)
          rw [elementwise_array, lexicographic_self_iff]
          constructor
          · intro hall x hx
            rcases occurs_cases hx with ⟨v, hv, hx⟩
            have hv' := Array.mem_toList_iff.mpr hv
            exact (helements v hv').mp (hall v hv') x hx
          · intro hall v hv
            refine (helements v hv).mpr fun x hx => hall x ?_
            exact occurs_of_element (Array.mem_toList_iff.mp hv) hx
      | _ =>
          rw [elementwise_of_plain (.inl rfl)]
          exact compareWithin_self_iff_of_plain rfl

/-- One array stands at the same place in both values. -/
inductive Meets (h : Heap) : Value → Value → ArrayId → Prop where
  | same (id : ArrayId) : Meets h (.array id) (.array id) id
  | element {i j id : ArrayId} {p : Value × Value} :
      p ∈ (h.items i).toList.zip (h.items j).toList → Meets h p.1 p.2 id →
      Meets h (.array i) (.array j) id

/-- Two values that meet at an array both reach it. -/
theorem Meets.reaches {id : ArrayId} (hm : h.Meets a b id) : h.Reaches a id ∧ h.Reaches b id := by
  induction hm with
  | same id => exact ⟨.self rfl, .self rfl⟩
  | element hp _ ih =>
      have hmem := List.of_mem_zip hp
      exact ⟨reaches_of_element (Array.mem_toList_iff.mp hmem.1) ih.1,
        reaches_of_element (Array.mem_toList_iff.mp hmem.2) ih.2⟩

/-- One array stands at the same place in both values, and an undefined float occurs in it. -/
def SharesNaN (h : Heap) (a b : Value) : Prop :=
  ∃ id x, h.Meets a b id ∧ h.Occurs (.array id) x ∧ x.isNaN = true

/-- Values that share no undefined float are compared as their elements are. -/
theorem compareWithin_eq_elementwise (hf : h.Founded) (ha : a.Below n) (hb : b.Below n)
    (hs : ¬ h.SharesNaN a b) : h.compareWithin n a b = h.elementwise n a b := by
  induction n generalizing a b with
  | zero =>
      have hplain : a.isArray = false := by
        cases a with
        | array i => exact absurd (ha i rfl) (Nat.not_lt_zero _)
        | _ => rfl
      exact (elementwise_of_plain (.inl hplain) 0).symm
  | succ n ih =>
      cases a with
      | array i =>
          cases b with
          | array j =>
              by_cases hij : i = j
              · -- The rule for shared arrays applies, and the elements would say the same.
                subst hij
                have hdefined : ∀ x, h.Occurs (.array i) x → x.isNaN = false := fun x hx =>
                  Bool.eq_false_iff.mpr fun hnan => hs ⟨i, x, .same i, hx, hnan⟩
                rw [compareWithin_self_array, (elementwise_self_iff hf ha).mpr hdefined]
              · rw [compareWithin_array hij, elementwise_array]
                refine lexicographic_congr_order fun p hp => ?_
                have hmem := List.of_mem_zip hp
                -- What the elements share at a place is shared at a place inside the arrays.
                have hshares : ¬ h.SharesNaN p.1 p.2 := fun ⟨id, x, hmeets, hx, hnan⟩ =>
                  hs ⟨id, x, .element hp hmeets, hx, hnan⟩
                exact ih (hf.below hmem.1 ha) (hf.below hmem.2 hb) hshares
          | _ => exact (elementwise_of_plain (.inr rfl) _).symm
      | _ => exact (elementwise_of_plain (.inl rfl) _).symm

/-- A value of another heap is a copy of a value: the value itself if it is no array, or an
    array of copies of the elements. -/
inductive Copies (h h' : Heap) : Value → Value → Prop where
  | plain {v : Value} : v.isArray = false → Copies h h' v v
  | array {i j : ArrayId} : (h'.items j).toList.length = (h.items i).toList.length →
      (∀ p ∈ (h.items i).toList.zip (h'.items j).toList, Copies h h' p.1 p.2) →
      Copies h h' (.array i) (.array j)

theorem Copies.isArray (hc : h.Copies h' v w) : w.isArray = v.isArray := by
  cases hc <;> rfl

/-- Copies are ordered by their elements as the values are, with any allowances that are
    enough for the first ones. -/
theorem elementwise_copies (hf : h.Founded) (hf' : h'.Founded) (ha : h.Copies h' a a')
    (hb : h.Copies h' b b') (hn : a.Below n) (hn' : a'.Below n') :
    h'.elementwise n' a' b' = h.elementwise n a b := by
  induction ha generalizing b b' n n' with
  | @plain v hv =>
      -- Without arrays on both sides, neither heap is looked at.
      rw [elementwise_of_plain (.inl hv), elementwise_of_plain (.inl hv)]
      cases hb with
      | plain hw => exact compareWithin_of_plain (.inl hv) h' h n' n
      | array => rw [compareWithin_plain_array hv, compareWithin_plain_array hv]
  | @array i i' hsize _ ih =>
      cases hb with
      | plain hw =>
          rw [elementwise_of_plain (.inr hw), elementwise_of_plain (.inr hw),
            compareWithin_array_plain hw, compareWithin_array_plain hw]
      | @array j j' hsize' helements =>
          -- Both allowances are enough for an array, so there is one left for its elements.
          cases n with
          | zero => exact absurd (hn i rfl) (Nat.not_lt_zero _)
          | succ n =>
              cases n' with
              | zero => exact absurd (hn' i' rfl) (Nat.not_lt_zero _)
              | succ n' =>
                  rw [elementwise_array, elementwise_array]
                  refine lexicographic_congr hsize hsize' fun p hp q hq => ?_
                  have hmem := List.of_mem_zip hp
                  exact ih p hp (helements q hq) (hf.below hmem.1 hn) (hf'.below hmem.2 hn')

/-- Two values are copied to another heap, and no array is reached from both copies. -/
structure CopiedApart (h : Heap) (a b : Value) (h' : Heap) (a' b' : Value) : Prop where
  founded : h'.Founded
  stored_left : h'.Stored a'
  stored_right : h'.Stored b'
  left : h.Copies h' a a'
  right : h.Copies h' b b'
  apart : ∀ id, h'.Reaches a' id → ¬ h'.Reaches b' id

/-- Copies that share no array are compared as the elements of the values are. -/
theorem CopiedApart.compare_eq (hc : h.CopiedApart a b h' a' b') (hf : h.Founded)
    (ha : h.Stored a) : h'.compare a' b' = h.elementwise h.cells.size a b := by
  have hshares : ¬ h'.SharesNaN a' b' := fun ⟨id, _, hmeets, _, _⟩ =>
    hc.apart id hmeets.reaches.1 hmeets.reaches.2
  unfold compare
  rw [compareWithin_eq_elementwise hc.founded hc.stored_left hc.stored_right hshares]
  exact elementwise_copies hf hc.founded hc.left hc.right ha hc.stored_left

/-- Copies of values, made one after the other. -/
def copyList (copy : Value → Heap → Value × Heap) : List Value → Heap → List Value × Heap
  | [], h => ([], h)
  | v :: vs, h =>
    let (w, h) := copy v h
    let (ws, h) := copyList copy vs h
    (w :: ws, h)

/-- A deep copy of a value whose arrays are nested at most as deep as the allowance. What is
    copied is read from the first heap, and the copies are put behind the arrays of the
    second one. -/
def copyWithin (source : Heap) : Nat → Value → Heap → Value × Heap
  | allowance + 1, .array id, h =>
    let (items, h) := copyList (source.copyWithin allowance) (source.items id).toList h
    let (copy, h) := h.alloc items.toArray
    (.array copy, h)
  | _, v, h => (v, h)

/-- Deep copies of two values, and the heap that holds them. -/
def deepCopies (h : Heap) (a b : Value) : Heap × Value × Value :=
  let (a', h') := h.copyWithin h.cells.size a h
  let (b', h') := h.copyWithin h.cells.size b h'
  (h', a', b')

/-- A value of a heap is a copy, and all its arrays have been made since another heap. -/
structure FreshCopy (source h h' : Heap) (v w : Value) : Prop where
  stored : h'.Stored w
  copies : source.Copies h' v w
  fresh : ∀ id, h'.Reaches w id → h.cells.size ≤ id.index

variable {source h₀ h'' : Heap} {vs : List Value}

theorem Extends.stored (hext : h.Extends h') (hv : h.Stored v) : h'.Stored v :=
  fun id he => Nat.lt_of_lt_of_le (hv id he) hext.size_le

/-- New arrays are not reached from values that were there before. -/
theorem Extends.reaches_older (hext : h.Extends h') (hf : h.Founded) (hv : h.Stored v)
    {id : ArrayId} (hr : h'.Reaches v id) : h.Reaches v id ∧ id.index < h.cells.size := by
  -- What is reached next is an element of an older array, and that was not changed.
  induction hr with
  | @self id he => exact ⟨.self he, hv id he⟩
  | @element id inner _ hmem ih =>
      rw [hext.items_eq ih.2] at hmem
      exact ⟨ih.1.element hmem, hf.stored hmem inner rfl⟩

/-- A copy stays a copy while the heap is extended. -/
theorem Copies.later (hc : source.Copies h v w) (hext : h.Extends h') (hf : h.Founded)
    (hw : h.Stored w) : source.Copies h' v w := by
  induction hc with
  | plain hv => exact .plain hv
  | @array i j hsize _ ih =>
      -- The copy was there before the heap was extended, so its items are still the same.
      have hitems := hext.items_eq (hw j rfl)
      refine .array (by rw [hitems, hsize]) fun p hp => ?_
      rw [hitems] at hp
      have hmem := Array.mem_toList_iff.mp (List.of_mem_zip hp).2
      exact ih p hp (hf.stored hmem)

theorem FreshCopy.later (hc : FreshCopy source h₀ h v w) (hext : h.Extends h') (hf : h.Founded) :
    FreshCopy source h₀ h' v w where
  stored := hext.stored hc.stored
  copies := hc.copies.later hext hf hc.stored
  fresh _ hr := hc.fresh _ (hext.reaches_older hf hc.stored hr).1

theorem FreshCopy.since (hc : FreshCopy source h h' v w) (hext : h₀.Extends h) :
    FreshCopy source h₀ h' v w where
  stored := hc.stored
  copies := hc.copies
  fresh id hr := Nat.le_trans hext.size_le (hc.fresh id hr)

theorem FreshCopy.plain (hv : v.isArray = false) : FreshCopy source h h v v where
  stored id he := by
    subst he
    cases hv
  copies := .plain hv
  fresh _ hr := absurd (hv.symm.trans hr.isArray) Bool.false_ne_true

/-- What making a copy of a value does: the heap grows, and the copy is new. -/
structure MakesCopy (source h : Heap) (v : Value) (made : Value × Heap) : Prop where
  grown : h.Extends made.2
  founded : made.2.Founded
  copy : FreshCopy source h made.2 v made.1

/-- What making copies of several values does. -/
structure MakesCopies (source h : Heap) (vs : List Value) (made : List Value × Heap) : Prop where
  grown : h.Extends made.2
  founded : made.2.Founded
  length : made.1.length = vs.length
  copy : ∀ p ∈ vs.zip made.1, FreshCopy source h made.2 p.1 p.2

/-- Every one of the copies is a copy of one of the values. -/
theorem MakesCopies.exists_of_mem {made : List Value × Heap} (hm : MakesCopies source h vs made)
    (hw : w ∈ made.1) : ∃ v, FreshCopy source h made.2 v w := by
  rcases List.mem_iff_getElem.mp hw with ⟨k, hk, rfl⟩
  have hlt : k < (vs.zip made.1).length := by
    rw [List.length_zip, ← hm.length, Nat.min_self]
    exact hk
  have hcopy := hm.copy _ (List.getElem_mem hlt)
  rw [List.getElem_zip] at hcopy
  exact ⟨_, hcopy⟩

/-- A list is copied element by element, each copy in storages younger than the ones before. -/
theorem copyList_spec {copy : Value → Heap → Value × Heap} (hf : h.Founded)
    (hcopy : ∀ v ∈ vs, ∀ h : Heap, h.Founded → MakesCopy source h v (copy v h)) :
    MakesCopies source h vs (copyList copy vs h) := by
  induction vs generalizing h with
  | nil => exact ⟨extends_refl h, hf, rfl, by simp⟩
  | cons v vs ih =>
      have hfirst := hcopy v List.mem_cons_self h hf
      have hlater := ih hfirst.founded fun u hu => hcopy u (List.mem_cons_of_mem v hu)
      refine ⟨hfirst.grown.trans hlater.grown, hlater.founded, congrArg (· + 1) hlater.length, ?_⟩
      -- The first copy stays what it is while the others are made.
      intro p hp
      rcases List.mem_cons.mp hp with rfl | hp
      · exact hfirst.copy.later hlater.grown hfirst.founded
      · exact (hlater.copy p hp).since hfirst.grown

/-- A new array of the copies of elements is a copy of the array. -/
theorem MakesCopies.alloc {made : List Value × Heap}
    (hm : MakesCopies source h (source.items i).toList made) :
    MakesCopy source h (.array i)
      (.array (made.2.alloc made.1.toArray).1, (made.2.alloc made.1.toArray).2) := by
  have hnew := extends_alloc made.2 made.1.toArray
  have hitems : ((made.2.alloc made.1.toArray).2.items (made.2.alloc made.1.toArray).1).toList =
      made.1 := by rw [items_alloc_self]
  refine ⟨hm.grown.trans hnew, hm.founded.alloc fun w hw => ?_, ?_, ?_, ?_⟩
  · rcases hm.exists_of_mem (List.mem_toArray.mp hw) with ⟨v, hcopy⟩
    exact hcopy.stored
  · rintro id ⟨⟩
    rw [size_alloc, alloc_id]
    exact Nat.lt_succ_self _
  · refine .array (by rw [hitems, hm.length]) fun p hp => ?_
    rw [hitems] at hp
    exact ((hm.copy p hp).later hnew hm.founded).copies
  · -- What is reached is the new array, or it is reached from one of the copies.
    intro id hr
    rcases reaches_cases hr with rfl | ⟨w, hw, hr⟩
    · exact hm.grown.size_le
    · rw [← Array.mem_toList_iff, hitems] at hw
      rcases hm.exists_of_mem hw with ⟨v, hcopy⟩
      exact (hcopy.later hnew hm.founded).fresh id hr

/-- A value is copied with all its arrays, by induction on how deep they are nested. -/
theorem copyWithin_spec (hs : source.Founded) (hf : h.Founded) (hv : v.Below n) :
    MakesCopy source h v (source.copyWithin n v h) := by
  induction n generalizing v h with
  | zero =>
      cases v with
      | array id => exact absurd (hv id rfl) (Nat.not_lt_zero _)
      | _ => exact ⟨extends_refl h, hf, .plain rfl⟩
  | succ n ih =>
      cases v with
      -- The elements stand below the array, so the induction applies to them.
      | array id => exact (copyList_spec hf fun v hmem _ hf => ih hf (hs.below hmem hv)).alloc
      | _ => exact ⟨extends_refl h, hf, .plain rfl⟩

/-- Deep copies are copies that share no array. -/
theorem copiedApart_deepCopies (hf : h.Founded) (ha : h.Stored a) (hb : h.Stored b) :
    h.CopiedApart a b (h.deepCopies a b).1 (h.deepCopies a b).2.1 (h.deepCopies a b).2.2 := by
  have hleft : MakesCopy h h a (h.copyWithin h.cells.size a h) := copyWithin_spec hf hf ha
  have hright := copyWithin_spec (n := h.cells.size) hf hleft.founded hb
  have hleft' := hleft.copy.later hright.grown hleft.founded
  refine ⟨hright.founded, hleft'.stored, hright.copy.stored, hleft'.copies, hright.copy.copies, ?_⟩
  -- The arrays of the first copy were there before those of the second one.
  intro id hr hr'
  have hold := (hright.grown.reaches_older hleft.founded hleft.copy.stored hr).2
  exact Nat.not_lt.mpr (hright.copy.fresh id hr') hold

theorem comparison_congr (hc : h'.compare a' b' = h.compare a b) (op : CompareOp) :
    h'.comparison op a' b' = h.comparison op a b := by
  have heq : h'.eq a' b' = h.eq a b := by
    have hiff := eqWithin_iff h' h'.cells.size a' b'
    have hiff' := eqWithin_iff h h.cells.size a b
    unfold compare at hc
    rw [hc, ← hiff'] at hiff
    exact Bool.eq_iff_iff.mpr hiff
  unfold comparison holds
  rw [hc, heq]

end Heap

/-- Values whose arrays are older than the arrays that hold them can be copied, down to the
    last element and to arrays of their own. Unless an array with an undefined float stands at
    the same place in both, every comparison of the copies yields what it yields of the values.
    Otherwise it may not: two copies of a value are equal just if no such float occurs in it. -/
theorem sharing_makes_no_difference {h : Heap} {a b : Value} (hf : h.Founded) (ha : h.Stored a)
    (hb : h.Stored b) :
    h.CopiedApart a b (h.deepCopies a b).1 (h.deepCopies a b).2.1 (h.deepCopies a b).2.2 ∧
    (¬ h.SharesNaN a b → ∀ h' a' b', h.CopiedApart a b h' a' b' →
      ∀ op, h'.comparison op a' b' = h.comparison op a b) ∧
    ∀ h' a' a'', h.CopiedApart a a h' a' a'' →
      (h'.comparison .equal a' a'' = .int 1 ↔ ∀ x, h.Occurs a x → x.isNaN = false) := by
  refine ⟨Heap.copiedApart_deepCopies hf ha hb, fun hs h' a' b' hc op => ?_, fun h' a' a'' hc => ?_⟩
  · -- Without shared NaN it does not matter that one storage is equal to itself.
    have hcompare : h.compare a b = h.elementwise h.cells.size a b :=
      Heap.compareWithin_eq_elementwise hf ha hb hs
    exact Heap.comparison_congr ((hc.compare_eq hf ha).trans hcompare.symm) op
  · rw [Heap.comparison_eq_one_iff, Heap.holds_equal_iff, hc.compare_eq hf ha]
    exact Heap.elementwise_self_iff hf ha

/-- Two lists that share a list at one place, and a list with an undefined float at different
    places. -/
def sharingHeap : Heap :=
  ⟨#[⟨1, #[.int 1, .float 2.5]⟩, ⟨1, #[.float (0.0 / 0.0)]⟩,
    ⟨2, #[.array ⟨0⟩, .int 3, .array ⟨1⟩]⟩, ⟨2, #[.array ⟨0⟩, .int 4, .int 5, .array ⟨1⟩]⟩]⟩

/-- Two lists that share a row without NaN, and one with NaN behind the first difference, compare
    as their copies do. -/
theorem sharing_makes_no_difference_rows :
    sharingHeap.Founded ∧ sharingHeap.Stored (.array ⟨2⟩) ∧ sharingHeap.Stored (.array ⟨3⟩) ∧
    ¬ sharingHeap.SharesNaN (.array ⟨2⟩) (.array ⟨3⟩) ∧
    sharingHeap.comparison .less (.array ⟨2⟩) (.array ⟨3⟩) = .int 1 ∧
    (sharingHeap.deepCopies (.array ⟨2⟩) (.array ⟨3⟩)).1.comparison .less
      (sharingHeap.deepCopies (.array ⟨2⟩) (.array ⟨3⟩)).2.1
      (sharingHeap.deepCopies (.array ⟨2⟩) (.array ⟨3⟩)).2.2 = .int 1 := by
  have hfounded : sharingHeap.Founded := by
    have holder : ∀ k < 4, ∀ v ∈ sharingHeap.items ⟨k⟩, v.isArray = true →
        (v = .array ⟨0⟩ ∨ v = .array ⟨1⟩) ∧ 1 < k := by decide +kernel
    intro id inner hmem
    rcases holder id.index (Heap.lt_of_mem_items hmem) _ hmem rfl with ⟨heq | heq, hlt⟩
    · cases heq
      exact Nat.lt_of_succ_lt hlt
    · cases heq
      exact hlt
  have hdefined : ∀ v ∈ sharingHeap.items ⟨0⟩, v = .int 1 ∨ v = .float 2.5 := by decide +kernel
  have hplaces : ∀ p ∈ (sharingHeap.items ⟨2⟩).toList.zip (sharingHeap.items ⟨3⟩).toList,
      p = (.array ⟨0⟩, .array ⟨0⟩) ∨ p.1.isArray = false ∨ p.2.isArray = false := by decide +kernel
  have hmeets : ∀ id, sharingHeap.Meets (.array ⟨2⟩) (.array ⟨3⟩) id → id = ⟨0⟩ := by
    rintro id (_ | ⟨hp, hm⟩)
    rcases hplaces _ hp with rfl | hplain | hplain
    · cases hm with
      | same => rfl
      | element hp hm =>
          -- The elements of the list that is met are numbers.
          have harray := hm.reaches.1.isArray
          rcases hdefined _ (Array.mem_toList_iff.mp (List.of_mem_zip hp).1) with heq | heq
          · rw [heq] at harray
            cases harray
          · rw [heq] at harray
            cases harray
    · exact absurd (hplain.symm.trans hm.reaches.1.isArray) Bool.false_ne_true
    · exact absurd (hplain.symm.trans hm.reaches.2.isArray) Bool.false_ne_true
  have hshares : ¬ sharingHeap.SharesNaN (.array ⟨2⟩) (.array ⟨3⟩) := by
    rintro ⟨id, x, hm, hx, hnan⟩
    rw [hmeets id hm] at hx
    rcases Heap.occurs_cases hx with ⟨w, hw, hx⟩
    rcases hdefined w hw with rfl | rfl
    · rw [Heap.eq_of_occurs hx] at hnan
      cases hnan
    · rw [Heap.eq_of_occurs hx] at hnan
      exact absurd hnan (by decide +kernel)
  have hleft : sharingHeap.Stored (.array ⟨2⟩) := by
    rintro id ⟨⟩
    decide
  have hright : sharingHeap.Stored (.array ⟨3⟩) := by
    rintro id ⟨⟩
    decide
  have hless : sharingHeap.comparison .less (.array ⟨2⟩) (.array ⟨3⟩) = .int 1 := by decide +kernel
  rcases sharing_makes_no_difference hfounded hleft hright with ⟨hcopied, hsame, _⟩
  exact ⟨hfounded, hleft, hright, hshares, hless, (hsame hshares _ _ _ hcopied .less).trans hless⟩

/-- A list that holds an undefined float is equal to itself, but not to a copy of it. -/
def undefinedHeap : Heap := ⟨#[⟨1, #[.float (0.0 / 0.0)]⟩]⟩

/-- A list holding NaN equals itself and does not equal its copy. -/
theorem sharing_makes_a_difference :
    undefinedHeap.comparison .equal (.array ⟨0⟩) (.array ⟨0⟩) = .int 1 ∧
    undefinedHeap.deepCopies (.array ⟨0⟩) (.array ⟨0⟩) =
      (⟨#[⟨1, #[.float (0.0 / 0.0)]⟩, ⟨1, #[.float (0.0 / 0.0)]⟩, ⟨1, #[.float (0.0 / 0.0)]⟩]⟩,
        .array ⟨1⟩, .array ⟨2⟩) ∧
    (undefinedHeap.deepCopies (.array ⟨0⟩) (.array ⟨0⟩)).1.comparison .equal
      (.array ⟨1⟩) (.array ⟨2⟩) = .int 0 := by
  decide +kernel

end TreeScript
