import TreeScript.Proofs.Arrays
import TreeScript.Proofs.Comparison
import TreeScript.Proofs.Conversion

/-!
# Equality and Order Taken Together

Two integers are compared exactly, and an integer and a float as floats. So two integers
that differ may both be equal to the float that both are rounded to, and then neither
equality nor order is transitive: the float is between the integers and equal to both.
Lists of numbers can even be put in a circle, each less than the next one.

This is all that can go wrong. Rounding never changes the order of two integers to the
opposite one, and floats are ordered as usual. So among numbers where no float is equal
to two integers, comparisons add up; and if that is true of the numbers that occur in
some values, the comparisons of these values add up, however they are nested.

The laws of numbers are shown for each mixture of integers and floats on its own, since
the argument differs: with one integer everything is a comparison of floats, and with two
the integers are rounded in order and only a tie is in question. A tie of two integers is
where the assumption is needed, and it is the only place.

A number occurs in a value if it is found by following elements, however far down. What a
comparison comes to is less than that, but the assumption is about the values, and holds of
an element if it holds of the array.

## Main definitions

* `Separated`: Numbers among which no float is equal to two integers.
* `Heap.Occurs`: The numbers that occur in a value.

## Theorems

* `Number.compare_chains`: Comparisons of separated numbers add up.
* `Heap.compareWithin_chains`: So do comparisons of values in which they occur.
* `comparison_is_transitive`: The laws of equality and order.
* `comparison_is_not_transitive`: Numbers and lists of which they fail.
* `Number.toFloat_mono`: Rounding keeps the order of integers.
* `Number.chains_below`, `Number.chains_above`, `Number.chains_between`,
  `Number.chains_ints`: One float and two integers, and three integers.
* `comparison_is_transitive_mixed`: An example with integers and a float.
-/

namespace TreeScript

/-- Numbers among which no float is equal to two integers that differ. -/
def Separated (S : Number → Prop) : Prop :=
  ∀ x m n, S (.float x) → S (.int m) → S (.int n) → (Number.float x).eq (.int m) = true →
    (Number.float x).eq (.int n) = true → m = n

namespace Number

variable {S : Number → Prop} {l m n : Int64} {x y z : Float} {p q : Ordering}

/-- An integer of a word is far below the largest float. -/
theorem log2_natAbs (n : Int64) : n.toInt.natAbs.log2 ≤ 1000 := by
  have hlow : -2 ^ 63 ≤ n.toInt := n.le_toInt
  have hhigh : n.toInt < 2 ^ 63 := n.toInt_lt
  have habs : n.toInt.natAbs ≤ 2 ^ 63 := by omega
  have hlog : n.toInt.natAbs.log2 ≤ (2 ^ 63).log2 := by
    by_cases hzero : n.toInt.natAbs = 0
    · rw [hzero]
      exact Nat.zero_le _
    · exact (Nat.le_log2 (by decide)).mpr (Nat.le_trans (Nat.log2_self_le hzero) habs)
  rw [Nat.log2_two_pow] at hlog
  omega

/-- An integer that is not less is converted to a float that is not less. -/
theorem toFloat_mono (h : m.toInt ≤ n.toInt) :
    ∃ o, floatCompare (toFloat (.int m)) (toFloat (.int n)) = some o ∧ o.isLE = true :=
  floatCompare_ofInt h (log2_natAbs m) (log2_natAbs n)

theorem eq_int (h : floatCompare x (toFloat (.int m)) = some .eq) :
    (Number.float x).eq (.int m) = true := eq_iff.mpr h

theorem eq_int' (h : floatCompare (toFloat (.int m)) x = some .eq) :
    (Number.float x).eq (.int m) = true :=
  eq_int ((floatCompare_swap _ _).trans (congrArg _ h))

theorem compare_int_eq (h : Number.compare (.int m) (.int n) = some .eq) : m = n :=
  Int64.toInt_inj.mp (Int.compare_eq_eq.mp (Option.some.inj h))

theorem compare_int_lt (h : Number.compare (.int m) (.int n) = some .lt) : m.toInt < n.toInt :=
  Int.compare_eq_lt.mp (Option.some.inj h)

/-- Two integers below a float that is not equal to both. -/
theorem chains_below
    (hapart : (float z).eq (.int l) = true → (float z).eq (.int m) = true → l = m) :
    Chains Number.compare (.int l) (.int m) (.float z) := by
  intro p q hp hq hple hqle
  cases p with
  | gt => cases hple
  | eq =>
      cases compare_int_eq hp
      exact hq
  | lt =>
      have hlt := compare_int_lt hp
      rcases toFloat_mono (Int.le_of_lt hlt) with ⟨o, ho, hole⟩
      have hchain := floatCompare_chains _ _ _ o q ho hq hole hqle
      -- If both integers are rounded to one float and that is equal to the third one, they are
      -- one integer.
      cases o with
      | gt => cases hole
      | lt => exact hchain
      | eq =>
          cases q with
          | gt => cases hqle
          | lt => exact hchain
          | eq =>
              cases hapart (eq_int' hchain) (eq_int' hq)
              exact absurd hlt (Int.lt_irrefl _)

/-- Two integers above a float that is not equal to both. -/
theorem chains_above
    (hapart : (float x).eq (.int m) = true → (float x).eq (.int n) = true → m = n) :
    Chains Number.compare (.float x) (.int m) (.int n) := by
  intro p q hp hq hple hqle
  cases q with
  | gt => cases hqle
  | eq =>
      cases compare_int_eq hq
      cases p <;> exact hp
  | lt =>
      have hlt := compare_int_lt hq
      rcases toFloat_mono (Int.le_of_lt hlt) with ⟨o, ho, hole⟩
      -- The two integers are rounded in order, so the floats chain.
      have hchain := floatCompare_chains _ _ _ p o hp ho hple hole
      cases p with
      | gt => cases hple
      | lt => exact hchain
      | eq =>
          cases o with
          | gt => cases hole
          | lt => exact hchain
          | eq =>
              -- Both integers would be equal to the float, which is what the hypothesis excludes.
              cases hapart (eq_int hp) (eq_int hchain)
              exact absurd hlt (Int.lt_irrefl _)

/-- A float between two integers that is not equal to both. -/
theorem chains_between
    (hapart : (float y).eq (.int l) = true → (float y).eq (.int n) = true → l = n) :
    Chains Number.compare (.int l) (.float y) (.int n) := by
  intro p q hp hq hple hqle
  have hchain := floatCompare_chains _ _ _ p q hp hq hple hqle
  -- A float that is level with both integers allows for one integer only.
  have hcollide : p = .eq → q = .eq → l = n := by
    rintro rfl rfl
    exact hapart (eq_int' hp) (eq_int hq)
  show some (Ord.compare l.toInt n.toInt) = some (p.then q)
  rcases Int.lt_trichotomy l.toInt n.toInt with hlt | heq | hgt
  · rw [Int.compare_eq_lt.mpr hlt]
    cases p with
    | gt => cases hple
    | lt => rfl
    | eq =>
        cases q with
        | gt => cases hqle
        | lt => rfl
        | eq =>
            cases hcollide rfl rfl
            exact absurd hlt (Int.lt_irrefl _)
  · cases Int64.toInt_inj.mp heq
    rw [Int.compare_eq_eq.mpr rfl, floatCompare_self hchain]
  · -- Rounding does not turn the order round, so both floats are the same one.
    rcases toFloat_mono (Int.le_of_lt hgt) with ⟨o, ho, hole⟩
    rw [floatCompare_swap, hchain] at ho
    cases p with
    | gt => cases hple
    | lt =>
        cases ho
        cases hole
    | eq =>
        cases q with
        | gt => cases hqle
        | lt =>
            cases ho
            cases hole
        | eq =>
            cases hcollide rfl rfl
            exact absurd hgt (Int.lt_irrefl _)

theorem chains_ints (l m n : Int64) : Chains Number.compare (.int l) (.int m) (.int n) := by
  have htotal : Chains (fun y z : Int => some (Ord.compare y z)) l.toInt m.toInt n.toInt :=
    chains_of_total _ _ _
  exact htotal

/-- Comparisons of separated numbers add up. -/
theorem compare_chains {a b c : Number} (hS : Separated S) (ha : S a) (hb : S b) (hc : S c) :
    Chains Number.compare a b c := by
  -- With two floats or three, everything is compared as floats.
  cases a with
  | float x =>
      cases b with
      | float y => cases c <;> exact floatCompare_chains _ _ _
      | int m =>
          cases c with
          | float z => exact floatCompare_chains _ _ _
          | int n => exact chains_above (hS x m n ha hb hc)
  | int l =>
      cases b with
      | float y =>
          cases c with
          | float z => exact floatCompare_chains _ _ _
          | int n => exact chains_between (hS y l n hb ha hc)
      | int m =>
          cases c with
          | float z => exact chains_below (hS z l m hc ha hb)
          | int n => exact chains_ints l m n

/-- The strict order of numbers is transitive, whether they are separated or not. -/
theorem compare_lt_trans {a b c : Number} (hab : a.compare b = some .lt)
    (hbc : b.compare c = some .lt) : a.compare c = some .lt := by
  -- A float that is equal to two of them would be equal to its neighbour.
  have hne : ∀ {u v : Number}, u.compare v = some .lt → u.eq v = true → False := fun hlt heq => by
    rw [eq_iff.mp heq] at hlt
    cases hlt
  have hne' : ∀ {u v : Number}, u.compare v = some .lt → v.eq u = true → False := fun hlt heq => by
    rw [compare_swap, eq_iff.mp heq] at hlt
    cases hlt
  suffices hchain : Chains Number.compare a b c from hchain .lt .lt hab hbc rfl rfl
  cases a with
  | float x =>
      cases b with
      | float y => cases c <;> exact floatCompare_chains _ _ _
      | int m =>
          cases c with
          | float z => exact floatCompare_chains _ _ _
          | int n => exact chains_above fun heq _ => (hne hab heq).elim
  | int l =>
      cases b with
      | float y =>
          cases c with
          | float z => exact floatCompare_chains _ _ _
          | int n => exact chains_between fun heq _ => (hne' hab heq).elim
      | int m =>
          cases c with
          | float z => exact chains_below fun _ heq => (hne' hbc heq).elim
          | int n => exact chains_ints l m n

end Number

namespace Heap

variable {h : Heap} {a b c v : Value} {id : ArrayId} {x : Number} {S : Number → Prop}

/-- A number occurs in a value if it is the value, or an element of an array that is reached
    from there. -/
def Occurs (h : Heap) (v : Value) (x : Number) : Prop :=
  v = .number x ∨ ∃ id, h.Reaches v id ∧ .number x ∈ h.items id

/-- What occurs in an element occurs in the array. -/
theorem occurs_of_element (hv : v ∈ h.items id) (ho : h.Occurs v x) : h.Occurs (.array id) x := by
  rcases ho with rfl | ⟨inner, hr, hx⟩
  · exact Or.inr ⟨id, .self rfl, hv⟩
  · exact Or.inr ⟨inner, reaches_of_element hv hr, hx⟩

/-- What is reached from an array is the array, or it is reached from an element. -/
theorem reaches_cases {inner : ArrayId} (hr : h.Reaches (.array id) inner) :
    inner = id ∨ ∃ w ∈ h.items id, h.Reaches w inner := by
  induction hr with
  | self heq =>
      cases heq
      exact Or.inl rfl
  | element _ hmem ih =>
      -- The first step of the path is found by induction, since paths are extended at the end.
      rcases ih with rfl | ⟨w, hw, hr⟩
      · exact Or.inr ⟨_, hmem, .self rfl⟩
      · exact Or.inr ⟨w, hw, hr.element hmem⟩

/-- What occurs in an array occurs in an element. -/
theorem occurs_cases (ho : h.Occurs (.array id) x) : ∃ w ∈ h.items id, h.Occurs w x := by
  rcases ho with heq | ⟨inner, hr, hx⟩
  · cases heq
  · rcases reaches_cases hr with rfl | ⟨w, hw, hr⟩
    · exact ⟨_, hx, .inl rfl⟩
    · exact ⟨w, hw, .inr ⟨inner, hr, hx⟩⟩

theorem eq_of_occurs {y : Number} (ho : h.Occurs (.number y) x) : x = y := by
  rcases ho with heq | ⟨inner, hr, _⟩
  · cases heq
    rfl
  · cases hr.isArray

/-- The numbers that occur in a value belong to a class. -/
def Within (h : Heap) (S : Number → Prop) (v : Value) : Prop := ∀ x, h.Occurs v x → S x

theorem Within.element (hv : h.Within S (.array id)) {w : Value} (hw : w ∈ (h.items id).toList) :
    h.Within S w :=
  fun x hx => hv x (occurs_of_element (Array.mem_toList_iff.mp hw) hx)

/-- Arrays chain where their elements do, with the smaller allowance. -/
theorem arrays_chain {n : Nat} {i j k : ArrayId} (hij : i ≠ j) (hjk : j ≠ k)
    (helements : ∀ a ∈ (h.items i).toList, ∀ b ∈ (h.items j).toList, ∀ c ∈ (h.items k).toList,
      Chains (h.compareWithin n) a b c) :
    Chains (h.compareWithin (n + 1)) (.array i) (.array j) (.array k) := by
  intro p q hp hq hple hqle
  by_cases hik : i = k
  · -- The way there and the way back are both not down, so they are level.
    subst hik
    rw [compareWithin_swap, hp] at hq
    cases hq
    rw [compareWithin_self_array]
    cases p with
    | gt => cases hple
    | lt => cases hqle
    | eq => rfl
  · rw [compareWithin_array hij] at hp
    rw [compareWithin_array hjk] at hq
    rw [compareWithin_array hik]
    exact lexicographic_chains helements p q hp hq hple hqle

/-- Comparisons of values add up if the numbers that occur in them are separated. -/
theorem compareWithin_chains (hS : Separated S) (n : Nat) (ha : h.Within S a) (hb : h.Within S b)
    (hc : h.Within S c) : Chains (h.compareWithin n) a b c := by
  -- The allowance is the measure: elements are compared with less of it.
  induction n using Nat.strongRecOn generalizing a b c with
  | ind n ih =>
      intro p q hp hq hple hqle
      cases ordered_of_compare hp with
      | number hxy =>
          cases ordered_of_compare hq with
          | number hyz =>
              have hchain :=
                Number.compare_chains hS (ha _ (.inl rfl)) (hb _ (.inl rfl)) (hc _ (.inl rfl))
              exact (Ordered.number (hchain p q hxy hyz hple hqle)).compare_eq
      | text s t =>
          cases ordered_of_compare hq with
          | text _ u =>
              rw [← compare_then hple hqle]
              exact (Ordered.text s u).compare_eq
      | breakMark => exact hq
      | absent => exact hq
      | same i => exact hq
      | array hn hij _ =>
          cases ordered_of_compare hq with
          | same j => cases p <;> exact hp
          | array _ hjk _ =>
              subst hn
              have hchain := arrays_chain hij hjk fun a hai b hbj c hck =>
                ih _ (Nat.lt_succ_self _) (ha.element hai) (hb.element hbj) (hc.element hck)
              exact hchain p q hp hq hple hqle

theorem comparison_eq_one_iff {op : CompareOp} :
    h.comparison op a b = .int 1 ↔ h.holds op a b = true := by
  unfold comparison Value.ofBool
  cases h.holds op a b <;> simp [Value.int]

theorem holds_equal_iff : h.holds .equal a b = true ↔ h.compare a b = some .eq :=
  eqWithin_iff h _ a b

theorem holds_less_iff : h.holds .less a b = true ↔ h.compare a b = some .lt := beq_iff_eq

/-- Being less or equal needs an order: of unordered values it is false. -/
theorem holds_lessEqual_iff :
    h.holds .lessEqual a b = true ↔ ∃ p, h.compare a b = some p ∧ p.isLE = true := by
  show (h.compare a b).any Ordering.isLE = true ↔ _
  rw [Option.any_eq_true]

end Heap

/-- On values in which no float is equal to two integers that differ, as they occur at any
    depth, equality and the orders are transitive, and they fit together. On numbers alone
    the strict order is always transitive. -/
theorem comparison_is_transitive (h : Heap) :
    (∀ a b c, Separated (fun x => h.Occurs a x ∨ h.Occurs b x ∨ h.Occurs c x) →
      (h.comparison .equal a b = .int 1 → h.comparison .equal b c = .int 1 →
        h.comparison .equal a c = .int 1) ∧
      (h.comparison .less a b = .int 1 → h.comparison .less b c = .int 1 →
        h.comparison .less a c = .int 1) ∧
      (h.comparison .equal a b = .int 1 → h.comparison .less b c = .int 1 →
        h.comparison .less a c = .int 1) ∧
      (h.comparison .lessEqual a b = .int 1 → h.comparison .lessEqual b c = .int 1 →
        h.comparison .lessEqual a c = .int 1)) ∧
    ∀ x y z : Number, h.comparison .less (.number x) (.number y) = .int 1 →
      h.comparison .less (.number y) (.number z) = .int 1 →
      h.comparison .less (.number x) (.number z) = .int 1 := by
  simp only [Heap.comparison_eq_one_iff, Heap.holds_equal_iff, Heap.holds_less_iff,
    Heap.holds_lessEqual_iff]
  constructor
  · intro a b c hS
    have hchain : Chains h.compare a b c := Heap.compareWithin_chains hS _
      (fun x hx => Or.inl hx) (fun x hx => Or.inr (Or.inl hx)) (fun x hx => Or.inr (Or.inr hx))
    refine ⟨fun hab hbc => hchain _ _ hab hbc rfl rfl, fun hab hbc => hchain _ _ hab hbc rfl rfl,
      fun hab hbc => hchain _ _ hab hbc rfl rfl, ?_⟩
    rintro ⟨p, hp, hple⟩ ⟨q, hq, hqle⟩
    refine ⟨p.then q, hchain p q hp hq hple hqle, ?_⟩
    -- The outer verdict is the first one that decides, and neither was greater.
    cases p <;> assumption
  · intro x y z hxy hyz
    cases Heap.ordered_of_compare hxy with
    | number hxy =>
        cases Heap.ordered_of_compare hyz with
        | number hyz => exact (Heap.Ordered.number (Number.compare_lt_trans hxy hyz)).compare_eq

/-- Lists of integers and floats, where one number occurs as both. -/
def mixedHeap : Heap :=
  ⟨#[⟨1, #[.int 1, .float 2.5]⟩, ⟨1, #[.float 1.0, .int 3]⟩, ⟨2, #[.int 2, .array ⟨0⟩]⟩]⟩

/-- The numbers in these lists. -/
def mixedNumbers : List Number := [.int 1, .float 2.5, .float 1.0, .int 3, .int 2]

theorem mem_mixedNumbers {x : Number} (hx : mixedHeap.Occurs (.array ⟨0⟩) x ∨
    mixedHeap.Occurs (.array ⟨1⟩) x ∨ mixedHeap.Occurs (.array ⟨2⟩) x) : x ∈ mixedNumbers := by
  have hnumber : ∀ w ∈ mixedNumbers.map Value.number, mixedHeap.Occurs w x → x ∈ mixedNumbers := by
    intro w hw hx
    rcases List.mem_map.mp hw with ⟨y, hy, rfl⟩
    rwa [Heap.eq_of_occurs hx]
  have hfirst : mixedHeap.Occurs (.array ⟨0⟩) x → x ∈ mixedNumbers := fun hx => by
    rcases Heap.occurs_cases hx with ⟨w, hw, hx⟩
    have hall : ∀ w ∈ mixedHeap.items ⟨0⟩, w ∈ mixedNumbers.map Value.number := by decide +kernel
    exact hnumber w (hall w hw) hx
  rcases hx with hx | hx | hx
  · exact hfirst hx
  · rcases Heap.occurs_cases hx with ⟨w, hw, hx⟩
    have hall : ∀ w ∈ mixedHeap.items ⟨1⟩, w ∈ mixedNumbers.map Value.number := by decide +kernel
    exact hnumber w (hall w hw) hx
  · rcases Heap.occurs_cases hx with ⟨w, hw, hx⟩
    have hall : ∀ w ∈ mixedHeap.items ⟨2⟩,
        w ∈ mixedNumbers.map Value.number ∨ w = .array ⟨0⟩ := by decide +kernel
    -- The last list holds the first one, so its numbers are there twice.
    rcases hall w hw with hw | rfl
    · exact hnumber w hw hx
    · exact hfirst hx

/-- Three lists of integers and floats in a chain. -/
theorem comparison_is_transitive_mixed :
    Separated (fun x => mixedHeap.Occurs (.array ⟨0⟩) x ∨ mixedHeap.Occurs (.array ⟨1⟩) x ∨
        mixedHeap.Occurs (.array ⟨2⟩) x) ∧
      mixedHeap.comparison .less (.array ⟨0⟩) (.array ⟨1⟩) = .int 1 ∧
      mixedHeap.comparison .less (.array ⟨1⟩) (.array ⟨2⟩) = .int 1 ∧
      mixedHeap.comparison .less (.array ⟨0⟩) (.array ⟨2⟩) = .int 1 := by
  -- Every number that occurs is in the list, and of the list it can be checked.
  have hapart : ∀ u ∈ mixedNumbers, ∀ v ∈ mixedNumbers, ∀ w ∈ mixedNumbers, u.type = .float →
      v.type = .int → w.type = .int → u.eq v = true → u.eq w = true → v = w := by decide +kernel
  have hsep : Separated (fun x => mixedHeap.Occurs (.array ⟨0⟩) x ∨
      mixedHeap.Occurs (.array ⟨1⟩) x ∨ mixedHeap.Occurs (.array ⟨2⟩) x) :=
    fun x m n hx hm hn hxm hxn => Number.int.inj <| hapart _ (mem_mixedNumbers hx) _
      (mem_mixedNumbers hm) _ (mem_mixedNumbers hn) rfl rfl rfl hxm hxn
  have hab : mixedHeap.comparison .less (.array ⟨0⟩) (.array ⟨1⟩) = .int 1 := by decide +kernel
  have hbc : mixedHeap.comparison .less (.array ⟨1⟩) (.array ⟨2⟩) = .int 1 := by decide +kernel
  exact ⟨hsep, hab, hbc, ((comparison_is_transitive mixedHeap).1 _ _ _ hsep).2.1 hab hbc⟩

/-- Two integers that are rounded to one float, and lists that begin with one of the three. -/
def collidingHeap : Heap := ⟨#[⟨1, #[.int 9007199254740993, .int 1]⟩,
  ⟨1, #[.float 9007199254740992.0, .int 2]⟩, ⟨1, #[.int 9007199254740992, .int 3]⟩]⟩

/-- None of the laws holds of all values: equality passes from one integer to another over a
    float, and three lists are in a circle. -/
theorem comparison_is_not_transitive :
    (collidingHeap.comparison .equal (.int 9007199254740993) (.float 9007199254740992.0) = .int 1 ∧
      collidingHeap.comparison .equal (.float 9007199254740992.0) (.int 9007199254740992) = .int 1 ∧
      collidingHeap.comparison .equal (.int 9007199254740993) (.int 9007199254740992) = .int 0) ∧
    (collidingHeap.comparison .less (.array ⟨0⟩) (.array ⟨1⟩) = .int 1 ∧
      collidingHeap.comparison .less (.array ⟨1⟩) (.array ⟨2⟩) = .int 1 ∧
      collidingHeap.comparison .less (.array ⟨0⟩) (.array ⟨2⟩) = .int 0) ∧
    (collidingHeap.comparison .equal (.float 9007199254740992.0) (.int 9007199254740992) = .int 1 ∧
      collidingHeap.comparison .less (.int 9007199254740992) (.int 9007199254740993) = .int 1 ∧
      collidingHeap.comparison .less (.float 9007199254740992.0) (.int 9007199254740993) = .int 0) ∧
    collidingHeap.comparison .lessEqual (.int 9007199254740993) (.float 9007199254740992.0) =
        .int 1 ∧
      collidingHeap.comparison .lessEqual (.float 9007199254740992.0) (.int 9007199254740992) =
        .int 1 ∧
      collidingHeap.comparison .lessEqual (.int 9007199254740993) (.int 9007199254740992) =
        .int 0 := by
  decide +kernel

end TreeScript
