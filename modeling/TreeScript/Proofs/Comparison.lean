import TreeScript.Proofs.FloatOrder
import TreeScript.Value.Operation

/-!
# Laws of Comparison

Comparing one way is comparing the other way turned round, and two values are equal
just if they compare as equal. Both hold of all values with any allowance, whatever
arrays they are made of, since an array is compared element by element, and both ways
take the same elements together.

What an order of elements makes of lists is looked at apart from the values: each law of
lists is shown for any order, from the same law of the elements.

Equality and order are two recursions of their own, and neither is defined by the other.
They are related by `isEqv_iff` for lists, and for values by an induction on the allowance
that goes down both at once.

`Heap.Ordered` has one constructor for each way in which two values can be ordered, and every
other pair of values is unordered. A law of ordered values is then shown by cases on it, and
not by cases on both values, and only the constructor of different arrays goes down.

## Main definitions

* `Heap.Ordered`: The ways in which two values can be ordered.

## Theorems

* `lexicographic_swap`, `lexicographic_chains`, `isEqv_iff`: Laws of lists.
* `lexicographic_congr`, `lexicographic_congr_order`: When lists compare alike.
* `Heap.ordered_of_compare`, `Heap.Ordered.compare_eq`: Values compare as they are ordered.
* `Heap.compareWithin_swap`: The order is turned round with the values.
* `Heap.eqWithin_iff`: Values are equal just if they compare as equal.
* `Number.compare_swap`, `Number.eq_iff`: The laws of numbers, mixed pairs included.
* `lexicographic_cons`: The first elements decide, unless they are equal.
* `lexicographic_self_iff`: When a list is equal to itself.
-/

namespace TreeScript

namespace Number

variable {a b c : Number}

/-- Swapping two numbers swaps the verdict, floats and mixed pairs included: an unordered pair
    stays unordered. -/
theorem compare_swap (a b : Number) : b.compare a = (a.compare b).map Ordering.swap := by
  cases a with
  | float x => cases b <;> exact floatCompare_swap _ _
  | int m =>
      cases b with
      | float y => exact floatCompare_swap _ _
      | int n => exact congrArg some Std.OrientedOrd.eq_swap

/-- Two numbers are equal just if `compare` answers `eq`, which for a mixed pair is a comparison of
    floats. -/
theorem eq_iff : a.eq b = true ↔ a.compare b = some .eq := by
  -- Two integers are compared as integers. Everything else is a comparison of floats.
  have hfloat : ∀ x y : Float, (x == y) = true ↔ floatCompare x y = some .eq :=
    fun x y => beq_iff_eq (a := floatCompare x y) (b := some .eq)
  cases a with
  | float x => cases b <;> exact hfloat _ _
  | int m =>
      cases b with
      | float y => exact hfloat _ _
      | int n =>
          show (m == n) = true ↔ some (Ord.compare m.toInt n.toInt) = some .eq
          rw [beq_iff_eq, Option.some.injEq, Int.compare_eq_eq, Int64.toInt_inj]

end Number

section lists

variable {cmp : Value → Value → Option Ordering} {a b : Value} {as bs cs : List Value}

/-- The first elements decide, unless they are equal. -/
theorem lexicographic_cons (a b : Value) (as bs : List Value) :
    lexicographic cmp (a :: as) (b :: bs) =
      (cmp a b).bind fun p => if p = .eq then lexicographic cmp as bs else some p := by
  rw [lexicographic]
  rcases cmp a b with _ | _ | _ | _ <;> rfl

/-- Swapping two lists swaps the lexicographic verdict, where swapping each pair of elements
    does. -/
theorem lexicographic_swap (h : ∀ a ∈ as, ∀ b ∈ bs, cmp b a = (cmp a b).map Ordering.swap) :
    lexicographic cmp bs as = (lexicographic cmp as bs).map Ordering.swap := by
  induction as generalizing bs with
  | nil => cases bs <;> rfl
  | cons a as ih =>
      cases bs with
      | nil => rfl
      | cons b bs =>
          have hhead := h a List.mem_cons_self b List.mem_cons_self
          have hrest := ih fun a' ha b' hb =>
            h a' (List.mem_cons_of_mem a ha) b' (List.mem_cons_of_mem b hb)
          rw [lexicographic_cons, lexicographic_cons, hhead, hrest]
          rcases cmp a b with _ | _ | _ | _ <;> rfl

/-- Lists are equal element by element just if they compare as equal. -/
theorem isEqv_iff {eqv : Value → Value → Bool} (as bs : List Value)
    (h : ∀ a ∈ as, ∀ b ∈ bs, eqv a b = true ↔ cmp a b = some .eq) :
    as.isEqv bs eqv = true ↔ lexicographic cmp as bs = some .eq := by
  induction as generalizing bs with
  | nil => cases bs <;> simp [List.isEqv, lexicographic]
  | cons a as ih =>
      cases bs with
      | nil => simp [List.isEqv, lexicographic]
      | cons b bs =>
          have hrest := ih bs fun a' ha b' hb =>
            h a' (List.mem_cons_of_mem a ha) b' (List.mem_cons_of_mem b hb)
          rw [List.isEqv, Bool.and_eq_true, hrest, h a List.mem_cons_self b List.mem_cons_self,
            lexicographic_cons]
          -- Where the heads are not equal they decide, and the rest is not looked at.
          rcases cmp a b with _ | _ | _ | _ <;> simp

/-- A list is equal to itself just if its elements are. -/
theorem lexicographic_self_iff (vs : List Value) :
    lexicographic cmp vs vs = some .eq ↔ ∀ v ∈ vs, cmp v v = some .eq := by
  induction vs with
  | nil => simp [lexicographic]
  | cons v vs ih =>
      rw [lexicographic_cons, List.forall_mem_cons, ← ih]
      rcases cmp v v with _ | _ | _ | _ <;> simp

/-- Lists compare alike if the elements do that stand at the same places. -/
theorem lexicographic_congr {cmp' : Value → Value → Option Ordering} {as' bs' : List Value}
    (has : as'.length = as.length) (hbs : bs'.length = bs.length)
    (h : ∀ p ∈ as.zip as', ∀ q ∈ bs.zip bs', cmp' p.2 q.2 = cmp p.1 q.1) :
    lexicographic cmp' as' bs' = lexicographic cmp as bs := by
  induction as generalizing as' bs bs' with
  -- A list that has ended decides by the length of the other, which is the same.
  | nil =>
      cases List.eq_nil_of_length_eq_zero has
      cases bs <;> cases bs' <;> first | rfl | cases hbs
  | cons a as ih =>
      cases as' with
      | nil => cases has
      | cons a' as' =>
          cases bs with
          | nil =>
              cases List.eq_nil_of_length_eq_zero hbs
              rfl
          | cons b bs =>
              cases bs' with
              | nil => cases hbs
              | cons b' bs' =>
                  have hhead : cmp' a' b' = cmp a b :=
                    h (a, a') List.mem_cons_self (b, b') List.mem_cons_self
                  have hrest := ih (Nat.succ.inj has) (Nat.succ.inj hbs) fun p hp q hq =>
                    h p (List.mem_cons_of_mem _ hp) q (List.mem_cons_of_mem _ hq)
                  rw [lexicographic_cons, lexicographic_cons, hhead, hrest]

/-- Two orders that agree on the elements that stand at the same places agree on lists. -/
theorem lexicographic_congr_order {cmp' : Value → Value → Option Ordering}
    (h : ∀ p ∈ as.zip bs, cmp' p.1 p.2 = cmp p.1 p.2) :
    lexicographic cmp' as bs = lexicographic cmp as bs := by
  induction as generalizing bs with
  | nil => cases bs <;> rfl
  | cons a as ih =>
      cases bs with
      | nil => rfl
      | cons b bs =>
          have hhead : cmp' a b = cmp a b := h (a, b) List.mem_cons_self
          have hrest := ih fun p hp => h p (List.mem_cons_of_mem _ hp)
          rw [lexicographic_cons, lexicographic_cons, hhead, hrest]

/-- Where elements chain, lists of them do. -/
theorem lexicographic_chains (h : ∀ a ∈ as, ∀ b ∈ bs, ∀ c ∈ cs, Chains cmp a b c) :
    Chains (lexicographic cmp) as bs cs := by
  intro p q hp hq hple hqle
  induction as generalizing bs cs p q with
  | nil =>
      cases bs with
      | nil =>
          cases hp
          exact hq
      | cons b bs =>
          cases hp
          cases cs with
          | nil =>
              cases hq
              cases hqle
          | cons c cs => rfl
  | cons a as ih =>
      cases bs with
      | nil =>
          cases hp
          cases hple
      | cons b bs =>
          cases cs with
          | nil =>
              cases hq
              cases hqle
          | cons c cs =>
              rw [lexicographic_cons, Option.bind_eq_some_iff] at hp hq
              rcases hp with ⟨p₀, hp₀, hp⟩
              rcases hq with ⟨q₀, hq₀, hq⟩
              have hhead :=
                h a List.mem_cons_self b List.mem_cons_self c List.mem_cons_self p₀ q₀ hp₀ hq₀
              rw [lexicographic_cons]
              cases p₀ with
              | gt =>
                  cases hp
                  cases hple
              | lt =>
                  cases hp
                  -- The second heads cannot lead back up to the first one.
                  have hq₀le : q₀.isLE = true := by
                    cases q₀ with
                    | gt => cases hq; cases hqle
                    | _ => rfl
                  rw [hhead rfl hq₀le]
                  rfl
              | eq =>
                  cases q₀ with
                  | gt =>
                      cases hq
                      cases hqle
                  | lt =>
                      cases hq
                      rw [hhead rfl rfl]
                      cases p with
                      | gt => cases hple
                      | _ => rfl
                  | eq =>
                      rw [hhead rfl rfl]
                      have hrest := ih fun a' ha b' hb c' hc => h a' (List.mem_cons_of_mem a ha) b'
                        (List.mem_cons_of_mem b hb) c' (List.mem_cons_of_mem c hc)
                      exact hrest p q hp hq hple hqle

end lists

namespace Heap

variable {h : Heap} {n : Nat} {a b : Value} {p : Ordering}

/-- The values that are ordered are of one sort, and arrays that are not one array are ordered
    by their elements with a smaller allowance. -/
inductive Ordered (h : Heap) (n : Nat) : Value → Value → Ordering → Prop where
  | number {x y : Number} {p : Ordering} : x.compare y = some p →
      Ordered h n (.number x) (.number y) p
  | text (s t : String) : Ordered h n (.text s) (.text t) (Ord.compare s t)
  | breakMark : Ordered h n .breakMark .breakMark .eq
  | absent : Ordered h n .absent .absent .eq
  | same (i : ArrayId) : Ordered h n (.array i) (.array i) .eq
  | array {i j : ArrayId} {k : Nat} {p : Ordering} : n = k + 1 → i ≠ j →
      lexicographic (h.compareWithin k) (h.items i).toList (h.items j).toList = some p →
      Ordered h n (.array i) (.array j) p

theorem compareWithin_self_array (n : Nat) (i : ArrayId) :
    h.compareWithin n (.array i) (.array i) = some .eq := by
  cases n <;> simp [compareWithin]

/-- Two arrays with storages of their own are compared element by element, one level down. -/
theorem compareWithin_array {i j : ArrayId} (hne : i ≠ j) (n : Nat) :
    h.compareWithin (n + 1) (.array i) (.array j) =
      lexicographic (h.compareWithin n) (h.items i).toList (h.items j).toList := by
  simp [compareWithin, hne]

/-- The relation is what the function computes: a derivation fixes the answer. -/
theorem Ordered.compare_eq (ho : Ordered h n a b p) : h.compareWithin n a b = some p := by
  cases ho with
  | number hp => cases n <;> exact hp
  | text s t => cases n <;> rfl
  | breakMark => cases n <;> rfl
  | absent => cases n <;> rfl
  | same i => exact compareWithin_self_array n i
  | array hn hne hp =>
      rw [hn, compareWithin_array hne]
      exact hp

/-- The converse: an answer of the function has a derivation. -/
theorem ordered_of_compare (hp : h.compareWithin n a b = some p) : Ordered h n a b p := by
  -- Values of different sorts are not ordered, so only one case is left for each sort.
  cases a with
  | number x =>
      cases b with
      | number y => cases n <;> exact .number hp
      | _ => cases n <;> cases hp
  | text s =>
      cases b with
      | text t => cases n <;> cases hp <;> exact .text s t
      | _ => cases n <;> cases hp
  | array i =>
      cases b with
      | array j =>
          by_cases hij : i = j
          · subst hij
            rw [compareWithin_self_array] at hp
            cases hp
            exact .same i
          · cases n with
            | zero => simp [compareWithin, hij] at hp
            | succ n =>
                rw [compareWithin_array hij] at hp
                exact .array rfl hij hp
      | _ => cases n <;> cases hp
  | breakMark =>
      cases b with
      | breakMark => cases n <;> cases hp <;> exact .breakMark
      | _ => cases n <;> cases hp
  | absent =>
      cases b with
      | absent => cases n <;> cases hp <;> exact .absent
      | _ => cases n <;> cases hp

/-- A comparison that is turned round where it is defined is turned round everywhere. -/
theorem eq_map_swap {cmp : Value → Value → Option Ordering}
    (hswap : ∀ a b p, cmp a b = some p → cmp b a = some p.swap) (a b : Value) :
    cmp b a = (cmp a b).map Ordering.swap := by
  cases hab : cmp a b with
  | some p => exact hswap a b p hab
  | none =>
      cases hba : cmp b a with
      | none => rfl
      | some q =>
          -- An order of the swapped pair would give one of the pair itself.
          have hback := hswap b a q hba
          rw [hab] at hback
          cases hback

/-- A derivation read from right to left. The shallower levels are taken as a hypothesis, so that
    the induction on the depth can supply them. -/
theorem Ordered.swap (ho : Ordered h n a b p)
    (hless : ∀ k, n = k + 1 →
      ∀ a b, h.compareWithin k b a = (h.compareWithin k a b).map Ordering.swap) :
    h.compareWithin n b a = some p.swap := by
  cases ho with
  | number hp =>
      have hswap := (Number.compare_swap _ _).trans (congrArg _ hp)
      cases n <;> exact hswap
  | text s t =>
      have hswap := congrArg some (Std.OrientedOrd.eq_swap (a := t) (b := s))
      cases n <;> exact hswap
  | breakMark => cases n <;> rfl
  | absent => cases n <;> rfl
  | same i => exact compareWithin_self_array n i
  -- Only here does the verdict come from a smaller depth.
  | array hn hne hp =>
      rw [hn, compareWithin_array (Ne.symm hne),
        lexicographic_swap fun a _ b _ => hless _ hn a b, hp]
      rfl

/-- The order is turned round with the values. -/
theorem compareWithin_swap (h : Heap) (n : Nat) (a b : Value) :
    h.compareWithin n b a = (h.compareWithin n a b).map Ordering.swap := by
  induction n generalizing a b with
  | zero =>
      have hturn : ∀ a b p, h.compareWithin 0 a b = some p → h.compareWithin 0 b a = some p.swap :=
        fun a b p hp => (ordered_of_compare hp).swap fun k hk => absurd hk (Nat.zero_ne_add_one k)
      -- Turning round a verdict twice gives it back, so one direction is enough.
      exact eq_map_swap hturn a b
  | succ n ih =>
      have hturn : ∀ a b p, h.compareWithin (n + 1) a b = some p →
          h.compareWithin (n + 1) b a = some p.swap := by
        refine fun a b p hp => (ordered_of_compare hp).swap fun k hk => ?_
        cases hk
        exact ih
      exact eq_map_swap hturn a b

/-- Values are equal just if they compare as equal. -/
theorem eqWithin_iff (h : Heap) (n : Nat) (a b : Value) :
    h.eqWithin n a b = true ↔ h.compareWithin n a b = some .eq := by
  induction n generalizing a b with
  | zero =>
      cases a <;> cases b <;> simp [eqWithin, compareWithin, Number.eq_iff]
  | succ n ih =>
      cases a with
      | array i =>
          cases b with
          | array j =>
              -- Two arrays are equal if they are one storage, or if their elements are.
              have helements :=
                isEqv_iff (h.items i).toList (h.items j).toList fun a _ b _ => ih a b
              simp only [eqWithin, compareWithin, Bool.or_eq_true, beq_iff_eq]
              rw [← Array.isEqv_toList, helements]
              by_cases hij : i = j <;> simp [hij]
          | _ => simp [eqWithin, compareWithin]
      | _ => cases b <;> simp [eqWithin, compareWithin, Number.eq_iff]

end Heap

end TreeScript
