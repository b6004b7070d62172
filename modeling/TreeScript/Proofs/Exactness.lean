import Mathlib.Algebra.Order.Ring.Int
import TreeScript.Proofs.Indexing

/-!
# Exact Arithmetic on Integers

Of two integers, a sum, a difference, a product, a remainder and a power are the integers that
they are in mathematics, or there is a fault that says that this integer does not fit into 64
bits. None of them is ever rounded to a float.

For powers this is not visible from the way in which they are computed. A power is found by
squaring, and the squares that are multiplied are checked like any other product, so that one
of them might not fit although the power does. It cannot: a square that is formed is a factor
of the power, and being positive it makes a product that does not fit greater still. Only the
magnitude of the least integer would be in the way, which fits with one sign and not with the
other, and that is no square. Where the base is zero, one or minus one, only the parity of the
exponent matters, and whether it is zero; any other base at least doubles the magnitude with
each factor, so a power whose exponent is too great to be tried is out of range.

Remainders come from the division that cuts off its quotient. A remainder is smaller than the
divisor and so it always fits, but the quotient may not: the least integer has no opposite.

## Main definitions

* `Exactly`: An operator on integers answers with a given integer, if it fits.

## Theorems

* `not_fits_mul`, `not_fits_mul_square`: What does not fit does not fit as a factor.
* `timesPower?_eq`: The product with a power is found if it fits.
* `not_fits_pow`: Powers with too great an exponent.
* `intPower?_eq`: The power of an integer is found if it fits.
* `intRemainder?_eq`: The remainder of two integers is found if the quotient fits.
* `integer_arithmetic_is_exact`: The operators on two integers.
-/

namespace TreeScript

/-- An operator on integers answers with this integer, or with the fault that it does not fit
    into 64 bits. -/
def Exactly (answer : Except Fault Produced) (op : ArithOp) (z : Int) : Prop :=
  if -2 ^ 63 ≤ z ∧ z < 2 ^ 63 then ∃ n : Int64, n.toInt = z ∧ answer = .ok (.value (.int n))
  else answer = .error (.overflow op)

variable {a b z : Int} {e : Nat}

/-- An operator that makes an integer of 64 bits, if there is one, is exact. -/
theorem exactly_orOverflow (op : ArithOp) (z : Int) :
    Exactly ((Number.orOverflow op (int64? z)).map fun n => .value (.number n)) op z := by
  unfold Exactly
  cases hz : int64? z with
  | some n =>
      have hn := int64?_eq_some_iff.mp hz
      rw [if_pos (hn ▸ ⟨n.le_toInt, n.toInt_lt⟩)]
      exact ⟨n, hn, rfl⟩
  | none =>
      rw [if_neg (int64?_eq_none_iff.mp hz)]
      rfl

/-- An exact answer is an integer: there is no way to a float. -/
theorem Exactly.eq_int {answer : Except Fault Produced} {op : ArithOp} {p : Produced}
    (h : Exactly answer op z) (hp : answer = .ok p) : ∃ n : Int64, p = .value (.int n) := by
  unfold Exactly at h
  split at h
  · rcases h with ⟨n, -, hn⟩
    exact ⟨n, Except.ok.inj (hp.symm.trans hn)⟩
  · rw [h] at hp
    cases hp

/-- A product that does not fit does not fit either when a positive factor is added. -/
theorem not_fits_mul {x y : Int} (hx : ¬(-2 ^ 63 ≤ x ∧ x < 2 ^ 63)) (hy : 1 ≤ y) :
    ¬(-2 ^ 63 ≤ x * y ∧ x * y < 2 ^ 63) := by
  rcases Int.lt_or_le x (-2 ^ 63) with hlow | hhigh
  · have hmul : x * y ≤ x * 1 := Int.mul_le_mul_of_nonpos_left (by omega) hy
    omega
  · have hmul : x * 1 ≤ x * y := Int.mul_le_mul_of_nonneg_left hy (by omega)
    omega

/-- A square that does not fit is greater than the magnitude of the least integer, since that
    is no square. -/
theorem lt_square_of_not_fits {x : Int} (hx : ¬(-2 ^ 63 ≤ x * x ∧ x * x < 2 ^ 63)) :
    2 ^ 63 < x * x := by
  have hself : x * x = x.natAbs * x.natAbs := Int.natAbs_mul_self.symm
  -- A square that does not fit has a base of at least the root of 2 ^ 63.
  have hle : 3037000500 ≤ x.natAbs := by
    by_contra hlt
    have hmul : x.natAbs * x.natAbs ≤ 3037000499 * 3037000499 :=
      Nat.mul_le_mul (by omega) (by omega)
    omega
  have hmul : 3037000500 * 3037000500 ≤ x.natAbs * x.natAbs := Nat.mul_le_mul hle hle
  omega

/-- Neither does a product with it and any other factor but zero. -/
theorem not_fits_mul_square {x y : Int} (hx : ¬(-2 ^ 63 ≤ x * x ∧ x * x < 2 ^ 63)) (hy : y ≠ 0) :
    ¬(-2 ^ 63 ≤ y * (x * x) ∧ y * (x * x) < 2 ^ 63) := by
  have hlt := lt_square_of_not_fits hx
  rcases Int.lt_or_gt_of_ne hy with hneg | hpos
  · have hmul : y * (x * x) ≤ -1 * (x * x) := Int.mul_le_mul_of_nonneg_right (by omega) (by omega)
    omega
  · have hmul : 1 * (x * x) ≤ y * (x * x) := Int.mul_le_mul_of_nonneg_right (by omega) (by omega)
    omega

/-- The first digit of the exponent decides on the first factor, and the others belong to the
    powers of the square. -/
theorem mul_pow_digits (a b : Int) (e : Nat) :
    a * b ^ e = a * b ^ (e % 2) * (b * b) ^ (e / 2) := by
  calc a * b ^ e = a * b ^ (e % 2 + 2 * (e / 2)) := by rw [Nat.mod_add_div]
    _ = a * b ^ (e % 2) * (b * b) ^ (e / 2) := by rw [pow_add, pow_mul, sq, mul_assoc]

/-- The first factor is multiplied if the digit calls for it. -/
theorem firstFactor_eq (acc base : Int64) (e : Nat) :
    (if e % 2 = 1 then intProduct? acc base else some acc) =
      int64? (acc.toInt * base.toInt ^ (e % 2)) := by
  rcases Nat.mod_two_eq_zero_or_one e with heven | hodd
  · rw [heven, if_neg (by decide), pow_zero, mul_one, int64?_eq_some_iff.mpr rfl]
  · rw [hodd, if_pos rfl, pow_one, intProduct?]

/-- The product with a power is found if it fits into 64 bits. -/
theorem timesPower?_eq {acc base : Int64} (hbase : base.toInt ≠ 0) (hacc : acc.toInt ≠ 0)
    (e : Nat) : timesPower? acc base e = int64? (acc.toInt * base.toInt ^ e) := by
  -- A product that is left out at some point is a factor of the whole, with the same sign or
  -- with a greater magnitude, so the whole does not fit either.
  induction e using Nat.strongRecOn generalizing acc base with
  | ind e ih =>
      have hsquare : 1 ≤ base.toInt * base.toInt := mul_self_pos.mpr hbase
      unfold timesPower?
      rw [mul_pow_digits, firstFactor_eq]
      cases hx : int64? (acc.toInt * base.toInt ^ (e % 2)) with
      | none =>
          have hpow := one_le_pow₀ (n := e / 2) hsquare
          exact (int64?_eq_none_iff.mpr (not_fits_mul (int64?_eq_none_iff.mp hx) hpow)).symm
      | some x =>
          have hvalue := int64?_eq_some_iff.mp hx
          have hne : x.toInt ≠ 0 := hvalue ▸ mul_ne_zero hacc (pow_ne_zero _ hbase)
          rw [Option.bind_some, ← hvalue]
          by_cases he : e ≤ 1
          · have hlast : e / 2 = 0 := by omega
            rw [if_pos he, hlast, pow_zero, mul_one, int64?_eq_some_iff.mpr rfl]
          · rw [if_neg he]
            cases hq : intProduct? base base with
            | none =>
                have hlast : e / 2 = e / 2 - 1 + 1 := by omega
                have hrest := mul_ne_zero hne (pow_ne_zero (e / 2 - 1) (Int.ne_of_gt hsquare))
                have hout := not_fits_mul_square (int64?_eq_none_iff.mp hq) hrest
                rw [mul_assoc, ← pow_succ, ← hlast] at hout
                exact (int64?_eq_none_iff.mpr hout).symm
            | some square =>
                have hnext := int64?_eq_some_iff.mp hq
                have hnonzero : square.toInt ≠ 0 := by omega
                rw [Option.bind_some, ih (e / 2) (by omega) hnonzero hne, hnext]

/-- Each factor doubles the magnitude at least. -/
theorem not_fits_pow {a : Int} (ha : 1 < a.natAbs) (he : maxExponent < e) :
    ¬(-2 ^ 63 ≤ a ^ e ∧ a ^ e < 2 ^ 63) := by
  have hmost : 64 ≤ e := Nat.le_of_lt (Nat.lt_of_le_of_lt (by decide) he)
  have hmagnitude : 2 ^ 64 ≤ (a ^ e).natAbs := by
    calc 2 ^ 64 ≤ 2 ^ e := Nat.pow_le_pow_right (by decide) hmost
      _ ≤ a.natAbs ^ e := Nat.pow_le_pow_left ha e
      _ = (a ^ e).natAbs := (Int.natAbs_pow a e).symm
  omega

/-- The power of an integer is found if it fits into 64 bits. Only the parity of the exponent
    matters for zero, for one and for minus one, and whether it is zero. -/
theorem intPower?_eq (n : Int64) (e : Nat) : intPower? n e = int64? (n.toInt ^ e) := by
  unfold intPower?
  by_cases hzero : n = 0
  · subst hzero
    rw [if_pos rfl]
    by_cases he : e = 0
    · rw [if_pos he, he]
      rfl
    · rw [if_neg he]
      exact congrArg int64? (zero_pow he).symm
  rw [if_neg hzero]
  -- The bases 0, 1 and -1 have small powers for every exponent, and are treated on their own.
  by_cases hone : n = 1
  · subst hone
    rw [if_pos rfl]
    exact congrArg int64? (one_pow e).symm
  rw [if_neg hone]
  by_cases hminus : n = -1
  · subst hminus
    rw [if_pos rfl]
    rcases Nat.mod_two_eq_zero_or_one e with heven | hodd
    · rw [if_pos heven]
      exact congrArg int64? (Even.neg_one_pow (Nat.even_iff.mpr heven)).symm
    · rw [if_neg (by omega)]
      exact congrArg int64? (Odd.neg_one_pow (Nat.odd_iff.mpr hodd)).symm
  rw [if_neg hminus]
  -- With any other base, a large exponent is an overflow, and a small one is multiplied out.
  have hbase : 1 < n.toInt.natAbs := by
    have hne : ∀ k : Int64, n ≠ k → n.toInt ≠ k.toInt := fun k => mt Int64.toInt_inj.mp
    have hvalues : (0 : Int64).toInt = 0 ∧ (1 : Int64).toInt = 1 ∧ (-1 : Int64).toInt = -1 := by
      decide
    have hzero' := hne 0 hzero
    have hone' := hne 1 hone
    have hminus' := hne (-1) hminus
    omega
  by_cases he : maxExponent < e
  · rw [if_pos he, int64?_eq_none_iff.mpr (not_fits_pow hbase he)]
  · rw [if_neg he, timesPower?_eq (by omega) (by decide)]
    exact congrArg int64? (one_mul _)

/-- The quotient of two integers of 64 bits fits, but for the one of the least integer and
    minus one, which is the opposite of the least integer. -/
theorem fits_tdiv_iff (ha : -2 ^ 63 ≤ a ∧ a < 2 ^ 63) (hb : b ≠ 0) :
    (-2 ^ 63 ≤ a.tdiv b ∧ a.tdiv b < 2 ^ 63) ↔ ¬(a = -2 ^ 63 ∧ b = -1) := by
  by_cases hone : b.natAbs = 1
  · have hcases : b = 1 ∨ b = -1 := by omega
    rcases hcases with rfl | rfl
    · rw [Int.tdiv_one]
      omega
    · rw [Int.tdiv_neg, Int.tdiv_one]
      omega
  · -- Any other divisor halves the magnitude at least.
    have hhalf : (a.tdiv b).natAbs ≤ a.natAbs / 2 := by
      rw [Int.natAbs_tdiv]
      exact Nat.div_le_div_left (by omega) (by decide)
    omega

/-- The remainder of two integers of 64 bits is found if their quotient fits. -/
theorem intRemainder?_eq (ha : -2 ^ 63 ≤ a ∧ a < 2 ^ 63) (hb : b ≠ 0) :
    intRemainder? a b = if a = -2 ^ 63 ∧ b = -1 then none else int64? (a.tmod b) := by
  unfold intRemainder?
  have hfits := fits_tdiv_iff ha hb
  cases hq : int64? (a.tdiv b) with
  | none => rw [if_pos (not_not.mp (mt hfits.mpr (int64?_eq_none_iff.mp hq))), Option.bind_none]
  | some q =>
      have hq' := int64?_eq_some_iff.mp hq
      rw [if_neg (hfits.mp (hq' ▸ ⟨q.le_toInt, q.toInt_lt⟩)), Option.bind_some]

/-- A remainder is smaller than the divisor, and has the sign of the dividend if it has one. -/
def IsRemainder (a b r : Int) : Prop :=
  (∃ q, a = b * q + r) ∧ r.natAbs < b.natAbs ∧ (r = 0 ∨ r.sign = a.sign)

/-- Lean's truncated remainder satisfies the law. -/
theorem isRemainder_tmod (a : Int) (hb : b ≠ 0) : IsRemainder a b (a.tmod b) := by
  refine ⟨⟨a.tdiv b, (Int.mul_tdiv_add_tmod a b).symm⟩, ?_, ?_⟩
  · rw [Int.natAbs_tmod]
    exact Nat.mod_lt _ (by omega)
  · by_cases hdvd : b ∣ a
    · exact .inl (Int.tmod_eq_zero_of_dvd hdvd)
    · exact .inr ((Int.sign_tmod a b).trans (if_neg hdvd))

/-- A remainder is smaller than its divisor, so it always fits. -/
theorem IsRemainder.fits {r : Int} (h : IsRemainder a b r) (hb : -2 ^ 63 ≤ b ∧ b < 2 ^ 63) :
    -2 ^ 63 ≤ r ∧ r < 2 ^ 63 := by
  have hlt := h.2.1
  omega

namespace Number

variable (m n : Int64)

theorem isZero_int : (Number.int n).isZero = true ↔ n.toInt = 0 := by
  unfold isZero
  rw [beq_iff_eq, ← Int64.toInt_inj]
  rfl

theorem isNegative_int : (Number.int n).isNegative = true ↔ n.toInt < 0 :=
  decide_eq_true_iff.trans Int64.lt_iff_toInt_lt

/-- The remainder of two integers. -/
theorem mod_int : (Number.int m).mod (.int n) =
    if n.toInt = 0 then .error .divisionByZero
    else if m.toInt = -2 ^ 63 ∧ n.toInt = -1 then .error (.overflow .mod)
    else orOverflow .mod (int64? (m.toInt.tmod n.toInt)) := by
  unfold mod
  by_cases hn : n.toInt = 0
  · rw [if_pos hn, if_pos ((isZero_int n).mpr hn)]
  · rw [if_neg hn, if_neg (mt (isZero_int n).mp hn)]
    -- The division is checked, and its only overflow is that of the least integer by -1.
    dsimp only
    rw [intRemainder?_eq ⟨m.le_toInt, m.toInt_lt⟩ hn]
    split <;> rfl

/-- The power of two integers. With a negative exponent it is a division. -/
theorem pow_int : (Number.int m).pow (.int n) =
    if 0 ≤ n.toInt then orOverflow .pow (int64? (m.toInt ^ n.toInt.toNat))
    else if m.toInt = 0 then .error .divisionByZero
    else .ok (.float ((Number.int m).toFloat.pow (Number.int n).toFloat)) := by
  have hnegative := isNegative_int n
  unfold pow
  by_cases hn : 0 ≤ n.toInt
  · rw [Bool.eq_false_iff.mpr (mt hnegative.mp (Int.not_lt.mpr hn)), Bool.and_false,
      if_neg Bool.false_ne_true]
    dsimp only
    rw [if_pos hn, if_pos hn, intPower?_eq]
  · rw [hnegative.mpr (Int.not_le.mp hn), Bool.and_true, if_neg hn]
    -- A negative exponent leads to a float, or to a division by zero.
    by_cases hm : m.toInt = 0
    · rw [if_pos ((isZero_int m).mpr hm), if_pos hm]
    · rw [if_neg (mt (isZero_int m).mp hm), if_neg hm]
      dsimp only
      rw [if_neg hn]

end Number

/-- The opposite of an integer, unless it is the least one. -/
theorem negate_int (n : Int64) :
    if n.toInt = -2 ^ 63 then negate (.int n) = .error .negateOverflow
    else ∃ k : Int64, k.toInt = -n.toInt ∧ negate (.int n) = .ok (.int k) := by
  have hlow := n.le_toInt
  have hhigh := n.toInt_lt
  have hneg : (Number.int n).neg? = (int64? (-n.toInt)).map .int := rfl
  -- The one integer whose negation does not fit is the least one.
  cases hk : int64? (-n.toInt) with
  | none =>
      have hout := int64?_eq_none_iff.mp hk
      rw [hk, Option.map_none] at hneg
      rw [if_pos (by omega)]
      simp only [negate, Value.int, hneg]
  | some k =>
      have hk' := int64?_eq_some_iff.mp hk
      have hlow' := k.le_toInt
      have hhigh' := k.toInt_lt
      rw [hk, Option.map_some] at hneg
      rw [if_neg (by omega)]
      exact ⟨k, hk', by simp only [negate, Value.int, hneg]⟩

section binary

variable (h : Heap) (m n : Int64)

/-- On two numbers the operators are those of numbers, and nothing is allocated. -/
theorem binary_ints (op : ArithOp) : h.binary (.arith op) (.int m) (.int n) =
    (Number.arith op (.int m) (.int n)).map fun x => .value (.number x) := rfl

/-- To be exact it is enough to compute the integer and to check that it fits. -/
theorem exactly_of_arith {op : ArithOp} {z : Int}
    (hz : Number.arith op (.int m) (.int n) = Number.orOverflow op (int64? z)) :
    Exactly (h.binary (.arith op) (.int m) (.int n)) op z := by
  rw [binary_ints, hz]
  exact exactly_orOverflow op z

/-- The remainder of two integers has one of three answers, and each has its condition. -/
theorem binary_mod_int :
    n.toInt = 0 ∧ h.binary (.arith .mod) (.int m) (.int n) = .error .divisionByZero ∨
    (m.toInt = -2 ^ 63 ∧ n.toInt = -1) ∧
      h.binary (.arith .mod) (.int m) (.int n) = .error (.overflow .mod) ∨
    (n.toInt ≠ 0 ∧ ¬(m.toInt = -2 ^ 63 ∧ n.toInt = -1)) ∧ ∃ r : Int64,
      h.binary (.arith .mod) (.int m) (.int n) = .ok (.value (.int r)) ∧
        IsRemainder m.toInt n.toInt r.toInt := by
  have hmod : Number.arith .mod (.int m) (.int n) = _ := Number.mod_int m n
  by_cases hzero : n.toInt = 0
  · rw [if_pos hzero] at hmod
    exact .inl ⟨hzero, by rw [binary_ints, hmod]; rfl⟩
  rw [if_neg hzero] at hmod
  by_cases hleast : m.toInt = -2 ^ 63 ∧ n.toInt = -1
  · rw [if_pos hleast] at hmod
    exact .inr (.inl ⟨hleast, by rw [binary_ints, hmod]; rfl⟩)
  rw [if_neg hleast] at hmod
  refine .inr (.inr ⟨⟨hzero, hleast⟩, ?_⟩)
  -- A remainder is not greater than the divisor, so it fits.
  have hremainder := isRemainder_tmod m.toInt hzero
  have hexact := exactly_of_arith h m n hmod
  rw [Exactly, if_pos (hremainder.fits ⟨n.le_toInt, n.toInt_lt⟩)] at hexact
  rcases hexact with ⟨r, hr, hanswer⟩
  exact ⟨r, hanswer, hr ▸ hremainder⟩

/-- A power with a negative exponent is a division, and a float if it is not one by zero. -/
theorem binary_pow_int (hn : n.toInt < 0) :
    if m.toInt = 0 then h.binary (.arith .pow) (.int m) (.int n) = .error .divisionByZero
    else ∃ x, h.binary (.arith .pow) (.int m) (.int n) = .ok (.value (.float x)) := by
  have hpow : Number.arith .pow (.int m) (.int n) = _ := Number.pow_int m n
  rw [if_neg (Int.not_le.mpr hn)] at hpow
  rw [binary_ints, hpow]
  split
  · rfl
  · exact ⟨_, rfl⟩

end binary

/-- Sums, differences and products of integers are exact, and so are powers with exponents that
    are not negative, and opposites. A remainder is the one of the division that is cut off; it
    is missing by the divisor zero, and for the quotient that does not fit. With a negative
    exponent only zero has no power. But for this last case no result is a float. -/
theorem integer_arithmetic_is_exact (h : Heap) (m n : Int64) :
    Exactly (h.binary (.arith .add) (.int m) (.int n)) .add (m.toInt + n.toInt) ∧
    Exactly (h.binary (.arith .sub) (.int m) (.int n)) .sub (m.toInt - n.toInt) ∧
    Exactly (h.binary (.arith .mul) (.int m) (.int n)) .mul (m.toInt * n.toInt) ∧
    (h.binary (.arith .mod) (.int m) (.int n) = .error .divisionByZero ↔ n.toInt = 0) ∧
    (h.binary (.arith .mod) (.int m) (.int n) = .error (.overflow .mod) ↔
      m.toInt = -2 ^ 63 ∧ n.toInt = -1) ∧
    (n.toInt ≠ 0 → ¬(m.toInt = -2 ^ 63 ∧ n.toInt = -1) →
      ∃ r : Int64, h.binary (.arith .mod) (.int m) (.int n) = .ok (.value (.int r)) ∧
        IsRemainder m.toInt n.toInt r.toInt) ∧
    (0 ≤ n.toInt → Exactly (h.binary (.arith .pow) (.int m) (.int n)) .pow
      (m.toInt ^ n.toInt.toNat)) ∧
    (n.toInt < 0 →
      if m.toInt = 0 then h.binary (.arith .pow) (.int m) (.int n) = .error .divisionByZero
      else ∃ x, h.binary (.arith .pow) (.int m) (.int n) = .ok (.value (.float x))) ∧
    (if n.toInt = -2 ^ 63 then negate (.int n) = .error .negateOverflow
      else ∃ k : Int64, k.toInt = -n.toInt ∧ negate (.int n) = .ok (.int k)) ∧
    ∀ op, op ≠ .div → (op = .pow → 0 ≤ n.toInt) →
      ∀ p, h.binary (.arith op) (.int m) (.int n) = .ok p → ∃ k : Int64, p = .value (.int k) := by
  have hadd : Exactly (h.binary (.arith .add) (.int m) (.int n)) .add (m.toInt + n.toInt) :=
    exactly_of_arith h m n rfl
  have hsub : Exactly (h.binary (.arith .sub) (.int m) (.int n)) .sub (m.toInt - n.toInt) :=
    exactly_of_arith h m n rfl
  have hmul : Exactly (h.binary (.arith .mul) (.int m) (.int n)) .mul (m.toInt * n.toInt) :=
    exactly_of_arith h m n rfl
  have hpow : 0 ≤ n.toInt → Exactly (h.binary (.arith .pow) (.int m) (.int n)) .pow
      (m.toInt ^ n.toInt.toNat) := fun hn =>
    exactly_of_arith h m n ((Number.pow_int m n).trans (if_pos hn))
  -- The remainder has three outcomes, and the first two decide which error it is.
  refine ⟨hadd, hsub, hmul, ?_, ?_, ?_, hpow, binary_pow_int h m n, negate_int n, ?_⟩
  · rcases binary_mod_int h m n with ⟨hn, hmod⟩ | ⟨⟨_, hn⟩, hmod⟩ | ⟨⟨hn, _⟩, r, hmod, _⟩ <;>
      simp [hmod, hn]
  · rcases binary_mod_int h m n with ⟨hn, hmod⟩ | ⟨hleast, hmod⟩ | ⟨⟨_, hleast⟩, r, hmod, _⟩
    · simp [hmod, hn]
    · simp only [hmod, hleast, and_self]
    · exact iff_of_false (by simp [hmod]) hleast
  · intro hn hleast
    rcases binary_mod_int h m n with ⟨hn', _⟩ | ⟨hleast', _⟩ | ⟨_, hmod⟩
    · exact absurd hn' hn
    · exact absurd hleast' hleast
    · exact hmod
  · intro op hop hexponent p hp
    cases op with
    | add => exact hadd.eq_int hp
    | sub => exact hsub.eq_int hp
    | mul => exact hmul.eq_int hp
    | div => exact absurd rfl hop
    | mod =>
        rcases binary_mod_int h m n with ⟨_, hmod⟩ | ⟨_, hmod⟩ | ⟨_, r, hmod, _⟩
        · rw [hmod] at hp
          cases hp
        · rw [hmod] at hp
          cases hp
        · exact ⟨r, Except.ok.inj (hp.symm.trans hmod)⟩
    | pow => exact (hpow (hexponent rfl)).eq_int hp

/-- The least integer is a power of minus two and is found, as an integer and not as a float; its
    magnitude is none. The remainder of a negative dividend is negative, and a power of zero
    with a negative exponent divides by zero. -/
theorem integer_arithmetic_is_exact_edges :
    (∃ p, (Heap.mk #[]).binary (.arith .pow) (.int (-2)) (.int 63) = .ok p ∧
      ∃ k : Int64, p = .value (.int k)) ∧
    Exactly ((Heap.mk #[]).binary (.arith .pow) (.int (-2)) (.int 63)) .pow (-2 ^ 63) ∧
    (Heap.mk #[]).binary (.arith .pow) (.int 2) (.int 63) = .error (.overflow .pow) ∧
    (∃ r : Int64, (Heap.mk #[]).binary (.arith .mod) (.int (-7)) (.int 3) =
      .ok (.value (.int r)) ∧ IsRemainder (-7) 3 r.toInt) ∧
    (Heap.mk #[]).binary (.arith .pow) (.int 0) (.int (-2)) = .error .divisionByZero := by
  rcases integer_arithmetic_is_exact ⟨#[]⟩ (-2) 63 with ⟨-, -, -, -, -, -, hpow, -, -, hint⟩
  rcases integer_arithmetic_is_exact ⟨#[]⟩ 2 63 with ⟨-, -, -, -, -, -, hpow', -⟩
  rcases integer_arithmetic_is_exact ⟨#[]⟩ (-7) 3 with ⟨-, -, -, -, -, hmod, -⟩
  rcases integer_arithmetic_is_exact ⟨#[]⟩ 0 (-2) with ⟨-, -, -, -, -, -, -, hneg, -⟩
  have hvalue : (Heap.mk #[]).binary (.arith .pow) (.int (-2)) (.int 63) =
      .ok (.value (.int Int64.minValue)) := by decide +kernel
  -- 2 ^ 63 is the least power of two that does not fit.
  have hout : ¬(-2 ^ 63 ≤ (2 : Int64).toInt ^ (63 : Int64).toInt.toNat ∧
      (2 : Int64).toInt ^ (63 : Int64).toInt.toNat < 2 ^ 63) := by decide
  refine ⟨⟨_, hvalue, hint .pow (by decide) (fun _ => by decide) _ hvalue⟩,
    hpow (by decide), ?_, hmod (by decide) (by decide), hneg (by decide)⟩
  exact (if_neg hout).mp (hpow' (by decide))

end TreeScript
