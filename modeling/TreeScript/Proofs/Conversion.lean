import Mathlib
import TreeScript.Proofs.FloatOrder

/-!
# Integers as Floats

An integer counts as the float nearest to it. Here that float is computed, and it is shown
that the conversion keeps the order: of two integers, the one that is not less has a float
that is not less. Two integers may have the same float, though.

Rounding is described in whole numbers. A mantissa and the two bits that say what has been
cut off make up a number of quarters. Cutting off one more bit is halving it, and rounding
takes the nearest whole number, both of which keep the order. So does the whole conversion,
because a number is only ever multiplied or divided by two before it is rounded.

There are two ways in which a float is made of a number: small ones are converted as
machine words, and large ones are read as decimals. Both lead to the same `nearestFloat`.

The order is kept by each step on natural numbers, so monotonicity is never shown for
floats as such: an integer is given a place, the place grows with the integer, and the
comparison of floats is that of places. Negative integers are those of the magnitude with
the sign turned round.

## Main definitions

* `quarters`, `halve`, `nearestWhole`: Mantissas with residual bits as numbers.
* `rounded`: A number divided by a power of two and rounded.
* `nearestFloat`: The float nearest to a number.
* `intPlace`: The place of the float that an integer is converted to.

## Theorems

* `roundWithAccuracy_eq`: Rounding to a float is rounding its mantissa.
* `unpack_packComponents`: What is read out of the parts of a word.
* `unpack_pack`: A float is read back from its bits.
* `unpack_ofInt`: The float that an integer is converted to.
* `floatCompare_ofInt`: Integers are converted in order.
* `halve_mono`, `nearestWhole_mono`, `rounded_mono`: The steps of rounding keep the order.
* `nearestFloat_bounds`, `unpack_nearestFloat`: What the nearest float is made of.
* `intPlace_mono`: Places grow with the integer.
-/

namespace TreeScript

open Float.Model (UnpackedFloat Format totalExponent)
open Float.Model.UnpackedFloat

/-- A mantissa together with its two residual bits, as one number of quarters. -/
def quarters (em : ExtendedMantissa) : Nat :=
  4 * em.mantissa + 2 * em.roundBit.toNat + em.stickyBit.toNat

/-- Half of a number of quarters. The lowest bit only tells whether something is left over. -/
def halve (c : Nat) : Nat := 2 * (c / 4) + min 1 (c % 4)

/-- The whole number nearest to a number of quarters, the even one if there are two: two
    quarters are enough for the next one only if the number below them is odd. -/
def nearestWhole (c : Nat) : Nat := (c + 1 + c / 4 % 2) / 4

/-- A number divided by two so many times, and then rounded. -/
def rounded (c k : Nat) : Nat := nearestWhole (Nat.repeat halve k (4 * c))

variable {c d j k m n : Nat} {em : ExtendedMantissa}

/-- The bit that is shifted out becomes the round bit, and the round bit goes into the
    sticky bit. -/
theorem quarters_shiftRightOne (em : ExtendedMantissa) :
    quarters em.shiftRightOne = halve (quarters em) := by
  rcases em with ⟨m, r, s⟩
  rcases Nat.mod_two_eq_zero_or_one m with hm | hm <;> cases r <;> cases s <;>
    simp [quarters, ExtendedMantissa.shiftRightOne, halve, hm] <;> omega

/-- A shift by `k` places is `k` halvings. -/
theorem quarters_shiftRight (em : ExtendedMantissa) (k : Nat) :
    quarters (em >>> k) = Nat.repeat halve k (quarters em) := by
  induction k with
  | zero => rfl
  | succ k ih =>
      rw [Nat.repeat, ← ih]
      exact quarters_shiftRightOne (em >>> k)

/-- The four cases of rounding: a whole number, a quarter below, a tie, and a quarter above. -/
theorem nearestWhole_quarters (m : Nat) :
    nearestWhole (4 * m) = m ∧ nearestWhole (4 * m + 1) = m ∧
      nearestWhole (4 * m + 2) = m + m % 2 ∧ nearestWhole (4 * m + 3) = m + 1 := by
  have hdiv : ∀ r, r < 4 → (4 * m + r) / 4 = m := fun r hr => by omega
  unfold nearestWhole
  rw [hdiv 1 (by decide), hdiv 2 (by decide), hdiv 3 (by decide),
    show 4 * m / 4 = m from hdiv 0 (by decide)]
  omega

/-- The rounding of the model reads the guard and the sticky bit as quarters. -/
theorem roundedMantissa_eq (em : ExtendedMantissa) :
    em.roundedMantissa = nearestWhole (quarters em) := by
  rcases em with ⟨m, r, s⟩
  rcases nearestWhole_quarters m with ⟨h₀, h₁, h₂, h₃⟩
  cases r <;> cases s
  · exact h₀.symm
  · exact h₁.symm
  · exact h₂.symm
  · exact h₃.symm

theorem halve_mono (h : c ≤ d) : halve c ≤ halve d := by
  unfold halve
  omega

theorem nearestWhole_mono (h : c ≤ d) : nearestWhole c ≤ nearestWhole d := by
  unfold nearestWhole
  -- Within one whole number the same number of quarters is added, and else at most one more.
  rcases Nat.lt_or_ge (c / 4) (d / 4) with hlt | hge
  · omega
  · have heq : c / 4 = d / 4 := by omega
    rw [heq]
    exact Nat.div_le_div_right (by omega)

theorem repeat_halve_mono (h : c ≤ d) : Nat.repeat halve k c ≤ Nat.repeat halve k d := by
  induction k with
  | zero => exact h
  | succ k ih => exact halve_mono ih

/-- Of two numbers the one that is not less is not rounded to less. -/
theorem rounded_mono (h : c ≤ d) : rounded c k ≤ rounded d k :=
  nearestWhole_mono (repeat_halve_mono (Nat.mul_le_mul_left 4 h))

/-- Nothing is lost while the dropped places are all zero. -/
theorem repeat_halve_mul_pow (c k : Nat) : Nat.repeat halve k (4 * (c * 2 ^ k)) = 4 * c := by
  induction k generalizing c with
  | zero => rw [Nat.pow_zero, Nat.mul_one]; rfl
  | succ k ih =>
      have hpow : c * 2 ^ (k + 1) = 2 * c * 2 ^ k := by rw [Nat.pow_succ]; ac_rfl
      rw [Nat.repeat, hpow, ih (2 * c)]
      unfold halve
      omega

theorem repeat_add (f : Nat → Nat) (j k a : Nat) :
    Nat.repeat f (k + j) a = Nat.repeat f k (Nat.repeat f j a) := by
  induction k with
  | zero => rw [Nat.zero_add]; rfl
  | succ k ih => rw [Nat.add_right_comm, Nat.repeat, ih, Nat.repeat]

/-- A factor that is divided out again does not matter. -/
theorem rounded_mul_pow (c j k : Nat) : rounded (c * 2 ^ j) (k + j) = rounded c k := by
  unfold rounded
  rw [repeat_add, repeat_halve_mul_pow]

theorem rounded_zero (c : Nat) : rounded c 0 = c := (nearestWhole_quarters c).1

theorem rounded_exact (c k : Nat) : rounded (c * 2 ^ k) k = c := by
  have h := rounded_mul_pow c k 0
  rwa [Nat.zero_add, rounded_zero] at h

variable {s : Sign} {e : Int}

/-- The float with a mantissa that has 53 bits, or that is the next number behind those. -/
def carried (s : Sign) (r : Nat) (e : Int) : UnpackedFloat :=
  if h : 0 < r ∧ r < 2 ^ 53 then .finite s r e h.1 else .finite s (2 ^ 52) (e + 1) (by decide)

/-- The exponent that a number is rounded to, by the place of its first bit. -/
theorem targetExponent_eq (n : Int) : Format.binary64.targetExponent n = max (n - 53) (-1074) := by
  have hmin : Format.binary64.minExponent = -1074 := by decide
  have hbits : (Format.binary64.mantissaBits : Int) = 53 := by decide
  rw [Format.targetExponent, hmin, hbits]

/-- A mantissa of at least 53 bits is shifted down to 53 bits, as long as the exponent is not that
    of a subnormal number. -/
theorem shiftToTarget (hc : 52 ≤ c.log2) (he : -1074 ≤ e) :
    shiftToTargetExponent .binary64 c e .exact =
      (ExtendedMantissa.mk c false false >>> (c.log2 - 52), e + (c.log2 - 52 : Nat)) := by
  have htarget : Format.binary64.targetExponent (totalExponent c e) = e + (c.log2 - 52 : Nat) := by
    rw [targetExponent_eq, totalExponent]
    omega
  -- The exponent is large enough, so it is the number of bits that counts.
  have hshift : (e + ((c.log2 - 52 : Nat) : Int) - e).toNat = c.log2 - 52 := by omega
  unfold shiftToTargetExponent
  rw [htarget]
  simp only [shiftToExponent, hshift, ExtendedMantissa.ofMantissaAndAccuracy]

/-- A mantissa of 53 bits or more is cut to 53 bits by rounding. -/
theorem rounded_bounds (hc : 52 ≤ c.log2) :
    2 ^ 52 ≤ rounded c (c.log2 - 52) ∧ rounded c (c.log2 - 52) ≤ 2 ^ 53 := by
  have hne : c ≠ 0 := by
    rintro rfl
    exact absurd hc (by decide)
  have hlow : 2 ^ 52 * 2 ^ (c.log2 - 52) ≤ c := by
    rw [← Nat.pow_add, Nat.add_sub_cancel' hc]
    exact Nat.log2_self_le hne
  have hhigh : c ≤ 2 ^ 53 * 2 ^ (c.log2 - 52) := by
    rw [← Nat.pow_add, show 53 + (c.log2 - 52) = c.log2 + 1 by omega]
    exact Nat.le_of_lt Nat.lt_log2_self
  -- Both bounds are exact multiples, and rounding is monotone.
  constructor
  · rw [← rounded_exact (2 ^ 52) (c.log2 - 52)]
    exact rounded_mono hlow
  · rw [← rounded_exact (2 ^ 53) (c.log2 - 52)]
    exact rounded_mono hhigh

/-- Rounding in the normal range is one shift and one rounding, with a carry where the mantissa
    fills up. -/
theorem roundWithAccuracy_eq (hc : 52 ≤ c.log2) (he : -1074 ≤ e) :
    roundWithAccuracy .binary64 s c e .exact =
      carried s (rounded c (c.log2 - 52)) (e + (c.log2 - 52 : Nat)) := by
  have hrounded : (ExtendedMantissa.mk c false false >>> (c.log2 - 52)).roundedMantissa =
      rounded c (c.log2 - 52) := by
    rw [roundedMantissa_eq, quarters_shiftRight]
    rfl
  rcases rounded_bounds hc with ⟨hlow, hhigh⟩
  unfold roundWithAccuracy
  rw [shiftToTarget hc he]
  dsimp only
  rw [hrounded]
  generalize rounded c (c.log2 - 52) = r at hlow hhigh ⊢
  generalize hexp : e + ((c.log2 - 52 : Nat) : Int) = e' at *
  have he' : -1074 ≤ e' := by omega
  -- Rounding may have led to the next power of two, which is shifted once more.
  rcases Nat.lt_or_ge r (2 ^ 53) with hlt | hge
  · have hpos : 0 < r := by omega
    have hlog : r.log2 = 52 := (Nat.log2_eq_iff (by omega)).mpr ⟨hlow, hlt⟩
    have hshift : shiftToTargetExponent .binary64 r e' .exact = (⟨r, false, false⟩, e') := by
      rw [shiftToTarget (by omega) he', hlog]
      exact Prod.ext rfl (Int.add_zero e')
    rw [hshift]
    simp only [carried, hpos, hlt, and_self, dite_true]
    exact dif_neg (Nat.ne_of_gt hpos)
  · have hr : r = 2 ^ 53 := by omega
    have hlog : r.log2 = 53 := hr ▸ Nat.log2_two_pow
    have hshift : shiftToTargetExponent .binary64 r e' .exact =
        (⟨2 ^ 52, false, false⟩, e' + 1) := by
      rw [shiftToTarget (by omega) he', hlog, hr]
      rfl
    rw [hshift]
    simp only [carried, hr, Nat.lt_irrefl, and_false, dite_false]
    rfl

theorem unpackSign_pack {spec : Format} (s : Sign) (exponent : BitVec spec.exponentBits)
    (mantissa : BitVec spec.mantissaBitsWithoutImplicit) :
    Sign.ofBitVec (unpackSign (packComponents spec s exponent mantissa)) = s := by
  have hbits : unpackSign (packComponents spec s exponent mantissa) = s.toBitVec := by
    -- The sign is the topmost bit, and there is only one.
    ext i hi
    have hi : i = 0 := by omega
    subst hi
    simp [unpackSign, packComponents, BitVec.getLsbD_append, BitVec.getLsbD_eq_getElem,
      BitVec.getElem_append]
  rw [hbits]
  cases s <;> rfl

/-- The leading bit of a mantissa is not kept, and comes back. -/
theorem toNat_implicit (M : BitVec 52) : (1#1 ++ M).toNat = 2 ^ 52 + M.toNat := by
  rw [BitVec.toNat_append, ← Nat.shiftLeft_add_eq_or_of_lt M.isLt]
  rfl

theorem implicit_pos (M : BitVec 52) : 0 < (1#1 ++ M).toNat := by
  rw [toNat_implicit]
  omega

theorem mantissa_pos {M : BitVec 52} (h : M ≠ 0#52) : 0 < M.toNat :=
  Nat.pos_of_ne_zero fun hzero => h (BitVec.eq_of_toNat_eq hzero)

/-- What is read out of the parts of a word. -/
theorem unpack_packComponents (s : Sign) (E : BitVec 11) (M : BitVec 52) :
    unpack .binary64 (packComponents .binary64 s E M) =
      if E = -1#_ then if M = 0#_ then .infinity s else .notANumber
      else if E = 0#_ then
        if h : M = 0#_ then .zero s
        else .finite s M.toNat (-1074) (mantissa_pos h)
      else .finite s (1#1 ++ M).toNat (E.toNat - 1075) (implicit_pos M) := by
  unfold unpack
  simp only [unpackMantissa_packComponents, unpackExponent_packComponents, unpackSign_pack]
  -- The order of the tests is the other way round in the two definitions.
  by_cases hzero : E = 0#_
  · subst hzero
    rfl
  · rw [if_neg hzero, if_neg hzero]
    rfl

/-- With 53 bits the leading one is left out, and the exponent is written. -/
theorem pack_normal {hm : 0 < m} (hlow : 2 ^ 52 ≤ m) (hlt : m < 2 ^ 53) (E : BitVec 11)
    (hE : E ≠ -1#_) :
    UnpackedFloat.pack .binary64 (.finite s m (E.toNat - 1075) hm) =
      packComponents .binary64 s E (BitVec.ofNat 52 m) := by
  have hlog : m.log2 + 1 = Format.binary64.mantissaBits := by
    rw [(Nat.log2_eq_iff (by omega)).mpr ⟨hlow, hlt⟩]
    rfl
  have hmax : E.toNat ≠ 2047 := fun h => hE (BitVec.eq_of_toNat_eq h)
  -- The exponent is biased and put back, and it was large enough for that.
  have hexp : ((E.toNat - 1075 : Int) + (Format.binary64.exponentBias : Nat) +
      (Format.binary64.mantissaBitsWithoutImplicit : Nat)).toNat = E.toNat := by
    show ((E.toNat - 1075 : Int) + (1023 : Nat) + (52 : Nat)).toNat = E.toNat
    omega
  simp only [UnpackedFloat.pack, hexp]
  rw [if_neg (by omega), if_pos hlog, BitVec.ofNat_toNat, BitVec.setWidth_eq]

/-- A float with a mantissa of 53 bits is read back from its bits as it is. -/
theorem unpack_pack {hm : 0 < m} (hlow : 2 ^ 52 ≤ m) (hhigh : m < 2 ^ 53) (he : -1074 ≤ e)
    (he' : e ≤ 971) : (Float.Model.pack (.finite s m e hm)).unpack = .finite s m e hm := by
  obtain ⟨E, rfl, hlast⟩ : ∃ E : BitVec 11, e = E.toNat - 1075 ∧ E.toNat < 2047 := by
    refine ⟨BitVec.ofNat 11 (e + 1075).toNat, ?_, ?_⟩ <;> rw [BitVec.toNat_ofNat] <;> omega
  -- The bits of the exponent are none of the two patterns that are kept for other floats.
  have hones : E ≠ -1#_ := by
    rintro rfl
    exact absurd hlast (by decide)
  have hzero : E ≠ 0#_ := by
    rintro rfl
    exact absurd he (by decide)
  have hmantissa : (1#1 ++ BitVec.ofNat 52 m).toNat = m := by
    rw [toNat_implicit, BitVec.toNat_ofNat]
    omega
  show unpack .binary64 (UnpackedFloat.pack .binary64 (.finite s m _ hm)) = _
  rw [pack_normal hlow hhigh E hones, unpack_packComponents, if_neg hones, if_neg hzero]
  congr 1

theorem log2_mul_pow (hn : n ≠ 0) (k : Nat) : (n * 2 ^ k).log2 = n.log2 + k := by
  have hpos : 0 < 2 ^ k := Nat.two_pow_pos k
  refine (Nat.log2_eq_iff (Nat.mul_ne_zero hn (Nat.ne_of_gt hpos))).mpr ⟨?_, ?_⟩
  · rw [Nat.pow_add]
    exact Nat.mul_le_mul_right _ (Nat.log2_self_le hn)
  · rw [show n.log2 + k + 1 = n.log2 + 1 + k by omega, Nat.pow_add]
    exact (Nat.mul_lt_mul_right hpos).mpr Nat.lt_log2_self

/-- The float of a sign that is nearest to a number that is not zero. -/
def nearestFloat (s : Sign) (n : Nat) : UnpackedFloat :=
  carried s (rounded (n * 2 ^ 53) (n.log2 + 1)) (n.log2 - 52)

/-- The mantissa of a rounded number has 53 bits, or is the next power of two. -/
theorem nearestFloat_bounds (hn : n ≠ 0) :
    2 ^ 52 ≤ rounded (n * 2 ^ 53) (n.log2 + 1) ∧ rounded (n * 2 ^ 53) (n.log2 + 1) ≤ 2 ^ 53 := by
  have hlog := log2_mul_pow hn 53
  have hshift : (n * 2 ^ 53).log2 - 52 = n.log2 + 1 := by omega
  rw [← hshift]
  exact rounded_bounds (by omega)

/-- A rounded number of at most 1001 bits has a word of its own, so packing it loses nothing. -/
theorem unpack_nearestFloat (s : Sign) (hn : n ≠ 0) (hlog : n.log2 ≤ 1000) :
    (Float.Model.pack (nearestFloat s n)).unpack = nearestFloat s n := by
  rcases nearestFloat_bounds hn with ⟨hlow, hhigh⟩
  unfold nearestFloat carried
  split
  · rename_i h
    exact unpack_pack hlow h.2 (by omega) (by omega)
  · exact unpack_pack (by decide) (by decide) (by omega) (by omega)

/-- A number that needs no more than 53 bits is not rounded. -/
theorem rounded_small (hn : n.log2 ≤ 52) :
    rounded (n * 2 ^ 53) (n.log2 + 1) = n * 2 ^ (52 - n.log2) := by
  have hsplit : n * 2 ^ 53 = n * 2 ^ (52 - n.log2) * 2 ^ (n.log2 + 1) := by
    rw [Nat.mul_assoc, ← Nat.pow_add]
    congr 2
    omega
  rw [hsplit, rounded_exact]

/-- A number that is given with enough bits behind the point is rounded to the nearest float. -/
theorem roundWithAccuracy_nat (hn : n ≠ 0) (hk : 52 ≤ n.log2 + k) (hk' : k ≤ 1074) :
    roundWithAccuracy .binary64 .positive (n * 2 ^ k) (-k) .exact = nearestFloat .positive n := by
  have hlog := log2_mul_pow hn k
  rw [roundWithAccuracy_eq (by omega) (by omega), hlog]
  unfold nearestFloat
  have hexp : -(k : Int) + (n.log2 + k - 52 : Nat) = n.log2 - 52 := by omega
  rw [hexp]
  congr 1
  -- The factor may be larger or smaller than the one in the definition.
  rcases Nat.le_total k 53 with hle | hle
  · have hfactor : n * 2 ^ 53 = n * 2 ^ k * 2 ^ (53 - k) := by
      rw [Nat.mul_assoc, ← Nat.pow_add]
      congr 2
      omega
    rw [hfactor, show n.log2 + 1 = n.log2 + k - 52 + (53 - k) by omega, rounded_mul_pow]
  · have hfactor : n * 2 ^ k = n * 2 ^ 53 * 2 ^ (k - 53) := by
      rw [Nat.mul_assoc, ← Nat.pow_add]
      congr 2
      omega
    rw [hfactor, show n.log2 + k - 52 = n.log2 + 1 + (k - 53) by omega, rounded_mul_pow]

/-- The conversion of large numbers. -/
theorem ofScientific_eq (hn : n ≠ 0) :
    UnpackedFloat.ofScientific .binary64 n 0 = nearestFloat .positive n := by
  have hrange : (0 : Int) ≤ n.log2 := Int.natCast_nonneg _
  unfold UnpackedFloat.ofScientific
  rw [dif_neg hn, if_neg (by decide),
    if_neg (Int.not_lt.mpr (Int.neg_nonpos_of_nonneg (Int.add_nonneg (by decide) hrange))),
    if_pos (by decide)]
  rw [← roundWithAccuracy_nat (k := 53) hn (by omega) (by decide), ← Nat.shiftLeft_eq]
  show roundWithAccuracy .binary64 .positive (n <<< 53 * 1) (-53 + 0) .exact = _
  rw [Nat.mul_one]
  rfl

/-- The conversion of machine words. -/
theorem round_eq (hn : n ≠ 0) (hlog : n.log2 ≤ 52) :
    UnpackedFloat.round .binary64 .positive n 0 = nearestFloat .positive n := by
  have htarget : Format.binary64.targetExponent (totalExponent n 0) = n.log2 - 52 := by
    rw [targetExponent_eq, totalExponent]
    omega
  have hshift : (0 - ((n.log2 : Int) - 52)).toNat = 52 - n.log2 := by omega
  unfold UnpackedFloat.round
  simp only [htarget, decreaseExponent, hshift]
  rw [Nat.shiftLeft_eq, Int.zero_sub, roundWithAccuracy_nat hn (by omega) (by omega)]

/-- Up to 53 bits nothing is rounded away. -/
theorem nearestFloat_small (hpos : 0 < n * 2 ^ (52 - n.log2)) (hlog : n.log2 ≤ 52) :
    nearestFloat .positive n = .finite .positive (n * 2 ^ (52 - n.log2)) (n.log2 - 52) hpos := by
  have hlt : n * 2 ^ (52 - n.log2) < 2 ^ 53 := by
    have hpow : 2 ^ (n.log2 + 1) * 2 ^ (52 - n.log2) = 2 ^ 53 := by
      rw [← Nat.pow_add]
      congr 1
      omega
    rw [← hpow]
    exact (Nat.mul_lt_mul_right (Nat.two_pow_pos _)).mpr Nat.lt_log2_self
  unfold nearestFloat carried
  rw [rounded_small hlog, dif_pos ⟨hpos, hlt⟩]

/-- A small number is a float, and is multiplied by the float one then. -/
theorem mul_one_small (hn : n ≠ 0) (hlog : n.log2 ≤ 52) :
    UnpackedFloat.mul .binary64 (nearestFloat .positive n)
      (.finite .positive (2 ^ 52) (-52) (by decide)) = nearestFloat .positive n := by
  have hpos : 0 < n * 2 ^ (52 - n.log2) :=
    Nat.mul_pos (Nat.pos_of_ne_zero hn) (Nat.two_pow_pos _)
  have hsmall := nearestFloat_small hpos hlog
  rw [hsmall]
  -- The product is the same number with 52 more zeros, which rounding takes away.
  show roundWithAccuracy .binary64 .positive (n * 2 ^ (52 - n.log2) * 2 ^ 52)
    ((n.log2 : Int) - 52 + -52) .exact = _
  rw [Nat.mul_assoc, ← Nat.pow_add,
    show ((n.log2 : Int) - 52 + -52) = -((52 - n.log2 + 52 : Nat) : Int) by omega]
  exact (roundWithAccuracy_nat hn (by omega) (by omega)).trans hsmall

theorem unpack_one :
    (Float.ofBits 0x3FF0000000000000).toModel.unpack =
      .finite .positive (2 ^ 52) (-52) (by decide) := rfl

/-- A natural number below `2 ^ 64` goes to a float through the machine's conversion of words. -/
theorem toModel_word (hn : n ≠ 0) (hlt : n < 2 ^ 64) :
    n.toUInt64.toFloat.toModel = .pack (.round .binary64 .positive n 0) := by
  show Float.Model.pack (UnpackedFloat.ofInt .binary64 (n.toUInt64.toNat : Nat)) = _
  have hword : n.toUInt64.toNat = n := UInt64.toNat_ofNat_of_lt' hlt
  have hsign : compare (n : Int) 0 = .gt := Int.compare_eq_gt.mpr (by omega)
  unfold UnpackedFloat.ofInt UnpackedFloat.normalize
  rw [hword]
  simp only [hsign]
  rfl

/-- A number is converted as a word or read as a decimal, and both ways lead to the nearest
    float. -/
theorem toModel_ofNat (hn : n ≠ 0) :
    (Float.ofNat n).toModel = .pack (nearestFloat .positive n) := by
  show (Float.ofScientific n false 0).toModel = _
  unfold Float.ofScientific
  split
  · -- A number that fits into a machine word is multiplied by one in the end.
    rename_i hsmall
    have hlog : n.log2 ≤ 52 := Nat.le_of_lt_succ ((Nat.log2_lt hn).mpr hsmall.1)
    show Float.Model.pack (UnpackedFloat.mul .binary64 n.toUInt64.toFloat.toModel.unpack
      (Float.ofBits 0x3FF0000000000000).toModel.unpack) = _
    rw [toModel_word hn (by omega), round_eq hn hlog, unpack_nearestFloat _ hn (by omega),
      unpack_one, mul_one_small hn hlog]
  · exact congrArg Float.Model.pack (ofScientific_eq hn)

theorem unpack_ofNat (hn : n ≠ 0) (hlog : n.log2 ≤ 1000) :
    (Float.ofNat n).toModel.unpack = nearestFloat .positive n := by
  rw [toModel_ofNat hn, unpack_nearestFloat _ hn hlog]

theorem neg_nearestFloat (n : Nat) :
    (nearestFloat .positive n).neg = nearestFloat .negative n := by
  unfold nearestFloat carried
  split <;> rfl

/-- The float that an integer of so many bits is converted to. -/
theorem unpack_ofInt {z : Int} (hlog : z.natAbs.log2 ≤ 1000) :
    (Float.ofInt z).toModel.unpack =
      if z = 0 then .zero .positive
      else if 0 < z then nearestFloat .positive z.natAbs else nearestFloat .negative z.natAbs := by
  cases z with
  | ofNat n =>
      by_cases hn : n = 0
      · subst hn
        rfl
      · have hpos : (0 : Int) < Int.ofNat n := Int.natCast_pos.mpr (Nat.pos_of_ne_zero hn)
        rw [if_neg (by omega), if_pos hpos]
        exact unpack_ofNat hn hlog
  | negSucc n =>
      rw [if_neg (by omega), if_neg (by omega)]
      -- A negative integer is converted as its absolute value, and the sign is set after that.
      show (Float.Model.pack (Float.ofNat (n + 1)).toModel.unpack.neg).unpack = _
      rw [unpack_ofNat (Nat.succ_ne_zero n) hlog, neg_nearestFloat]
      exact unpack_nearestFloat _ (Nat.succ_ne_zero n) hlog

/-- The exponent and the mantissa of the float nearest to a number. -/
def magnitude (n : Nat) : Int × Int :=
  if rounded (n * 2 ^ 53) (n.log2 + 1) < 2 ^ 53 then
    (n.log2 - 52, rounded (n * 2 ^ 53) (n.log2 + 1))
  else (n.log2 - 51, 2 ^ 52)

/-- Where a rounded number stands among the floats: at the place of its magnitude, on the side of
    its sign. -/
theorem place_nearestFloat (hn : n ≠ 0) :
    place (nearestFloat .positive n) = (1, (magnitude n).1, (magnitude n).2) ∧
      place (nearestFloat .negative n) = (-1, -(magnitude n).1, -(magnitude n).2) := by
  rcases nearestFloat_bounds hn with ⟨hlow, _⟩
  have hexp : (n.log2 : Int) - 52 + 1 = n.log2 - 51 := by omega
  unfold nearestFloat carried magnitude
  by_cases hlt : rounded (n * 2 ^ 53) (n.log2 + 1) < 2 ^ 53
  · rw [if_pos hlt, dif_pos ⟨by omega, hlt⟩, dif_pos ⟨by omega, hlt⟩]
    exact ⟨rfl, rfl⟩
  · rw [if_neg hlt, dif_neg fun h => hlt h.2, dif_neg fun h => hlt h.2, hexp]
    exact ⟨rfl, rfl⟩

/-- A number that is not less has a float that is not less: either its exponent is greater, or
    the exponents are the same and the mantissas are rounded the same way. -/
theorem magnitude_mono (hm : m ≠ 0) (h : m ≤ n) : (magnitude m).1 < (magnitude n).1 ∨
    (magnitude m).1 = (magnitude n).1 ∧ (magnitude m).2 ≤ (magnitude n).2 := by
  have hn : n ≠ 0 := by omega
  rcases nearestFloat_bounds hm with ⟨hlow, hhigh⟩
  rcases nearestFloat_bounds hn with ⟨hlow', hhigh'⟩
  have hlog : m.log2 ≤ n.log2 := (Nat.le_log2 hn).mpr (Nat.le_trans (Nat.log2_self_le hm) h)
  -- Numbers with as many bits are rounded at the same place.
  have hsame : m.log2 = n.log2 →
      rounded (m * 2 ^ 53) (m.log2 + 1) ≤ rounded (n * 2 ^ 53) (n.log2 + 1) := by
    intro heq
    rw [heq]
    exact rounded_mono (Nat.mul_le_mul_right _ h)
  unfold magnitude
  split <;> split <;> simp only <;> omega

/-- On one side of zero, places are ordered by exponent and then by mantissa. -/
theorem isLE_comparePlaces {part e e' a a' : Int} (h : e < e' ∨ e = e' ∧ a ≤ a') :
    (comparePlaces (part, e, a) (part, e', a')).isLE = true := by
  simp only [comparePlaces, compareLex, compareOn, Int.compare_eq_eq.mpr (Eq.refl part),
    Ordering.eq_then]
  rcases h with hlt | ⟨rfl, hle⟩
  · rw [Int.compare_eq_lt.mpr hlt]
    rfl
  · rw [Int.compare_eq_eq.mpr rfl, Ordering.eq_then]
    exact Int.isLE_compare.mpr hle

/-- The place of the float that an integer is converted to. -/
def intPlace (z : Int) : Int × Int × Int :=
  if z = 0 then (0, 0, 0)
  else if 0 < z then (1, (magnitude z.natAbs).1, (magnitude z.natAbs).2)
  else (-1, -(magnitude z.natAbs).1, -(magnitude z.natAbs).2)

theorem nearestFloat_ne_notANumber (s : Sign) (n : Nat) : nearestFloat s n ≠ .notANumber := by
  unfold nearestFloat carried
  split <;> nofun

/-- The float of an integer is not NaN, and stands at the place of the integer. -/
theorem place_ofInt {z : Int} (hlog : z.natAbs.log2 ≤ 1000) :
    (Float.ofInt z).toModel.unpack ≠ .notANumber ∧
      place (Float.ofInt z).toModel.unpack = intPlace z := by
  rw [unpack_ofInt hlog]
  unfold intPlace
  split
  · exact ⟨nofun, rfl⟩
  · rename_i hz
    have hne : z.natAbs ≠ 0 := by omega
    split
    · exact ⟨nearestFloat_ne_notANumber _ _, (place_nearestFloat hne).1⟩
    · exact ⟨nearestFloat_ne_notANumber _ _, (place_nearestFloat hne).2⟩

/-- The places of integers are in order. -/
theorem intPlace_mono {y z : Int} (h : y ≤ z) :
    (comparePlaces (intPlace y) (intPlace z)).isLE = true := by
  unfold intPlace
  rcases Int.lt_trichotomy y 0 with hy | rfl | hy
  · rw [if_neg (by omega), if_neg (by omega)]
    rcases Int.lt_trichotomy z 0 with hz | rfl | hz
    · -- Below zero, the one that is less has the greater magnitude.
      rw [if_neg (by omega), if_neg (by omega)]
      have hmono := magnitude_mono (m := z.natAbs) (n := y.natAbs) (by omega) (by omega)
      exact isLE_comparePlaces (by omega)
    · rfl
    · rw [if_neg (by omega), if_pos hz]
      rfl
  · rw [if_pos rfl]
    by_cases hz : z = 0
    · rw [if_pos hz]
      rfl
    · rw [if_neg hz, if_pos (by omega)]
      rfl
  · rw [if_neg (by omega), if_pos hy, if_neg (by omega), if_pos (by omega)]
    exact isLE_comparePlaces (magnitude_mono (by omega) (by omega))

/-- Integers are converted in order: what is not less has a float that is not less. -/
theorem floatCompare_ofInt {y z : Int} (h : y ≤ z) (hy : y.natAbs.log2 ≤ 1000)
    (hz : z.natAbs.log2 ≤ 1000) :
    ∃ o, floatCompare (Float.ofInt y) (Float.ofInt z) = some o ∧ o.isLE = true := by
  rcases place_ofInt hy with ⟨hdefined, hplace⟩
  rcases place_ofInt hz with ⟨hdefined', hplace'⟩
  refine ⟨_, floatCompare_eq_some_iff.mpr ⟨hdefined, hdefined', rfl⟩, ?_⟩
  rw [hplace, hplace']
  exact intPlace_mono h

end TreeScript
