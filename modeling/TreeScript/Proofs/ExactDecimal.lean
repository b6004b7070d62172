import Mathlib
import TreeScript.Number.Shortest
import TreeScript.Proofs.FloatBits

/-!
# Decimals That Stand for Floats

A decimal is read as the float nearest to it. Here it is shown that this depends only on the
number, not on how it is written, and that a decimal which is a float is read as that float:
neither is it taken for too great or too small without being computed, nor is anything cut off
when its digits are multiplied or divided by the power of ten. For a power that is multiplied,
the product has no more bits than the float; for one that divides, the quotient is taken with so
many bits that it has no remainder.

So the exact decimal of a float reads back. A decimal with fewer digits is only written for a
float if it has been read and compared with the float, and what compares as equal is the same
here, because neither of the two has a minus sign. Hence the decimal that is written always
reads back.

Equations between decimals and floats are taken in the rationals and then turned into
equations of natural numbers, in units of a power of two that is small enough for both
sides. Bounds are taken by binary logarithms, since the library chooses exponents by them.
The two branches of reading, for powers of ten with an exponent of either sign, need
different bounds and have a lemma each.

## Main definitions

* `Decimal.value`: The number that a decimal is.

## Theorems

* `Decimal.toFloat_eq_of_value`: The float depends only on the number.
* `ofScientific_canonical`: A decimal that is a float is read exactly.
* `Dyadic.finite_cases`: What the exact number of a finite float can be.
* `Dyadic.toFloat_decimal`: The exact decimal of a float reads back.
* `Dyadic.toFloat_shortest`: The decimal that is written for a float reads back.
* `eq_undefinedFloat`, `eq_infinite`, `eq_magnitude`: A float is determined by its view.
* `Decimal.eq_of_value`, `Decimal.normal_eq_of_value`: A number has one normal form.
* `mul_canonical`, `div_canonical`: A power of ten that is multiplied, and one that divides.
* `IsCanonical.bounds`: In which range a float lies.
-/

namespace TreeScript

open Float.Model (UnpackedFloat Format totalExponent)
open Float.Model.UnpackedFloat

variable {a b c d : Decimal} {m n N : Nat} {e E i j t : Int} {x : Float}

theorem pow_toNat (q : ℚ) (h : 0 ≤ i) : q ^ i.toNat = q ^ i := by
  rw [← zpow_natCast, Int.toNat_of_nonneg h]

namespace Decimal

/-- The number that a decimal is. -/
def value (d : Decimal) : ℚ := d.digits * 10 ^ d.exponent

/-- Dropping the zeros at the end of the digits keeps the value. -/
theorem value_strip (n : Nat) (e : Int) : (strip n e).value = n * 10 ^ e := by
  induction n, e using strip.induct with
  | case1 n e h ih =>
      have hdigits : (n : ℚ) = (n / 10 : Nat) * 10 := by
        exact_mod_cast (Nat.div_mul_cancel (Nat.dvd_of_mod_eq_zero h.2)).symm
      rw [strip, dif_pos h, ih, zpow_add_one₀ (by norm_num), hdigits]
      ring
  | case2 n e h =>
      rw [strip, dif_neg h]
      rfl

/-- No zero is left at the end. -/
theorem strip_mod (hn : 0 < n) (e : Int) : (strip n e).digits % 10 ≠ 0 := by
  induction n, e using strip.induct with
  | case1 n e h ih =>
      rw [strip, dif_pos h]
      exact ih (by omega)
  | case2 n e h =>
      rw [strip, dif_neg h]
      exact fun hmod => h ⟨hn, hmod⟩

/-- The normal form is the same number. -/
theorem value_normal (d : Decimal) : d.normal.value = d.value := by
  unfold normal
  split
  · rename_i hzero
    simp [value, hzero]
  · exact value_strip d.digits d.exponent

theorem value_eq_zero_iff : d.value = 0 ↔ d.digits = 0 := by
  simp [value, zpow_ne_zero]

/-- Of two decimals that are one number, the one with the greater exponent has fewer digits. -/
theorem digits_eq (h : a.value = b.value) (hle : a.exponent ≤ b.exponent) :
    a.digits = b.digits * 10 ^ (b.exponent - a.exponent).toNat := by
  have hpow : (10 : ℚ) ^ a.exponent ≠ 0 := zpow_ne_zero _ (by norm_num)
  have hsplit : (10 : ℚ) ^ b.exponent = 10 ^ (b.exponent - a.exponent).toNat * 10 ^ a.exponent := by
    rw [pow_toNat _ (by omega), ← zpow_add₀ (by norm_num), sub_add_cancel]
  unfold value at h
  rw [hsplit, ← mul_assoc] at h
  exact_mod_cast mul_right_cancel₀ hpow h

/-- Decimals without a zero at their ends are written in only one way. -/
theorem eq_of_value (h : a.value = b.value) (ha : a.digits % 10 ≠ 0) (hb : b.digits % 10 ≠ 0) :
    a = b := by
  wlog hle : a.exponent ≤ b.exponent generalizing a b
  · exact (this h.symm hb ha (by omega)).symm
  -- The exponents agree, or one of the two would end with a zero.
  have hdigits := digits_eq h hle
  have hexp : (b.exponent - a.exponent).toNat = 0 := by
    by_contra hne
    rcases Nat.exists_eq_succ_of_ne_zero hne with ⟨k, hk⟩
    rw [hk, Nat.pow_succ, ← Nat.mul_assoc] at hdigits
    omega
  rw [hexp, Nat.pow_zero, Nat.mul_one] at hdigits
  exact congrArg₂ mk hdigits (by omega)

/-- The normal form depends only on the number. -/
theorem normal_eq_of_value (h : a.value = b.value) : a.normal = b.normal := by
  by_cases hzero : a.value = 0
  · rw [normal, if_pos (value_eq_zero_iff.mp hzero), normal,
      if_pos (value_eq_zero_iff.mp (h ▸ hzero))]
  · -- Both are stripped of their zeros, so the value leaves no choice.
    have ha : a.digits ≠ 0 := mt value_eq_zero_iff.mpr hzero
    have hb : b.digits ≠ 0 := mt value_eq_zero_iff.mpr (h ▸ hzero)
    apply eq_of_value
    · rw [value_normal, value_normal, h]
    · rw [normal, if_neg ha]
      exact strip_mod (Nat.pos_of_ne_zero ha) _
    · rw [normal, if_neg hb]
      exact strip_mod (Nat.pos_of_ne_zero hb) _

/-- The nearest float depends only on the number. -/
theorem toFloat_eq_of_value (h : a.value = b.value) : a.toFloat = b.toFloat := by
  unfold toFloat
  rw [normal_eq_of_value h]

end Decimal

/-- An equation between multiples of powers of two is one between whole numbers, in units of a
    power that is small enough. -/
theorem mul_pow_eq (h : (m : ℚ) * 2 ^ i = n * 2 ^ j) (hi : t ≤ i) (hj : t ≤ j) :
    m * 2 ^ (i - t).toNat = n * 2 ^ (j - t).toNat := by
  have hunits : ∀ k : Int, t ≤ k → (2 : ℚ) ^ (k - t).toNat * 2 ^ t = 2 ^ k := by
    intro k hk
    rw [pow_toNat _ (by omega), ← zpow_add₀ (by norm_num), sub_add_cancel]
  rw [← hunits i hi, ← hunits j hj, ← mul_assoc, ← mul_assoc] at h
  exact_mod_cast mul_right_cancel₀ (zpow_ne_zero _ (by norm_num)) h

/-- The binary logarithm bounds the number from above. -/
theorem lt_two_zpow (n : Nat) : (n : ℚ) < 2 ^ ((n.log2 : Int) + 1) := by
  have hlt : (n : ℚ) < 2 ^ (n.log2 + 1) := by exact_mod_cast Nat.lt_log2_self
  exact_mod_cast hlt

theorem two_zpow_le (hn : n ≠ 0) : (2 : ℚ) ^ (n.log2 : Int) ≤ n := by
  have hle : (2 : ℚ) ^ n.log2 ≤ n := by exact_mod_cast Nat.log2_self_le hn
  exact_mod_cast hle

/-- The magnitude of a canonical number. -/
theorem IsCanonical.bounds (h : IsCanonical m e) :
    (2 : ℚ) ^ (-1074 : Int) ≤ m * 2 ^ e ∧ (m : ℚ) * 2 ^ e < 2 ^ (53 + e) := by
  have hpos : (0 : ℚ) < 2 ^ e := zpow_pos (by norm_num) e
  have hlow : (1 : ℚ) ≤ m := by exact_mod_cast h.pos
  have hhigh : (m : ℚ) < 2 ^ 53 := by exact_mod_cast h.lt
  constructor
  · calc (2 : ℚ) ^ (-1074 : Int) ≤ 2 ^ e := zpow_le_zpow_right₀ (by norm_num) h.least
      _ = 1 * 2 ^ e := (one_mul _).symm
      _ ≤ m * 2 ^ e := mul_le_mul_of_nonneg_right hlow hpos.le
  · rw [zpow_add₀ (by norm_num)]
    exact mul_lt_mul_of_pos_right hhigh hpos

/-- A decimal that is a canonical number is not taken for infinite without being computed. -/
theorem IsCanonical.decimalExponent_le (h : IsCanonical m e) (hn : n ≠ 0)
    (hv : (n : ℚ) * 10 ^ E = m * 2 ^ e) : E ≤ 2048 := by
  by_contra hE
  have hone : (1 : ℚ) ≤ n := by exact_mod_cast Nat.pos_of_ne_zero hn
  have hle : (53 + e) ≤ 1024 := by linarith [h.greatest]
  have hlt : (10 : ℚ) ^ E < 2 ^ (1024 : Int) :=
    calc (10 : ℚ) ^ E = 1 * 10 ^ E := (one_mul _).symm
      _ ≤ n * 10 ^ E := mul_le_mul_of_nonneg_right hone (zpow_nonneg (by norm_num) E)
      _ = m * 2 ^ e := hv
      _ < 2 ^ (53 + e) := h.bounds.2
      _ ≤ 2 ^ (1024 : Int) := zpow_le_zpow_right₀ (by norm_num) hle
  -- Such a power of ten is greater than every float.
  have hge : (2 : ℚ) ^ (1024 : Int) ≤ 10 ^ E :=
    calc (2 : ℚ) ^ (1024 : Int) ≤ 10 ^ (1024 : Int) :=
          zpow_le_zpow_left₀ (by norm_num) (by norm_num) (by norm_num)
      _ ≤ 10 ^ E := zpow_le_zpow_right₀ (by norm_num) (by omega)
  exact absurd hlt (not_lt.mpr hge)

/-- Nor is it taken for zero. -/
theorem IsCanonical.le_decimalExponent (h : IsCanonical m e) (hv : (n : ℚ) * 10 ^ E = m * 2 ^ e) :
    -(2048 + (n.log2 : Int)) ≤ E := by
  by_contra hE
  have hpow : (10 : ℚ) ^ E ≤ 2 ^ E :=
    calc (10 : ℚ) ^ E = 2 ^ E * 5 ^ E := by rw [← mul_zpow]; norm_num
      _ ≤ 2 ^ E * 1 := mul_le_mul_of_nonneg_left
          (zpow_le_one_of_nonpos₀ (by norm_num) (by omega)) (zpow_nonneg (by norm_num) E)
      _ = 2 ^ E := mul_one _
  -- Such a power of ten brings every number with these digits below the least float.
  have hlt : (2 : ℚ) ^ (-1074 : Int) < 2 ^ (-1074 : Int) :=
    calc (2 : ℚ) ^ (-1074 : Int) ≤ m * 2 ^ e := h.bounds.1
      _ = n * 10 ^ E := hv.symm
      _ ≤ n * 2 ^ E := mul_le_mul_of_nonneg_left hpow (Nat.cast_nonneg n)
      _ < 2 ^ ((n.log2 : Int) + 1) * 2 ^ E :=
          mul_lt_mul_of_pos_right (lt_two_zpow n) (zpow_pos (by norm_num) E)
      _ = 2 ^ ((n.log2 : Int) + 1 + E) := (zpow_add₀ (by norm_num) _ _).symm
      _ ≤ 2 ^ (-1074 : Int) := zpow_le_zpow_right₀ (by norm_num) (by omega)
  exact lt_irrefl _ hlt

/-- The quotient by a power of ten has bits enough for its exponent to be no greater than the
    one of the number that it is. -/
theorem IsCanonical.quotientExponent_le (h : IsCanonical m e) (hn : n ≠ 0) (hN : N ≠ 0)
    (hv : (n : ℚ) = m * N * 2 ^ e) : (n.log2 : Int) - N.log2 - 53 ≤ e := by
  have hlt : (2 : ℚ) ^ (n.log2 : Int) < 2 ^ (53 + e + (N.log2 + 1)) :=
    calc (2 : ℚ) ^ (n.log2 : Int) ≤ n := two_zpow_le hn
      _ = m * 2 ^ e * N := by rw [hv, mul_right_comm]
      _ < 2 ^ (53 + e) * N := mul_lt_mul_of_pos_right h.bounds.2 (by positivity)
      _ ≤ 2 ^ (53 + e) * 2 ^ ((N.log2 : Int) + 1) :=
          mul_le_mul_of_nonneg_left (lt_two_zpow N).le (by positivity)
      _ = 2 ^ (53 + e + (N.log2 + 1)) := (zpow_add₀ (by norm_num) _ _).symm
  have hexp := (zpow_lt_zpow_iff_right₀ (by norm_num)).mp hlt
  omega

/-- A division that has no remainder is exact. -/
theorem div_canonical (h : IsCanonical m e) (hn : n ≠ 0) (hN : N ≠ 0)
    (hv : (n : ℚ) = m * N * 2 ^ e) :
    UnpackedFloat.div .binary64 (.finite .positive n 0 (Nat.pos_of_ne_zero hn))
      (.finite .positive N 0 (Nat.pos_of_ne_zero hN)) = .finite .positive m e h.pos := by
  have hleast := h.least
  have hquotient := h.quotientExponent_le hn hN hv
  unfold UnpackedFloat.div divCore
  simp only [sub_zero]
  generalize ht : min (0 : Int) (Format.binary64.targetExponent
    (totalExponent n 0 - totalExponent N 0)) = t
  have hle : t ≤ 0 ∧ t ≤ e := by
    rw [targetExponent_eq, totalExponent, totalExponent] at ht
    omega
  -- Nothing is cut off of the dividend, so what is divided is a multiple of the divisor.
  have hunits : (n : ℚ) * 2 ^ (0 : Int) = (m * N : Nat) * 2 ^ e := by
    rw [zpow_zero, mul_one, hv, Nat.cast_mul]
  have hdividend : n <<< (0 - t).toNat = m * 2 ^ (e - t).toNat * N := by
    rw [Nat.shiftLeft_eq, mul_pow_eq hunits hle.1 hle.2]
    ac_rfl
  rw [hdividend, Nat.mul_div_cancel _ (Nat.pos_of_ne_zero hN), Nat.mul_mod_left]
  exact roundWithAccuracy_of_le h hle.2

/-- A product is exact if it needs no more bits than there are. -/
theorem mul_canonical (h : IsCanonical m e) (hn : n ≠ 0) (hN : N ≠ 0)
    (hv : (n * N : ℚ) = m * 2 ^ e) :
    UnpackedFloat.mul .binary64
      (.finite .positive (n <<< 53) (-53) (Nat.pos_of_ne_zero (by simpa using hn)))
      (.finite .positive N 0 (Nat.pos_of_ne_zero hN)) = .finite .positive m e h.pos := by
  have hone : (1 : ℚ) ≤ n * N := by exact_mod_cast Nat.mul_pos (by omega) (by omega)
  -- A whole number has no bit below the point.
  have hexp : -53 ≤ e := by
    have hlt : (2 : ℚ) ^ (0 : Int) < 2 ^ (53 + e) := by
      rw [zpow_zero]
      exact (hv ▸ hone).trans_lt h.bounds.2
    have hlt' := (zpow_lt_zpow_iff_right₀ (by norm_num)).mp hlt
    omega
  have hunits : ((n * N : Nat) : ℚ) * 2 ^ (0 : Int) = m * 2 ^ e := by
    rw [zpow_zero, mul_one, Nat.cast_mul, hv]
  have hproduct : n <<< 53 * N = m * 2 ^ (e - -53).toNat := by
    rw [← mul_pow_eq hunits (by norm_num) hexp, Nat.shiftLeft_eq, Nat.mul_right_comm]
    rfl
  simp only [UnpackedFloat.mul]
  rw [hproduct]
  exact roundWithAccuracy_of_le h hexp

/-- The scientific notation of a canonical number is read exactly. -/
theorem ofScientific_canonical (h : IsCanonical m e) (hv : (n : ℚ) * 10 ^ E = m * 2 ^ e) :
    UnpackedFloat.ofScientific .binary64 n E = .finite .positive m e h.pos := by
  have hbound : (2 : ℚ) ^ (-1074 : Int) ≤ n * 10 ^ E := hv ▸ h.bounds.1
  have hn : n ≠ 0 := by
    rintro rfl
    rw [Nat.cast_zero, zero_mul] at hbound
    exact absurd hbound (not_le.mpr (zpow_pos (by norm_num) _))
  have hhigh := h.decimalExponent_le hn hv
  have hlow := h.le_decimalExponent hv
  have hten : ∀ k, 10 ^ k ≠ 0 := fun k => Nat.ne_of_gt (Nat.pow_pos (by decide))
  -- The exponent is within the bounds of the definition, which multiplies or divides by a power
  -- of ten.
  unfold UnpackedFloat.ofScientific
  rw [dif_neg hn, if_neg (by norm_num; exact hhigh), if_neg (by norm_num; omega)]
  split
  · rename_i hE
    apply mul_canonical h hn (hten _)
    rw [← hv, Nat.cast_pow, pow_toNat _ hE]
    rfl
  · rename_i hE
    apply div_canonical h hn (hten _)
    rw [mul_right_comm, ← hv, Nat.cast_pow, pow_toNat _ (by omega), mul_assoc, Nat.cast_ofNat,
      ← zpow_add₀ (by norm_num), add_neg_cancel, zpow_zero, mul_one]

namespace Decimal

/-- A decimal that is a canonical number stands for the float with its mantissa and exponent. -/
theorem toFloat_of_value (h : IsCanonical m e) (hv : d.value = m * 2 ^ e) :
    d.toFloat = .ofModel (.pack (.finite .positive m e h.pos)) := by
  rw [← value_normal] at hv
  exact congrArg (fun u => Float.ofModel (.pack u)) (ofScientific_canonical h hv)

/-- The decimal zero stands for the zero without a sign. -/
theorem toFloat_of_value_zero (hv : d.value = 0) :
    d.toFloat = .ofModel (.pack (.zero .positive)) := by
  rw [toFloat, normal, if_pos (value_eq_zero_iff.mp hv)]
  rfl

/-- No decimal has a minus sign, and so no float that is read from one. -/
theorem abs_toFloat (d : Decimal) : d.toFloat.toModel.unpack.abs = d.toFloat.toModel.unpack := by
  apply abs_unpack_pack
  unfold UnpackedFloat.ofScientific
  repeat' split
  · rfl
  · rfl
  · rfl
  · exact abs_roundWithAccuracy _ _ _
  · exact abs_roundWithAccuracy _ _ _

end Decimal

namespace Dyadic

variable {d : Dyadic}

/-- The decimal of a number is the number without its sign. -/
theorem value_decimal (d : Dyadic) : d.decimal.value = d.mantissa * 2 ^ d.exponent := by
  unfold decimal Decimal.value
  split
  · rename_i hexp
    simp only [zpow_zero, mul_one, Nat.pow_eq, Nat.cast_mul, Nat.cast_pow]
    rw [pow_toNat _ hexp, Nat.cast_ofNat]
  · rename_i hexp
    simp only [Nat.pow_eq, Nat.cast_mul, Nat.cast_pow]
    rw [pow_toNat _ (by omega), Nat.cast_ofNat, mul_assoc]
    congr 1
    rw [show (10 : ℚ) = 5 * 2 by norm_num, mul_zpow, ← mul_assoc, ← zpow_add₀ (by norm_num),
      neg_add_cancel, zpow_zero, one_mul]

theorem abs_magnitude (d : Dyadic) :
    d.magnitude.toModel.unpack.abs = d.magnitude.toModel.unpack :=
  abs_unpack_pack (abs_roundWithAccuracy _ _ _)

/-- A finite float is a zero or canonical. -/
theorem finite_cases (h : FloatView.of x = .finite d) :
    (∃ s, x.toModel.unpack = .zero s ∧ d = ⟨s == .negative, 0, 0⟩) ∨
    ∃ s m e hm, x.toModel.unpack = .finite s m e hm ∧ d = ⟨s == .negative, m, e⟩ ∧
      IsCanonical m e := by
  unfold FloatView.of at h
  -- Of the four kinds of unpacked floats, two are finite.
  split at h
  · cases h
  · cases h
  · rename_i s hu
    cases h
    exact .inl ⟨s, hu, rfl⟩
  · rename_i s m e hm hu
    cases h
    exact .inr ⟨s, m, e, hm, hu, rfl, isCanonical_of_unpack hu⟩

/-- The magnitude of a finite float is the float without its sign. -/
theorem magnitude_of_view (h : FloatView.of x = .finite d) :
    d.magnitude = .ofModel (.pack x.toModel.unpack.abs) := by
  rcases finite_cases h with ⟨s, hu, rfl⟩ | ⟨s, m, e, hm, hu, rfl, hc⟩
  · rw [hu]
    exact congrArg (fun u => Float.ofModel (.pack u)) (round_zero .positive)
  · rw [hu]
    exact congrArg (fun u => Float.ofModel (.pack u)) (round_canonical hc)

/-- The exact decimal of a finite float reads back as its magnitude. -/
theorem toFloat_decimal (h : FloatView.of x = .finite d) : d.decimal.toFloat = d.magnitude := by
  rw [magnitude_of_view h]
  rcases finite_cases h with ⟨s, hu, rfl⟩ | ⟨s, m, e, hm, hu, rfl, hc⟩
  · rw [hu]
    exact Decimal.toFloat_of_value_zero (by simp [value_decimal])
  · rw [hu]
    exact Decimal.toFloat_of_value hc (value_decimal _)

end Dyadic

/-- What is found among the decimals with fewer digits has been compared with the float. -/
theorem Decimal.beq_of_rounded? {exact c : Decimal} {k : Nat}
    (h : exact.rounded? x k = some c) : (c.toFloat == x) = true := by
  unfold rounded? at h
  dsimp only at h
  split at h
  · cases h
    split <;> assumption
  · cases h
    assumption
  · cases h
    assumption
  · cases h

/-- The decimal that is written for a finite float reads back as its magnitude. -/
theorem Dyadic.toFloat_shortest {d : Dyadic} (h : FloatView.of x = .finite d) :
    d.shortest.toFloat = d.magnitude := by
  unfold shortest
  dsimp only
  rw [Decimal.toFloat_eq_of_value (Decimal.value_normal _)]
  cases hfound : (List.range maxDigits).findSome? fun n =>
      d.decimal.rounded? d.magnitude (d.decimal.digitChars.length - (n + 1)) with
  | none => exact toFloat_decimal h
  | some c =>
      rcases List.exists_of_findSome?_eq_some hfound with ⟨n, -, hn⟩
      exact eq_of_beq_of_abs c.abs_toFloat d.abs_magnitude (Decimal.beq_of_rounded? hn)

theorem eq_pack_unpack (x : Float) : x = .ofModel (.pack x.toModel.unpack) :=
  congrArg Float.ofModel (pack_unpack _).symm

/-- There is only one float that is no number. -/
theorem eq_undefinedFloat (h : FloatView.of x = .undefined) : x = undefinedFloat := by
  have hx := eq_pack_unpack x
  unfold FloatView.of at h
  split at h
  · rename_i hu
    rw [hu] at hx
    exact hx.trans (by decide +kernel)
  all_goals cases h

/-- There is only one infinite float on each side. -/
theorem eq_infinite {b : Bool} (h : FloatView.of x = .infinite b) :
    x = if b then -(1.0 / 0.0) else 1.0 / 0.0 := by
  have hx := eq_pack_unpack x
  unfold FloatView.of at h
  split at h
  · cases h
  · rename_i s hu
    cases h
    rw [hu] at hx
    cases s <;> exact hx.trans (by decide +kernel)
  all_goals cases h

/-- A finite float is its magnitude, with its sign in front of it. -/
theorem eq_magnitude {d : Dyadic} (h : FloatView.of x = .finite d) :
    x = if d.negative then -d.magnitude else d.magnitude := by
  have hx := eq_pack_unpack x
  rw [Dyadic.magnitude_of_view h]
  rcases Dyadic.finite_cases h with ⟨s, hu, rfl⟩ | ⟨s, m, e, hm, hu, rfl, hc⟩
  · rw [hu] at hx ⊢
    cases s <;> exact hx
  · -- A negative float is its magnitude with the sign changed, which packing keeps apart.
    have hback : (Float.Model.pack (.finite .positive m e hm)).unpack = .finite .positive m e hm :=
      unpack_pack_canonical hc
    rw [hu] at hx ⊢
    cases s with
    | positive => exact hx
    | negative =>
        rw [hx]
        exact congrArg (fun u => Float.ofModel (.pack u.neg)) hback.symm

end TreeScript
