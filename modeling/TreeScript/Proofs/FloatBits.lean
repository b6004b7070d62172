import Mathlib
import TreeScript.Number.Dyadic
import TreeScript.Proofs.Conversion

/-!
# Floats and Their Bits

A float is a sign, an exponent and a mantissa, each of them some bits of a word. What is read
out of a word is a float again when it is written back, and it is the same float. For a number
that is not zero, what is read is canonical: the mantissa has 53 bits, or it has fewer and the
exponent is the least one. A canonical number is not changed when it is rounded, whichever power
of two has been moved from its exponent into its mantissa before.

Floats that compare as equal are the same float, but for the sign of zero. Where no sign is
minus, they are the same without exception.

The library models floats by their bits and gives no laws of them, so the two directions
are shown here. A word is taken apart into its three fields once, by
`exists_packComponents`, and everything else is by cases on the exponent field: full,
empty or neither. The bounds of `IsCanonical` are those of 64-bit floats and are written
out, as no other format occurs.

Rounding is only looked at where it does nothing. That is enough for reading back, where
the number that is rounded is the float that was printed.

## Main definitions

* `IsCanonical`: The mantissas and exponents of finite floats.

## Theorems

* `exists_packComponents`: A word has three parts.
* `isCanonical_of_unpack`: What is read is canonical.
* `pack_unpack`: A float is written back as it was.
* `unpack_pack_canonical`: A canonical number is read back.
* `roundWithAccuracy_of_le`, `round_canonical`: A canonical number is not rounded.
* `eq_of_beq_of_abs`: Equal floats are the same, if no sign is minus.
* `pack_subnormal`: How a small mantissa is written.
* `targetExponent_canonical`, `shiftToTarget_canonical`: The exponent that is rounded to,
  and the shift.
* `abs_unpack_pack`: Without a minus sign, none is read back.
-/

namespace TreeScript

open Float.Model (UnpackedFloat Format totalExponent)
open Float.Model.UnpackedFloat

variable {s : Sign} {m : Nat} {e : Int} {hm : 0 < m} {u v : UnpackedFloat} {x y : Float}

/-- The mantissas and exponents of the finite floats that are not zero. Only at the least
    exponent may the mantissa have fewer than 53 bits. -/
structure IsCanonical (m : Nat) (e : Int) : Prop where
  pos : 0 < m
  lt : m < 2 ^ 53
  least : -1074 ≤ e
  greatest : e ≤ 971
  full : 2 ^ 52 ≤ m ∨ e = -1074

/-- Each word has three parts. -/
theorem exists_packComponents (w : BitVec Format.binary64.numBits) :
    ∃ s E M, w = packComponents .binary64 s E M := by
  refine ⟨Sign.ofBitVec (unpackSign w), unpackExponent w, unpackMantissa w, ?_⟩
  have hsign : (Sign.ofBitVec (unpackSign w)).toBitVec = unpackSign w := by
    rcases BitVec.eq_zero_or_eq_one (unpackSign w) with h | h <;> rw [h] <;> rfl
  unfold packComponents
  rw [hsign]
  apply BitVec.eq_of_getLsbD_eq
  intro i hi
  have hi : i < 64 := hi
  simp only [unpackSign, unpackExponent, unpackMantissa, BitVec.getLsbD_append,
    BitVec.getLsbD_cast, BitVec.getLsbD_extractLsb]
  -- The mantissa ends at bit 52, and the exponent at bit 63.
  rcases Nat.lt_or_ge i 52 with h | h
  · simp [h]
  · rcases Nat.lt_or_ge i 63 with h' | h'
    · simp [show ¬ i < 52 by omega, show i - 52 < 11 by omega, show 52 + (i - 52) = i by omega]
    · obtain rfl : i = 63 := by omega
      simp

/-- Below 53 bits a mantissa is written as it is. -/
theorem pack_subnormal (hlt : m < 2 ^ 52) :
    UnpackedFloat.pack .binary64 (.finite s m (-1074) hm) =
      packComponents .binary64 s 0#_ (BitVec.ofNat 52 m) := by
  have hlog : m.log2 < 52 := (Nat.log2_lt (by omega)).mpr hlt
  have hbits : Format.binary64.mantissaBits = 53 := rfl
  simp only [UnpackedFloat.pack]
  rw [if_neg (by decide), if_neg (by omega)]

/-- A float is not changed when its parts are read out and written back. -/
theorem pack_unpack (f : Float.Model) : .pack f.unpack = f := by
  rcases f with ⟨⟨w⟩, hvalid⟩
  suffices hword : UnpackedFloat.pack .binary64 (UnpackedFloat.unpack .binary64 w) = w by
    unfold Float.Model.pack Float.Model.unpack
    congr
  rcases exists_packComponents w with ⟨s, E, M, rfl⟩
  rw [unpack_packComponents]
  split
  · -- With an exponent of ones a word is no number. Only one of them is valid as undefined.
    rename_i hE
    split
    · rename_i hM
      rw [hE, hM]
      rfl
    · rename_i hM
      exact (hvalid.eq_packedNaN (by simpa using hE) (by simpa using hM)).symm
  · rename_i hE
    split
    · -- With an exponent of zeros the mantissa has no leading bit.
      rename_i hzero
      split
      · rename_i hM
        rw [hzero, hM]
        rfl
      · rw [pack_subnormal M.isLt, hzero, BitVec.ofNat_toNat, BitVec.setWidth_eq]
    · have hM : BitVec.ofNat 52 (1#1 ++ M).toNat = M := by
        apply BitVec.eq_of_toNat_eq
        rw [toNat_implicit, BitVec.toNat_ofNat, Nat.add_mod_left, Nat.mod_eq_of_lt M.isLt]
      have hlow := toNat_implicit M
      rw [pack_normal (by omega) (by omega) E hE, hM]

/-- What is read out of a word is canonical. -/
theorem isCanonical_of_unpack {f : Float.Model} (h : f.unpack = .finite s m e hm) :
    IsCanonical m e := by
  rcases exists_packComponents f.toBits.toBitVec with ⟨s', E, M, hw⟩
  have hparts : f.unpack = _ := (congrArg (unpack .binary64) hw).trans
    (unpack_packComponents s' E M)
  rw [hparts] at h
  -- The exponent field is full, empty or neither. A full one is no finite float.
  split at h
  · split at h <;> cases h
  · rename_i hE
    split at h
    · split at h
      · cases h
      · cases h
        exact ⟨hm, by omega, by omega, by omega, .inr rfl⟩
    · rename_i hzero
      have hmax : E.toNat ≠ 2047 := fun h => hE (BitVec.eq_of_toNat_eq h)
      have hmin : E.toNat ≠ 0 := fun h => hzero (BitVec.eq_of_toNat_eq h)
      cases h
      rw [toNat_implicit]
      exact ⟨by omega, by omega, by omega, by omega, .inl (by omega)⟩

/-- A canonical number is read back. -/
theorem unpack_pack_canonical (h : IsCanonical m e) :
    (Float.Model.pack (.finite s m e hm)).unpack = .finite s m e hm := by
  -- A mantissa that is not full belongs to the least exponent, so the float is subnormal.
  rcases Nat.lt_or_ge m (2 ^ 52) with hlt | hge
  · obtain rfl : e = -1074 := h.full.resolve_left (by omega)
    have hM : BitVec.ofNat 52 m ≠ 0#52 := by
      intro hzero
      have hbits := congrArg BitVec.toNat hzero
      rw [BitVec.toNat_ofNat, Nat.mod_eq_of_lt hlt] at hbits
      exact absurd hbits (Nat.ne_of_gt hm)
    show unpack .binary64 (UnpackedFloat.pack .binary64 (.finite s m (-1074) hm)) = _
    rw [pack_subnormal hlt, unpack_packComponents]
    simpa [hM] using hlt
  · exact unpack_pack hge h.lt h.least h.greatest

/-- Without a minus sign, none is written. -/
theorem exists_pack_of_abs (h : u.abs = u) :
    ∃ E M, UnpackedFloat.pack .binary64 u = packComponents .binary64 .positive E M := by
  cases u with
  | notANumber => exact ⟨_, _, rfl⟩
  | infinity s =>
      cases s with
      | negative => cases h
      | positive => exact ⟨_, _, rfl⟩
  | zero s =>
      cases s with
      | negative => cases h
      | positive => exact ⟨_, _, rfl⟩
  -- A finite float is packed as a normal or a subnormal one, or as infinity.
  | finite s m e hm =>
      cases s with
      | negative => cases h
      | positive =>
          simp only [UnpackedFloat.pack]
          split
          · exact ⟨_, _, rfl⟩
          · split <;> exact ⟨_, _, rfl⟩

/-- Without a minus sign, none is read back. -/
theorem abs_unpack_pack (h : u.abs = u) :
    (Float.Model.pack u).unpack.abs = (Float.Model.pack u).unpack := by
  rcases exists_pack_of_abs h with ⟨E, M, hparts⟩
  have hunpack : (Float.Model.pack u).unpack = _ :=
    (congrArg (unpack .binary64) hparts).trans (unpack_packComponents .positive E M)
  rw [hunpack]
  repeat' split
  all_goals rfl

theorem abs_roundWithAccuracy (m : Nat) (e : Int) (a : Accuracy) :
    (roundWithAccuracy .binary64 .positive m e a).abs =
      roundWithAccuracy .binary64 .positive m e a := by
  unfold roundWithAccuracy
  dsimp only
  split <;> rfl

/-- Floats without a minus sign that are at one place are the same. -/
theorem eq_of_place (hu : u.abs = u) (hv : v.abs = v) (hn : u ≠ .notANumber)
    (hn' : v ≠ .notANumber) (h : place u = place v) : u = v := by
  rw [← hu, ← hv] at h ⊢
  -- Places of different kinds are never equal, so the kinds agree.
  cases u with
  | notANumber => exact absurd rfl hn
  | infinity s =>
      cases v with
      | notANumber => exact absurd rfl hn'
      | infinity s' => rfl
      | zero s' => cases h
      | finite s' m' e' hm' => cases h
  | zero s =>
      cases v with
      | notANumber => exact absurd rfl hn'
      | infinity s' => cases h
      | zero s' => rfl
      | finite s' m' e' hm' => cases h
  | finite s m e hm =>
      cases v with
      | notANumber => exact absurd rfl hn'
      | infinity s' => cases h
      | zero s' => cases h
      | finite s' m' e' hm' =>
          cases h
          rfl

theorem comparePlaces_eq_iff {a b : Int × Int × Int} : comparePlaces a b = .eq ↔ a = b := by
  simp only [comparePlaces, compareLex, compareOn, Ordering.then_eq_eq, Int.compare_eq_eq,
    Prod.ext_iff]

/-- Floats without a minus sign that compare as equal are the same. -/
theorem eq_of_beq_of_abs (hx : x.toModel.unpack.abs = x.toModel.unpack)
    (hy : y.toModel.unpack.abs = y.toModel.unpack) (h : (x == y) = true) : x = y := by
  have hcompare : floatCompare x y = some .eq := beq_iff_eq.mp h
  rcases floatCompare_eq_some_iff.mp hcompare with ⟨hn, hn', hplace⟩
  have heq := eq_of_place hx hy hn hn' (comparePlaces_eq_iff.mp hplace)
  rcases x with ⟨f⟩
  rcases y with ⟨g⟩
  rw [← pack_unpack f, ← pack_unpack g]
  exact congrArg (fun u => Float.ofModel (.pack u)) heq

/-- The exponent of a canonical pair is recovered from any multiple of it by a power of two. -/
theorem targetExponent_canonical (h : IsCanonical m e) (k : Nat) :
    Format.binary64.targetExponent (totalExponent (m * 2 ^ k) (e - k)) = e := by
  have hne : m ≠ 0 := Nat.ne_of_gt h.pos
  have hlog : m.log2 < 53 := (Nat.log2_lt hne).mpr h.lt
  have hleast := h.least
  rw [targetExponent_eq, totalExponent, log2_mul_pow hne]
  -- A full mantissa keeps its exponent, and the others have the least one anyway.
  rcases h.full with hfull | rfl
  · have hlog' : 52 ≤ m.log2 := (Nat.le_log2 hne).mpr hfull
    omega
  · omega

/-- The shift takes the added places away again. -/
theorem shiftToTarget_canonical (h : IsCanonical m e) (k : Nat) :
    shiftToTargetExponent .binary64 (m * 2 ^ k) (e - k) .exact =
      (ExtendedMantissa.mk (m * 2 ^ k) false false >>> k, e) := by
  unfold shiftToTargetExponent shiftToExponent
  rw [targetExponent_canonical h]
  have hshift : (e - (e - k)).toNat = k := by omega
  have hexp : e - k + k = e := by omega
  simp only [hshift, hexp, ExtendedMantissa.ofMantissaAndAccuracy]

/-- A canonical number is not rounded, whatever power of two has been moved into its mantissa. -/
theorem roundWithAccuracy_canonical (h : IsCanonical m e) (k : Nat) :
    roundWithAccuracy .binary64 s (m * 2 ^ k) (e - k) .exact = .finite s m e h.pos := by
  have hrounded : (ExtendedMantissa.mk (m * 2 ^ k) false false >>> k).roundedMantissa = m := by
    rw [roundedMantissa_eq, quarters_shiftRight]
    exact rounded_exact m k
  have hagain := shiftToTarget_canonical h 0
  rw [Nat.pow_zero, Nat.mul_one, Int.natCast_zero, Int.sub_zero] at hagain
  unfold roundWithAccuracy
  rw [shiftToTarget_canonical h]
  dsimp only
  rw [hrounded, hagain]
  exact dif_neg (Nat.ne_of_gt h.pos)

/-- A number that is given in smaller units, so that nothing is cut off of it, is not rounded. -/
theorem roundWithAccuracy_of_le {t : Int} (h : IsCanonical m e) (ht : t ≤ e) :
    roundWithAccuracy .binary64 s (m * 2 ^ (e - t).toNat) t .exact = .finite s m e h.pos := by
  have hround := roundWithAccuracy_canonical (s := s) h (e - t).toNat
  rwa [show e - (e - t).toNat = t by omega] at hround

/-- A canonical pair is rounded to itself. -/
theorem round_canonical (h : IsCanonical m e) :
    UnpackedFloat.round .binary64 s m e = .finite s m e h.pos := by
  have htarget := targetExponent_canonical h 0
  have hround := roundWithAccuracy_canonical (s := s) h 0
  rw [Nat.pow_zero, Nat.mul_one, Int.natCast_zero, Int.sub_zero] at htarget hround
  have hshift : (e - e).toNat = 0 := by omega
  unfold UnpackedFloat.round decreaseExponent
  simp only [htarget, hshift, Int.natCast_zero, Int.sub_zero]
  exact hround

theorem round_zero (s : Sign) : UnpackedFloat.round .binary64 s 0 0 = .zero s := rfl

end TreeScript
