import Mathlib
import TreeScript.Proofs.ExactDecimal
import TreeScript.Proofs.Levels
import TreeScript.Proofs.Separators

/-!
# Numerals

What is printed for a number is read as that number, as a literal of a program and, if it is a
float, as a line of input. It is also read as a number of the same kind, although a literal is
tried as an integer first: the text of a float has a point or an exponent, or it is a name.

The three notations of a decimal are all read the same way, as digits before and behind a point
and an exponent behind those. Zeros that fill the place between the digits and the point make no
difference. Which float a decimal is read as depends only on the number, so it is enough that
the number comes back, and it need not come back with the same digits: a whole number is read in
tenths.

The reader is described by what it makes of its parts: a sign, digits up to the first
character that is none, a point and digits behind it, an exponent. Each notation is then
put together of such parts, and the condition at each seam is one on the next character
only. The names for what is no number have no digits and are read before anything else is
tried.

Whether a text could be an integer or be split by an underscore is decided by the
characters that occur in it, so one lemma on these characters serves both.

## Main definitions

* `IsDigits`: All characters are digits.
* `IsNumeral`: All characters are such with which floats are written.

## Theorems

* `Decimal.readDecimal?_written`: What is written for a decimal reads back.
* `readFloat?_floatChars`, `readInt?_floatChars`: The text of a float is the float, and no
  integer.
* `readInt?_intChars`: The text of an integer is the integer.
* `inputValue_floatText`: The text of a float is the float as a line of input, too.
* `numbers_read_back`: What is printed for a number is read as that number.
* `span_isDigits`: Digits end at the first character that is none.
* `Decimal.readDecimal?_positional`, `Decimal.readDecimal?_scientific`: The notations of a
  decimal.
* `isNumeral_floatChars`, `IsNumeral.plain`: The characters of a float.
-/

namespace TreeScript

variable {cs digits whole behind q : List Char} {c : Char} {d : Decimal} {x : Float}

/-- All characters are digits. -/
def IsDigits (cs : List Char) : Prop := ∀ c ∈ cs, c.isDigit = true

theorem isDigits_toDigits (n : Nat) : IsDigits (Nat.toDigits 10 n) := fun _ hc =>
  Nat.isDigit_of_mem_toDigits (by decide) (by decide) hc

theorem isDigits_zeros (n : Nat) : IsDigits (List.replicate n '0') := by
  intro c hc
  rw [List.eq_of_mem_replicate hc]
  rfl

theorem IsDigits.append (h : IsDigits whole) (h' : IsDigits behind) :
    IsDigits (whole ++ behind) := fun c hc =>
  (List.mem_append.mp hc).elim (h c) (h' c)

theorem IsDigits.sublist (h : IsDigits cs) (hs : digits.Sublist cs) : IsDigits digits :=
  fun c hc => h c (hs.subset hc)

theorem readNat?_of_isDigits (hne : cs ≠ []) (h : IsDigits cs) :
    readNat? cs = some (Nat.ofDigitChars 10 cs 0) := by
  have hall : cs.all Char.isDigit = true := List.all_eq_true.mpr h
  have hsome : cs.isEmpty = false := List.isEmpty_eq_false_iff.mpr hne
  rw [readNat?, hall, hsome]
  rfl

/-- Zeros in front of digits do not count. -/
theorem ofDigitChars_zeros (k : Nat) (cs : List Char) :
    Nat.ofDigitChars 10 (List.replicate k '0' ++ cs) 0 = Nat.ofDigitChars 10 cs 0 := by
  rw [Nat.ofDigitChars_append, Nat.ofDigitChars_replicate_zero, Nat.mul_zero]

theorem isDigits_twoDigits (n : Nat) : IsDigits (Decimal.twoDigits n) :=
  (isDigits_zeros _).append (isDigits_toDigits n)

/-- A number that is filled up to two digits reads back. -/
theorem readNat?_twoDigits (n : Nat) : readNat? (Decimal.twoDigits n) = some n := by
  rw [readNat?_of_isDigits (by simp [Decimal.twoDigits, Nat.toDigits_ne_nil])
    (isDigits_twoDigits n)]
  exact congrArg some ((ofDigitChars_zeros _ _).trans Nat.ofDigitChars_ten_toDigits)

/-- A sign and a natural number are read as an integer. -/
theorem readInt?_of_splitSign {b : Bool} {n : Nat} (hsign : splitSign cs = (b, q))
    (hq : readNat? q = some n) :
    readInt? cs = some (if b then -(n : Int) else n) := by
  unfold readInt?
  rw [hsign]
  simp only [hq]
  rfl

theorem signed_natAbs (z : Int) :
    (if decide (z < 0) = true then -(z.natAbs : Int) else z.natAbs) = z := by
  by_cases hz : z < 0
  · rw [if_pos (decide_eq_true hz)]
    omega
  · rw [if_neg (by simpa using hz)]
    omega

/-- What is read as the whole part and what stands behind it. -/
theorem span_isDigits (h : IsDigits whole) (hq : ∀ c ∈ q.head?, c.isDigit = false) :
    (whole ++ q).takeWhile Char.isDigit = whole ∧
      (whole ++ q).dropWhile Char.isDigit = q := by
  rw [List.takeWhile_append_of_pos h, List.dropWhile_append_of_pos h]
  cases q with
  | nil => simp
  | cons c q => simp [hq c rfl]

/-- A decimal with a point is read as the digits before and behind it. -/
theorem readDecimal?_point (hwhole : IsDigits whole) (hbehind : IsDigits behind)
    (hne : whole ≠ []) (hq : ∀ c ∈ q.head?, c.isDigit = false) :
    readDecimal? (whole ++ '.' :: (behind ++ q)) = (readExponent? q).map fun e =>
      ⟨Nat.ofDigitChars 10 (whole ++ behind) 0, e - behind.length⟩ := by
  have hspan := span_isDigits (q := '.' :: (behind ++ q)) hwhole (by rintro _ ⟨⟩; rfl)
  have hspan' := span_isDigits hbehind hq
  unfold readDecimal?
  rw [hspan.1, hspan.2]
  simp only [splitFraction, hspan'.1, hspan'.2]
  simp [hne]

/-- A decimal without a point is read as its digits. -/
theorem readDecimal?_exponent (hwhole : IsDigits whole) (hne : whole ≠ []) (cs : List Char) :
    readDecimal? (whole ++ 'e' :: cs) = (readExponent? ('e' :: cs)).map fun e =>
      ⟨Nat.ofDigitChars 10 whole 0, e⟩ := by
  have hspan := span_isDigits (q := 'e' :: cs) hwhole (by rintro _ ⟨⟩; rfl)
  unfold readDecimal?
  rw [hspan.1, hspan.2]
  simp only [splitFraction]
  simp [hne]

namespace Decimal

theorem digitChars_ne_nil (d : Decimal) : d.digitChars ≠ [] := Nat.toDigits_ne_nil

theorem isDigits_digitChars (d : Decimal) : IsDigits d.digitChars := isDigits_toDigits d.digits

theorem ofDigitChars_digitChars (d : Decimal) : Nat.ofDigitChars 10 d.digitChars 0 = d.digits :=
  Nat.ofDigitChars_ten_toDigits

/-- A whole number that is written out reads back in tenths. -/
theorem readDecimal?_whole (h : 0 ≤ d.exponent) : ∃ c,
    readDecimal? (d.digitChars ++ List.replicate d.exponent.toNat '0' ++ ['.', '0']) = some c ∧
      c.value = d.value := by
  have hwhole := d.isDigits_digitChars.append (isDigits_zeros d.exponent.toNat)
  have hzeros : List.replicate d.exponent.toNat '0' ++ ['0'] =
      List.replicate (d.exponent.toNat + 1) '0' := List.replicate_succ'.symm
  refine ⟨_, readDecimal?_point hwhole (isDigits_zeros 1) (by simp [d.digitChars_ne_nil]) nofun, ?_⟩
  rw [List.append_assoc, List.replicate_one, hzeros, Nat.ofDigitChars_append,
    Nat.ofDigitChars_replicate_zero, d.ofDigitChars_digitChars]
  simp only [value, pow_succ, Nat.cast_mul, Nat.cast_pow, Nat.cast_ofNat, pow_toNat _ h]
  norm_num
  ring

/-- Digits with the point among them read back. -/
theorem readDecimal?_among (h : d.exponent < 0) (h' : 0 ≤ d.leading) :
    readDecimal? (d.digitChars.take (d.leading.toNat + 1) ++
      '.' :: d.digitChars.drop (d.leading.toNat + 1)) = some d := by
  have hdigits := d.isDigits_digitChars
  have hlength : (d.leading.toNat : Int) + 1 = d.exponent + d.digitChars.length := by
    rw [Int.toNat_of_nonneg h', leading]
    omega
  have hexp : (0 : Int) - (d.digitChars.length - (d.leading.toNat + 1) : Nat) = d.exponent := by
    omega
  -- The two parts are the digits before and behind the point, of which there are as many as the
  -- exponent says.
  have hread := readDecimal?_point (q := [])
    (hdigits.sublist (List.take_sublist (d.leading.toNat + 1) _))
    (hdigits.sublist (List.drop_sublist (d.leading.toNat + 1) _))
    (by simp [d.digitChars_ne_nil]) nofun
  rw [List.append_nil, List.take_append_drop, d.ofDigitChars_digitChars, List.length_drop,
    readExponent?, Option.map_some, hexp] at hread
  exact hread

/-- Digits behind zeros behind the point read back. -/
theorem readDecimal?_behind (h : d.leading < 0) :
    readDecimal? (['0', '.'] ++ List.replicate (-d.leading - 1).toNat '0' ++ d.digitChars) =
      some d := by
  have hlength : d.leading = d.exponent + d.digitChars.length - 1 := rfl
  -- The zeros behind the point and the digits make up for the exponent.
  have hexp : (0 : Int) - ((-d.leading - 1).toNat + d.digitChars.length : Nat) = d.exponent := by
    omega
  have hread := readDecimal?_point (q := []) (isDigits_zeros 1)
    ((isDigits_zeros (-d.leading - 1).toNat).append d.isDigits_digitChars) (by simp) nofun
  rw [List.append_nil, ofDigitChars_zeros, ofDigitChars_zeros, d.ofDigitChars_digitChars,
    List.length_append, List.length_replicate, readExponent?, Option.map_some, hexp] at hread
  exact hread

/-- The positional form is read as a decimal of the same value: zeros that were written out stay
    in the digits. -/
theorem readDecimal?_positional (d : Decimal) :
    ∃ c, readDecimal? d.positional = some c ∧ c.value = d.value := by
  unfold positional
  dsimp only
  split
  · rename_i hexp
    exact readDecimal?_whole hexp
  · rename_i hexp
    split
    · rename_i hleading
      exact ⟨d, readDecimal?_among (by omega) hleading, rfl⟩
    · rename_i hleading
      exact ⟨d, readDecimal?_behind (by omega), rfl⟩

/-- The exponent of the scientific notation reads back. -/
theorem readExponent?_scientific (z : Int) :
    readExponent? ('e' :: (if z < 0 then '-' else '+') :: twoDigits z.natAbs) = some z := by
  have hsign : splitSign ((if z < 0 then '-' else '+') :: twoDigits z.natAbs) =
      (decide (z < 0), twoDigits z.natAbs) := by
    by_cases hz : z < 0 <;> simp [hz, splitSign]
  exact (readInt?_of_splitSign hsign (readNat?_twoDigits _)).trans (congrArg some (signed_natAbs z))

/-- The scientific notation begins with the first digit. -/
theorem exists_scientific (d : Decimal) : ∃ c ds, d.digitChars = c :: ds ∧
    d.scientific = [c] ++ (fraction ds ++
      'e' :: (if d.leading < 0 then '-' else '+') :: twoDigits d.leading.natAbs) := by
  rcases List.exists_cons_of_ne_nil d.digitChars_ne_nil with ⟨c, ds, hds⟩
  exact ⟨c, ds, hds, by simp [scientific, hds]⟩

/-- The scientific form is read as the very decimal it was written from. -/
theorem readDecimal?_scientific (d : Decimal) : readDecimal? d.scientific = some d := by
  rcases d.exists_scientific with ⟨c, ds, hds, hwritten⟩
  have hdigits : IsDigits (c :: ds) := hds ▸ d.isDigits_digitChars
  have hvalue : Nat.ofDigitChars 10 (c :: ds) 0 = d.digits := hds ▸ d.ofDigitChars_digitChars
  have hexponent := readExponent?_scientific d.leading
  have hlength : d.leading = d.exponent + (ds.length + 1 : Nat) - 1 := by
    rw [leading, hds, List.length_cons]
  rw [hwritten]
  -- With one digit there is no point, and the exponent follows at once.
  cases ds with
  | nil =>
      have hexp : d.leading = d.exponent := by simpa using hlength
      show readDecimal? ([c] ++ 'e' :: _) = some d
      rw [readDecimal?_exponent hdigits (List.cons_ne_nil _ _), hexponent, Option.map_some, hvalue,
        hexp]
  | cons c' ds =>
      have hexp : d.leading - (c' :: ds).length = d.exponent := by
        rw [hlength, List.length_cons]
        omega
      have hfirst : IsDigits [c] := hdigits.sublist (by simp)
      have hothers : IsDigits (c' :: ds) := hdigits.sublist (List.sublist_cons_self _ _)
      show readDecimal? ([c] ++ '.' :: (c' :: ds ++ 'e' :: _)) = some d
      rw [readDecimal?_point hfirst hothers (List.cons_ne_nil _ _) (by rintro _ ⟨⟩; rfl), hexponent,
        Option.map_some, List.singleton_append, hvalue, hexp]

/-- What is written for a decimal reads back as the same number. -/
theorem readDecimal?_written (d : Decimal) :
    ∃ c, readDecimal? d.written = some c ∧ c.value = d.value := by
  unfold written
  split
  · exact d.readDecimal?_positional
  · exact ⟨d, d.readDecimal?_scientific, rfl⟩

/-- What is written begins with a digit, and not all of it is digits: there is a point, or an
    exponent. -/
theorem exists_mark (d : Decimal) : ∃ c cs, d.written = c :: cs ∧ c.isDigit = true ∧
    ∃ mark ∈ cs, mark.isDigit = false := by
  -- The mark stands behind digits, and there is at least one of them.
  suffices hmark : ∃ whole mark rest, d.written = whole ++ mark :: rest ∧ IsDigits whole ∧
      whole ≠ [] ∧ mark.isDigit = false by
    rcases hmark with ⟨whole, mark, rest, hwritten, hwhole, hne, hmark⟩
    rcases List.exists_cons_of_ne_nil hne with ⟨c, others, rfl⟩
    exact ⟨c, others ++ mark :: rest, hwritten, hwhole c List.mem_cons_self, mark, by simp, hmark⟩
  have hdigits := d.isDigits_digitChars
  have hne := d.digitChars_ne_nil
  unfold written
  split
  · unfold positional
    dsimp only
    split
    · exact ⟨_, '.', ['0'], rfl, hdigits.append (isDigits_zeros _), by simp [hne], rfl⟩
    · split
      · exact ⟨_, '.', _, rfl, hdigits.sublist (List.take_sublist _ _), by simp [hne], rfl⟩
      · exact ⟨['0'], '.', _, rfl, isDigits_zeros 1, List.cons_ne_nil _ _, rfl⟩
  · rcases d.exists_scientific with ⟨c, ds, hds, hwritten⟩
    have hfirst : IsDigits [c] := (hds ▸ hdigits).sublist (by simp)
    rw [hwritten]
    cases ds with
    | nil => exact ⟨[c], 'e', _, rfl, hfirst, List.cons_ne_nil _ _, rfl⟩
    | cons c' ds => exact ⟨[c], '.', _, rfl, hfirst, List.cons_ne_nil _ _, rfl⟩

end Decimal

/-- The characters other than digits with which floats are written. -/
def numeralMarks : List Char := ['.', 'e', '+', '-', 'i', 'n', 'f', 'a']

/-- All characters are such with which floats are written. -/
def IsNumeral (cs : List Char) : Prop := ∀ c ∈ cs, c.isDigit = true ∨ c ∈ numeralMarks

theorem IsDigits.isNumeral (h : IsDigits cs) : IsNumeral cs := fun c hc => .inl (h c hc)

theorem IsNumeral.append (h : IsNumeral whole) (h' : IsNumeral behind) :
    IsNumeral (whole ++ behind) := fun c hc =>
  (List.mem_append.mp hc).elim (h c) (h' c)

theorem isNumeral_cons (hc : c ∈ numeralMarks) (h : IsNumeral cs) :
    IsNumeral (c :: cs) :=
  List.forall_mem_cons.mpr ⟨.inr hc, h⟩

theorem isNumeral_nil : IsNumeral [] := nofun

/-- None of them is a blank or a separator. -/
theorem IsNumeral.plain (h : IsNumeral cs) : ∀ c ∈ cs, Text.isBlank c = false ∧ c ≠ '_' := by
  have hmarks : numeralMarks.all (fun c => !Text.isBlank c && c != '_') = true := rfl
  intro c hc
  rcases h c hc with hdigit | hmark
  · refine ⟨isBlank_of_isDigit hdigit, ?_⟩
    rintro rfl
    cases hdigit
  · simpa using List.all_eq_true.mp hmarks c hmark

/-- Whatever form is chosen, only digits and numeral marks are written. -/
theorem isNumeral_written (d : Decimal) : IsNumeral d.written := by
  have hdigits := d.isDigits_digitChars
  unfold Decimal.written
  split
  · unfold Decimal.positional
    dsimp only
    split
    · exact (hdigits.append (isDigits_zeros _)).isNumeral.append
        (isNumeral_cons (by decide) (isDigits_zeros 1).isNumeral)
    · split
      · exact (hdigits.sublist (List.take_sublist _ _)).isNumeral.append
          (isNumeral_cons (by decide) (hdigits.sublist (List.drop_sublist _ _)).isNumeral)
      · exact ((isDigits_zeros 1).isNumeral.append (isNumeral_cons (by decide)
          (isDigits_zeros _).isNumeral)).append hdigits.isNumeral
  · -- In the scientific form, there is a fraction only if there are digits for it.
    rcases d.exists_scientific with ⟨c, ds, hds, hwritten⟩
    have hfirst : IsDigits [c] := (hds ▸ hdigits).sublist (by simp)
    have hothers : IsDigits ds := (hds ▸ hdigits).sublist (List.sublist_cons_self _ _)
    have hexponent := (isDigits_twoDigits d.leading.natAbs).isNumeral
    have hfraction : IsNumeral (Decimal.fraction ds) := by
      cases ds with
      | nil => exact isNumeral_nil
      | cons c' ds => exact isNumeral_cons (by decide) hothers.isNumeral
    rw [hwritten]
    refine hfirst.isNumeral.append (hfraction.append (isNumeral_cons (by decide) ?_))
    split
    · exact isNumeral_cons (by decide) hexponent
    · exact isNumeral_cons (by decide) hexponent

/-- What begins with a digit has no sign but the one that is put in front of it. -/
theorem splitSign_withSign (b : Bool) (hc : c.isDigit = true) (cs : List Char) :
    splitSign (withSign b (c :: cs)) = (b, c :: cs) := by
  have hne : c ≠ '-' ∧ c ≠ '+' := by
    constructor <;> rintro rfl <;> cases hc
  cases b with
  | true => rfl
  | false => simp [withSign, splitSign, hne]

theorem toLower_of_isDigit (hc : c.isDigit = true) : c.toLower = c := by
  have hrange := Char.isDigit_iff_toNat.mp hc
  unfold Char.toLower
  rw [dif_neg]
  rintro ⟨hle, -⟩
  exact absurd (hrange.2.trans_lt (by decide)) (not_lt.mpr (UInt32.le_iff_toNat_le.mp hle))

/-- A word that begins with a digit is no name. -/
theorem readName?_of_isDigit (hc : c.isDigit = true) (cs : List Char) :
    readName? (c :: cs) = none := by
  -- None of the names begins with a digit.
  have hname : ∀ name : String, name.toList.head?.any Char.isDigit = false →
      String.ofList ((c :: cs).map Char.toLower) ≠ name := by
    rintro _ hhead rfl
    simp [toLower_of_isDigit hc, hc] at hhead
  unfold readName?
  split
  · rename_i heq
    exact absurd heq (hname "inf" rfl)
  · rename_i heq
    exact absurd heq (hname "infinity" rfl)
  · rename_i heq
    exact absurd heq (hname "nan" rfl)
  · rfl

/-- What is written for a decimal reads back as the float nearest to it, with its sign. -/
theorem readFloat?_withSign (b : Bool) (d : Decimal) : readFloat? (withSign b d.written) =
    some (if b then -d.toFloat else d.toFloat) := by
  rcases d.readDecimal?_written with ⟨c, hread, hvalue⟩
  rcases d.exists_mark with ⟨first, others, hwritten, hfirst, -⟩
  have hmagnitude : readMagnitude? d.written = some d.toFloat := by
    rw [readMagnitude?, hread, hwritten, readName?_of_isDigit hfirst]
    exact congrArg some (Decimal.toFloat_eq_of_value hvalue)
  unfold readFloat?
  rw [hwritten, splitSign_withSign b hfirst, ← hwritten]
  simp only [hmagnitude, Option.map_some]

/-- The text of a float reads back as the float. -/
theorem readFloat?_floatChars (x : Float) : readFloat? (floatChars x) = some x := by
  -- Each of the three ways to write a float has its own way back.
  unfold floatChars
  split
  · rename_i hview
    rw [eq_undefinedFloat hview]
    decide +kernel
  · rename_i b hview
    rw [eq_infinite hview]
    cases b <;> decide +kernel
  · rename_i d hview
    rw [readFloat?_withSign, Dyadic.toFloat_shortest hview, ← eq_magnitude hview]

/-- The text of a float is no integer, since it is not made of digits only. -/
theorem readInt?_floatChars (x : Float) : readInt? (floatChars x) = none := by
  unfold floatChars
  split
  · rfl
  · rename_i b hview
    cases b <;> rfl
  · rename_i d hview
    -- A finite float is written with a point or an exponent, which no integer has.
    rcases d.shortest.exists_mark with ⟨first, others, hwritten, hfirst, hmark⟩
    have hnat : readNat? (first :: others) = none := by
      rw [readNat?, if_pos]
      simp [hfirst, hmark]
    unfold readInt?
    rw [hwritten, splitSign_withSign _ hfirst]
    simp only [hnat]
    rfl

/-- So is every float, since the letters of the infinities and NaN are among the marks. -/
theorem isNumeral_floatChars (x : Float) : IsNumeral (floatChars x) := by
  have hsign : ∀ b cs, IsNumeral cs → IsNumeral (withSign b cs) := by
    intro b cs h
    cases b with
    | false => exact h
    | true => exact isNumeral_cons (by decide) h
  have hname : ∀ a b c, a ∈ numeralMarks → b ∈ numeralMarks → c ∈ numeralMarks →
      IsNumeral [a, b, c] := fun a b c ha hb hc =>
    isNumeral_cons ha (isNumeral_cons hb (isNumeral_cons hc nofun))
  -- NaN, the infinities and the finite floats.
  unfold floatChars
  split
  · exact hname _ _ _ (by decide) (by decide) (by decide)
  · exact hsign _ _ (hname _ _ _ (by decide) (by decide) (by decide))
  · exact hsign _ _ (isNumeral_written _)

/-- The text of an integer reads back as the integer. -/
theorem readInt?_intChars (z : Int) : readInt? (Number.intChars z) = some z := by
  rcases List.exists_cons_of_ne_nil (Nat.toDigits_ne_nil (b := 10) (n := z.natAbs)) with
    ⟨c, cs, hdigits⟩
  have hfirst : c.isDigit = true := isDigits_toDigits z.natAbs c (by simp [hdigits])
  have hnat : readNat? (Nat.toDigits 10 z.natAbs) = some z.natAbs := by
    rw [readNat?_of_isDigits Nat.toDigits_ne_nil (isDigits_toDigits _),
      Nat.ofDigitChars_ten_toDigits]
  -- A digit is no sign, so what is split off is the minus or nothing.
  have hsign : splitSign (Number.intChars z) = (decide (z < 0), Nat.toDigits 10 z.natAbs) := by
    rw [Number.intChars, hdigits, splitSign_withSign _ hfirst]
  exact (readInt?_of_splitSign hsign hnat).trans (congrArg some (signed_natAbs z))

theorem readInt64?_intChars (k : Int64) : readInt64? (Number.intChars k.toInt) = some k := by
  rw [readInt64?, readInt?_intChars]
  exact int64?_eq_some_iff.mpr rfl

/-- The text of a float, as a line of input, is the float: there is nothing in it to take away. -/
theorem inputValue_floatText (x : Float) : inputValue (floatText x) = .float x := by
  have hplain : ∀ c ∈ floatChars x, Text.isBlank c = false ∧ c ≠ '_' := fun c hc =>
    (isNumeral_floatChars x).plain c hc
  have hlast : ∀ c ∈ (floatChars x).getLast?, Text.isBlank c = false := fun c hc =>
    (hplain c (List.mem_of_mem_getLast? hc)).1
  -- There are no blanks to be trimmed, no line ending and no separators.
  have hbody : IsBody (floatText x).toList (floatChars x) := by
    rw [floatText, String.toList_ofList]
    exact .unbroken fun hfeed => absurd (hlast '\n' hfeed) (by decide)
  have hword : IsWord (floatChars x) (floatChars x) :=
    ⟨[], [], by simp, nofun, nofun, fun c hc => (hplain c (List.mem_of_mem_head? hc)).1, hlast⟩
  have hseparated : SeparatesDigits (floatChars x) := by
    intro before after hsplit
    exact absurd rfl (hplain '_' (by simp [hsplit])).2
  have hfilter : (floatChars x).filter (· != '_') = floatChars x :=
    List.filter_eq_self.mpr fun c hc => bne_iff_ne.mpr (hplain c hc).2
  rw [inputValue_of_word hbody hword, readSeparated?, if_pos (wellSeparated_iff.mpr hseparated),
    hfilter, readFloat?_floatChars]

variable {n : Number}

theorem readNumber?_text (n : Number) : readNumber? n.text.toList = some n := by
  rw [Number.text, String.toList_ofList, readNumber?]
  cases n with
  | int k => simp [Number.chars, readInt64?_intChars]
  | float x => simp [Number.chars, readInt64?, readInt?_floatChars, readFloat?_floatChars]

theorem evalNumber_of_readNumber? {w : String} (h : readNumber? w.toList = some n) (tag : String)
    (m : Machine) : evalNumber ⟨tag, [.token w]⟩ m = .ok (.number n) m := by
  have harity : Tree.expectArity ⟨tag, [.token w]⟩ 1 = .ok () := rfl
  have hword : Tree.token ⟨tag, [.token w]⟩ 0 = .ok w := rfl
  simp only [evalNumber, harity, hword, bind, EStateM.bind, liftM, monadLift,
    MonadLift.monadLift, pure, EStateM.pure, h]

/-- What is printed for a number is evaluated to that number, of the same kind and with the same
    sign of zero, as the word of a number literal, and at any place in a program: nothing else
    changes. The text of an integer is that integer. The text of a float is no integer, and is
    that float, also if it is read from a line of input. -/
theorem numbers_read_back (n : Number) :
    (∀ tag m, evalNumber ⟨tag, [.token n.text]⟩ m = .ok (.number n) m) ∧
    (∀ limits m, m.depth < limits.depth →
      evaluate limits ⟨"number", [.token n.text]⟩ m = .ok (.number n) m) ∧
    (∀ k, n = .int k → readInt64? n.text.toList = some k) ∧
    ∀ x, n = .float x → readInt64? n.text.toList = none ∧ readFloat? n.text.toList = some x ∧
      inputValue n.text = .float x := by
  have heval := evalNumber_of_readNumber? (readNumber?_text n)
  refine ⟨heval, fun limits m hdepth => ?_, ?_, ?_⟩
  · apply guarded_of_ok
    rw [evalTree_of_lt hdepth]
    exact deeper_of_ok (heval "number" m.entered)
  · rintro k rfl
    rw [Number.text, String.toList_ofList]
    exact readInt64?_intChars k
  · -- What is written for a float does not read as an integer, so the reader goes on to floats.
    rintro x rfl
    rw [Number.text, String.toList_ofList]
    refine ⟨?_, readFloat?_floatChars x, inputValue_floatText x⟩
    rw [readInt64?, Number.chars, readInt?_floatChars]
    rfl

/-- The least integer, the zero with a sign, the least float above zero, a great float and the
    float that is no number. -/
theorem numbers_read_back_edges :
    readInt64? "-9223372036854775808".toList = some Int64.minValue ∧
    evaluate ⟨1, 0⟩ ⟨"number", [.token "-0.0"]⟩ (.start [] none) =
      .ok (.number (.float (-0.0))) (.start [] none) ∧
    readInt64? "5e-324".toList = none ∧ readFloat? "5e-324".toList = some (.ofBits 1) ∧
    inputValue "1e+16" = .float 1e16 ∧
    inputValue "nan" = .float undefinedFloat := by
  rcases numbers_read_back (.int Int64.minValue) with ⟨-, -, hint, -⟩
  rcases numbers_read_back (.float (-0.0)) with ⟨-, hzero, -, -⟩
  rcases numbers_read_back (.float (.ofBits 1)) with ⟨-, -, -, hleast⟩
  rcases numbers_read_back (.float 1e16) with ⟨-, -, -, hgreat⟩
  rcases numbers_read_back (.float undefinedFloat) with ⟨-, -, -, hundefined⟩
  -- The texts are computed, and the theorem reads them back.
  have hminText : Number.text (.int Int64.minValue) = "-9223372036854775808" := by decide +kernel
  have hzeroText : Number.text (.float (-0.0)) = "-0.0" := by decide +kernel
  have hleastText : Number.text (.float (.ofBits 1)) = "5e-324" := by decide +kernel
  have hgreatText : Number.text (.float 1e16) = "1e+16" := by decide +kernel
  have hundefinedText : Number.text (.float undefinedFloat) = "nan" := by decide +kernel
  rw [hminText] at hint
  rw [hzeroText] at hzero
  rw [hleastText] at hleast
  rw [hgreatText] at hgreat
  rw [hundefinedText] at hundefined
  exact ⟨hint _ rfl, hzero ⟨1, 0⟩ _ (by decide), (hleast _ rfl).1, (hleast _ rfl).2.1,
    (hgreat _ rfl).2.2, (hundefined _ rfl).2.2⟩

end TreeScript
