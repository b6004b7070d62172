import Mathlib.Data.List.Basic
import Mathlib.Data.Nat.Digits.Defs
import TreeScript.Tree.Form

/-!
# Array Tags

A tag names an array form exactly if it is made of one of three stems, decimal digits and the
letter `d`, and the digits spell a rank that fits in a word and is not zero. Zeros in front of
a rank do no harm, so a rank has many tags, but a tag has only one rank.

The stems overlap: each of the longer ones begins with the shortest. They are told apart from
the end of the tag. In front of the last letter stand the digits, and no stem ends in a digit,
so all digits that stand there belong to the rank and what is in front of them is the stem.

What a tag names is looked up in a table of fixed tags first, and only then are the stems
tried in a row. The order does not matter, and that is what has to be shown: no fixed tag
begins like a stem, so at most one of the entries can answer. Both facts about the tables
are decided by evaluation, and a tag that is added to a table is covered if they still
hold.

## Main definitions

* `Spells`: Decimal digits and the number that they spell.
* `IsArrayTag`: A tag that is made of a stem and a rank.
* `fixedForms`: The tags that name one form each.

## Theorems

* `rank?_eq_some_iff`: The end of an array tag spells a rank.
* `spells_toDigits`: A number has digits that spell it.
* `isArrayTag_unique`: A tag is made of one stem and one rank.
* `ofStem?_eq_some_iff`: A stem is recognised.
* `array_tags_are_recognised_exactly`: The forms that tags name.
* `eq_takeWhile_of_stem`: The digits of a tag are found from its end.
* `not_mem_fixedForms_of_isArrayTag`: No fixed tag is an array tag.
* `ofTag?_eq_some_iff`, `ofTag?_eq_array_iff`: What the tags of a form are.
-/

namespace TreeScript

/-- The number is the one that the digits spell in decimal, the first digit being the one with
    the greatest weight. There is at least one digit. -/
def Spells (digits : List Char) (n : Nat) : Prop :=
  digits ≠ [] ∧ (∀ c ∈ digits, c.isDigit = true) ∧
    Nat.ofDigits 10 (digits.reverse.map fun c => c.toNat - '0'.toNat) = n

variable {digits digits' : List Char} {n k k' : Nat} {tag : String}
  {stem stem' : String × (Nat → Form)} {form : Form}

/-- Reading digits from the left adds up their weights. -/
theorem ofDigitChars_eq_ofDigits (digits : List Char) : Nat.ofDigitChars 10 digits 0 =
    Nat.ofDigits 10 (digits.reverse.map fun c => c.toNat - '0'.toNat) := by
  induction digits with
  | nil => rfl
  | cons c digits ih =>
      rw [Nat.ofDigitChars_cons, Nat.ofDigitChars_eq_ofDigitChars_zero, ih, List.reverse_cons,
        List.map_append, Nat.ofDigits_append, List.map_singleton, Nat.ofDigits_singleton,
        List.length_map, List.length_reverse, Nat.mul_zero, Nat.zero_add, Nat.add_comm]

/-- A number has digits that spell it. -/
theorem spells_toDigits (n : Nat) : Spells (Nat.toDigits 10 n) n := by
  refine ⟨Nat.toDigits_ne_nil, fun c hc => ?_, ?_⟩
  · exact Nat.isDigit_of_mem_toDigits (by decide) (by decide) hc
  · rw [← ofDigitChars_eq_ofDigits, Nat.ofDigitChars_ten_toDigits]

/-- The end of an array tag spells a rank. -/
theorem rank?_eq_some_iff {suffix : List Char} : rank? suffix = some k ↔
    ∃ digits, suffix = digits ++ ['d'] ∧ Spells digits k ∧ 1 ≤ k ∧ k < 2 ^ 64 := by
  have hmax : maxRank = 2 ^ 64 - 1 := rfl
  constructor
  · intro h
    unfold rank? at h
    split at h
    · rename_i reversed hsuffix
      -- There must be digits, and nothing but digits.
      split_ifs at h with hempty hdigits
      simp only [Bool.and_eq_true, decide_eq_true_eq, Option.ite_none_right_eq_some,
        Option.some.injEq] at h
      rcases h with ⟨⟨hpos, hle⟩, hvalue⟩
      refine ⟨reversed.reverse, ?_, ⟨?_, ?_, ?_⟩, by omega, by omega⟩
      · rw [← List.reverse_reverse suffix, hsuffix, List.reverse_cons]
      · simpa using hempty
      · simpa using hdigits
      · rw [← ofDigitChars_eq_ofDigits, hvalue]
    · cases h
  · rintro ⟨digits, rfl, ⟨hne, hdigits, hvalue⟩, hpos, hlt⟩
    -- The digits of such a number pass all checks.
    have hbounds : (0 < k && k ≤ maxRank) = true := by
      simp only [Bool.and_eq_true, decide_eq_true_eq]
      omega
    have hrank : Nat.ofDigitChars 10 digits 0 = k := (ofDigitChars_eq_ofDigits digits).trans hvalue
    simp [rank?, hne, List.all_eq_true.mpr hdigits, hrank, hbounds]

/-- The tag is made of the stem, digits that spell the rank, and a final letter. The rank fits
    in a word and is not zero. -/
def IsArrayTag (stem : String) (k : Nat) (tag : String) : Prop :=
  ∃ digits, tag.toList = stem.toList ++ digits ++ ['d'] ∧ Spells digits k ∧ 1 ≤ k ∧ k < 2 ^ 64

/-- A stem is recognised where the tag is made of it and a rank. -/
theorem ofStem?_eq_some_iff : Form.ofStem? tag stem = some form ↔
    ∃ k, IsArrayTag stem.1 k tag ∧ form = stem.2 k := by
  unfold Form.ofStem? IsArrayTag
  simp only [Option.bind_eq_bind, Option.bind_eq_some_iff, Option.pure_def, Option.some.injEq,
    List.isPrefixOf?_eq_some_iff_append_eq, rank?_eq_some_iff]
  -- The tag is the stem and what is left is digits and a letter, grouped in two ways.
  constructor
  · rintro ⟨_, htag, k, ⟨digits, rfl, hrank⟩, rfl⟩
    exact ⟨k, ⟨digits, by rw [← htag, List.append_assoc], hrank⟩, rfl⟩
  · rintro ⟨k, ⟨digits, htag, hrank⟩, rfl⟩
    exact ⟨digits ++ ['d'], by rw [htag, List.append_assoc], k, ⟨digits, rfl, hrank⟩, rfl⟩

/-- No stem ends in a digit, so the digits in front of the last letter are those of the rank. -/
theorem eq_takeWhile_of_stem (hs : stem ∈ Form.stems) (hdigits : ∀ c ∈ digits, c.isDigit = true)
    (htag : tag.toList = stem.1.toList ++ digits ++ ['d']) :
    digits = (tag.toList.reverse.tail.takeWhile Char.isDigit).reverse := by
  have hends : ∀ stem ∈ Form.stems, stem.1.toList.reverse.takeWhile Char.isDigit = [] := by
    decide
  have hreversed : ∀ c ∈ digits.reverse, c.isDigit = true := fun c hc =>
    hdigits c (List.mem_reverse.mp hc)
  rw [htag, List.reverse_concat, List.tail_cons, List.reverse_append,
    List.takeWhile_append_of_pos hreversed, hends stem hs, List.append_nil, List.reverse_reverse]

/-- A tag is made of one stem and one rank. -/
theorem isArrayTag_unique (hs : stem ∈ Form.stems) (hs' : stem' ∈ Form.stems)
    (h : IsArrayTag stem.1 k tag) (h' : IsArrayTag stem'.1 k' tag) : stem.1 = stem'.1 ∧ k = k' := by
  rcases h with ⟨digits, htag, ⟨_, hdigits, hvalue⟩, _⟩
  rcases h' with ⟨digits', htag', ⟨_, hdigits', hvalue'⟩, _⟩
  -- Stems contain no digits, so the digits of the tag are found without knowing the stem.
  have heq : digits = digits' :=
    (eq_takeWhile_of_stem hs hdigits htag).trans (eq_takeWhile_of_stem hs' hdigits' htag').symm
  subst heq
  have hstem := htag.symm.trans htag'
  rw [List.append_assoc, List.append_assoc] at hstem
  exact ⟨String.toList_inj.mp (List.append_cancel_right hstem), hvalue.symm.trans hvalue'⟩

/-- The tags that name one form each. -/
def fixedForms : List (String × Form) :=
  BinaryOp.tags.map (fun p => (p.1, .binary p.2)) ++
    UnaryOp.tags.map (fun p => (p.1, .unary p.2)) ++ Form.tags

/-- Looking up in a mapped table is looking up and mapping. -/
theorem lookup_map {α β : Type} (f : α → β) (entries : List (String × α)) :
    (entries.map fun p => (p.1, f p.2)).lookup tag = (entries.lookup tag).map f := by
  induction entries with
  | nil => rfl
  | cons p entries ih =>
      rw [List.map_cons, List.lookup_cons, List.lookup_cons, ih]
      cases tag == p.1 <;> rfl

/-- The fixed tags come first, and then the stems. -/
theorem ofTag?_eq : Form.ofTag? tag =
    (fixedForms.lookup tag <|> Form.stems.findSome? (Form.ofStem? tag)) := by
  unfold Form.ofTag? fixedForms BinaryOp.ofTag? UnaryOp.ofTag?
  rw [List.lookup_append, List.lookup_append, lookup_map, lookup_map]
  simp only [Option.orElse_eq_orElse, Option.orElse_eq_or, Option.or_assoc]

/-- No fixed tag begins like the array tags. -/
theorem not_mem_fixedForms_of_isArrayTag (hs : stem ∈ Form.stems) (h : IsArrayTag stem.1 k tag)
    (form : Form) : (tag, form) ∉ fixedForms := by
  have hfixed : ∀ p ∈ fixedForms, ¬ "array".toList <+: p.1.toList := by decide
  have hstems : ∀ stem ∈ Form.stems, "array".toList <+: stem.1.toList := by decide
  rcases h with ⟨digits, htag, _⟩
  rw [List.append_assoc] at htag
  exact fun hmem => hfixed _ hmem ((hstems stem hs).trans (htag ▸ List.prefix_append _ _))

/-- Stems of one name make the same forms. -/
theorem stem_eq (hs : stem ∈ Form.stems) (hs' : stem' ∈ Form.stems) (h : stem.1 = stem'.1) :
    stem = stem' := by
  have hstems : ∀ s ∈ Form.stems, ∀ s' ∈ Form.stems, s.1 = s'.1 → s = s' := by simp [Form.stems]
  exact hstems stem hs stem' hs' h

/-- A tag names a form if it is a fixed one of that form, or an array tag of it. -/
theorem ofTag?_eq_some_iff : Form.ofTag? tag = some form ↔ (tag, form) ∈ fixedForms ∨
    ∃ stem ∈ Form.stems, ∃ k, IsArrayTag stem.1 k tag ∧ form = stem.2 k := by
  have hfixed : ∀ p ∈ fixedForms, Form.ofTag? p.1 = some p.2 := by decide
  constructor
  · intro h
    rw [ofTag?_eq, Option.orElse_eq_orElse, Option.orElse_eq_or, Option.or_eq_some_iff] at h
    rcases h with hlookup | ⟨_, hstem⟩
    · rcases List.lookup_eq_some_iff.mp hlookup with ⟨before, after, hforms, _⟩
      exact .inl (hforms ▸ by simp)
    · rcases List.exists_of_findSome?_eq_some hstem with ⟨stem, hs, hof⟩
      exact .inr ⟨stem, hs, ofStem?_eq_some_iff.mp hof⟩
  · rintro (hmem | ⟨stem, hs, k, htag, rfl⟩)
    · exact hfixed _ hmem
    · have hlookup : fixedForms.lookup tag = none := by
        refine List.lookup_eq_none_iff.mpr fun p hp => bne_iff_ne.mpr ?_
        rintro rfl
        exact not_mem_fixedForms_of_isArrayTag hs htag p.2 hp
      rw [ofTag?_eq, hlookup, Option.orElse_eq_orElse, Option.orElse_eq_or, Option.none_or]
      -- Some stem is recognised, and it is no other.
      have hsome : (Form.stems.findSome? (Form.ofStem? tag)).isSome := by
        rw [List.findSome?_isSome_iff]
        exact ⟨stem, hs, Option.isSome_of_eq_some (ofStem?_eq_some_iff.mpr ⟨k, htag, rfl⟩)⟩
      rcases Option.isSome_iff_exists.mp hsome with ⟨form', hform'⟩
      rcases List.exists_of_findSome?_eq_some hform' with ⟨stem', hs', hof⟩
      rcases ofStem?_eq_some_iff.mp hof with ⟨k', htag', rfl⟩
      rcases isArrayTag_unique hs' hs htag' htag with ⟨hstem, rfl⟩
      rw [hform', stem_eq hs' hs hstem]

/-- An array form is named by the tags of its stem and its rank only. -/
theorem ofTag?_eq_array_iff (hs : stem ∈ Form.stems) :
    Form.ofTag? tag = some (stem.2 k) ↔ IsArrayTag stem.1 k tag := by
  -- No fixed form is an array form, and the form tells the stem and the rank.
  have hfixed : ∀ p ∈ fixedForms, ∀ stem ∈ Form.stems, ∀ k, p.2 ≠ stem.2 k := by
    simp [fixedForms, BinaryOp.tags, UnaryOp.tags, Form.tags, Form.stems]
  have hforms : ∀ stem ∈ Form.stems, ∀ stem' ∈ Form.stems, ∀ k k', stem.2 k = stem'.2 k' →
      stem = stem' ∧ k = k' := by
    simp [Form.stems]
  constructor
  · intro h
    rcases ofTag?_eq_some_iff.mp h with hmem | ⟨stem', hs', k', htag, hform⟩
    · exact absurd rfl (hfixed _ hmem stem hs k)
    · rcases hforms stem hs stem' hs' k k' hform with ⟨rfl, rfl⟩
      exact htag
  · exact fun htag => ofTag?_eq_some_iff.mpr (.inr ⟨stem, hs, k, htag, rfl⟩)

/-- The tag with the shortest spelling of a rank. -/
theorem isArrayTag_canonical (stem : String) (hpos : 1 ≤ k) (hlt : k < 2 ^ 64) :
    IsArrayTag stem k (stem ++ toString k ++ "d") := by
  refine ⟨Nat.toDigits 10 k, ?_, spells_toDigits k, hpos, hlt⟩
  rw [String.toList_append, String.toList_append, Nat.toString_eq_repr, Nat.toList_repr]
  rfl

/-- The stems of the array tags. -/
def stemNames : List String := ["array", "array_access", "array_assign"]

/-- The array forms are named by a stem, decimal digits that spell a rank between one and the
    greatest number of a word, and a `d`, and by nothing else. Of no tag there are two readings
    as an array tag, and no fixed tag is one. Each rank has a tag in each family. All other
    tags name nothing. -/
theorem array_tags_are_recognised_exactly (tag : String) :
    (∀ k, (Form.ofTag? tag = some (.arrayNew k) ↔ IsArrayTag "array" k tag) ∧
      (Form.ofTag? tag = some (.arrayAccess k) ↔ IsArrayTag "array_access" k tag) ∧
      (Form.ofTag? tag = some (.arrayAssign k) ↔ IsArrayTag "array_assign" k tag)) ∧
    (∀ stem ∈ stemNames, ∀ stem' ∈ stemNames, ∀ k k',
      IsArrayTag stem k tag → IsArrayTag stem' k' tag → stem = stem' ∧ k = k') ∧
    (∀ form, (tag, form) ∈ fixedForms → Form.ofTag? tag = some form ∧
      ∀ stem ∈ stemNames, ∀ k, ¬ IsArrayTag stem k tag) ∧
    (∀ k, 1 ≤ k → k < 2 ^ 64 → Form.ofTag? s!"array{k}d" = some (.arrayNew k) ∧
      Form.ofTag? s!"array_access{k}d" = some (.arrayAccess k) ∧
      Form.ofTag? s!"array_assign{k}d" = some (.arrayAssign k)) ∧
    (Form.ofTag? tag = none ↔ (∀ form, (tag, form) ∉ fixedForms) ∧
      ∀ stem ∈ stemNames, ∀ k, ¬ IsArrayTag stem k tag) := by
  have hnew : ("array", Form.arrayNew) ∈ Form.stems := by simp [Form.stems]
  have haccess : ("array_access", Form.arrayAccess) ∈ Form.stems := by simp [Form.stems]
  have hassign : ("array_assign", Form.arrayAssign) ∈ Form.stems := by simp [Form.stems]
  -- The stems with a form and the names of stems are the same three.
  have hnames : ∀ name ∈ stemNames, ∃ stem ∈ Form.stems, stem.1 = name := by
    simp [stemNames, Form.stems]
  have hstems : ∀ stem ∈ Form.stems, stem.1 ∈ stemNames := by decide
  refine ⟨fun k => ?_, ?_, ?_, ?_, ?_⟩
  · exact ⟨ofTag?_eq_array_iff hnew, ofTag?_eq_array_iff haccess, ofTag?_eq_array_iff hassign⟩
  · intro stem hstem stem' hstem' k k' htag htag'
    rcases hnames stem hstem with ⟨s, hs, rfl⟩
    rcases hnames stem' hstem' with ⟨s', hs', rfl⟩
    exact isArrayTag_unique hs hs' htag htag'
  · intro form hmem
    refine ⟨ofTag?_eq_some_iff.mpr (.inl hmem), fun stem hstem k htag => ?_⟩
    rcases hnames stem hstem with ⟨s, hs, rfl⟩
    exact not_mem_fixedForms_of_isArrayTag hs htag form hmem
  · intro k hpos hlt
    exact ⟨(ofTag?_eq_array_iff hnew).mpr (isArrayTag_canonical "array" hpos hlt),
      (ofTag?_eq_array_iff haccess).mpr (isArrayTag_canonical "array_access" hpos hlt),
      (ofTag?_eq_array_iff hassign).mpr (isArrayTag_canonical "array_assign" hpos hlt)⟩
  · constructor
    · intro h
      refine ⟨fun form hmem => ?_, fun stem hstem k htag => ?_⟩
      · exact absurd (h.symm.trans (ofTag?_eq_some_iff.mpr (.inl hmem))) nofun
      · rcases hnames stem hstem with ⟨s, hs, rfl⟩
        exact absurd (h.symm.trans ((ofTag?_eq_array_iff hs).mpr htag)) nofun
    · rintro ⟨hfixed, harray⟩
      refine Option.eq_none_iff_forall_ne_some.mpr fun form h => ?_
      rcases ofTag?_eq_some_iff.mp h with hmem | ⟨stem, hs, k, htag, _⟩
      · exact hfixed form hmem
      · exact harray stem.1 (hstems stem hs) k htag

/-- Zeros in front of a rank do no harm, and the greatest rank is `2 ^ 64 - 1`. A sign is not
    part of a rank. -/
theorem array_tags_are_recognised_exactly_zeros :
    Form.ofTag? "array_access007d" = some (.arrayAccess 7) ∧
    Form.ofTag? "array_assign18446744073709551615d" = some (.arrayAssign (2 ^ 64 - 1)) ∧
    Form.ofTag? "array18446744073709551616d" = none ∧ Form.ofTag? "array+2d" = none ∧
    Form.ofTag? "array2d" = some (.arrayNew 2) ∧ Form.ofTag? "while" = some .loop ∧
    ∀ k, ¬ IsArrayTag "array" k "while" := by
  rcases array_tags_are_recognised_exactly "array_access007d" with ⟨hfamilies, -⟩
  rcases array_tags_are_recognised_exactly "while" with ⟨-, -, hfixed, hcanonical, -⟩
  rcases hfixed .loop (by decide) with ⟨hloop, hnone⟩
  have hseven : IsArrayTag "array_access" 7 "array_access007d" :=
    ⟨['0', '0', '7'], rfl, ⟨by decide, List.all_eq_true.mp rfl, by decide⟩, by decide, by decide⟩
  exact ⟨(hfamilies 7).2.1.mpr hseven, by decide +kernel, by decide +kernel, by decide +kernel,
    (hcanonical 2 (by decide) (by decide)).1, hloop, hnone "array" (by decide)⟩

end TreeScript
