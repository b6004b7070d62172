import TreeScript.Number.Basic
import TreeScript.Text.Blank

/-!
# Reading Numbers

The numbers that words spell. An integer is decimal digits with or without a
sign, and has to fit into 64 bits. A float is a sign, digits with or without a
point among them or at one of their ends, and an exponent; or one of the names
of the floats that digits cannot spell. Any integer word is also a float word,
so a literal is read as an integer first.

A line of input is read more liberally: blanks around the number do not count,
and an underscore may separate two digits.

A word is read from the left in parts: the sign, the digits of the whole part, a point
with those behind it, and the exponent. Each part gives back what is left of the word, and
the last one has to leave nothing.

## Main definitions

* `readInt?`: The integer that a word spells.
* `readFloat?`: The float that a word spells.
* `readNumber?`: The number that a literal spells.
* `readSeparated?`: The float of a word with digit separators.
-/

namespace TreeScript

/-- The sign in front of a word, and the rest. -/
def splitSign : List Char → Bool × List Char
  | '-' :: cs => (true, cs)
  | '+' :: cs => (false, cs)
  | cs => (false, cs)

/-- The number that decimal digits spell; at least one is needed. -/
def readNat? (cs : List Char) : Option Nat :=
  if cs.isEmpty || !cs.all Char.isDigit then none else some (Nat.ofDigitChars 10 cs 0)

/-- The integer that digits with or without a sign spell. -/
def readInt? (cs : List Char) : Option Int :=
  let (negative, rest) := splitSign cs
  (readNat? rest).map fun n => if negative then -(n : Int) else n

/-- The power of ten that the end of a float word spells, zero if it has no
    exponent. -/
def readExponent? : List Char → Option Int
  | [] => some 0
  | 'e' :: cs => readInt? cs
  | 'E' :: cs => readInt? cs
  | _ => none

/-- The digits behind a point, and what stands behind them. -/
def splitFraction : List Char → List Char × List Char
  | '.' :: cs => (cs.takeWhile Char.isDigit, cs.dropWhile Char.isDigit)
  | cs => ([], cs)

/-- The decimal that a float word without its sign spells. There has to be a
    digit before or behind the point. -/
def readDecimal? (cs : List Char) : Option Decimal :=
  let whole := cs.takeWhile Char.isDigit
  let (fraction, rest) := splitFraction (cs.dropWhile Char.isDigit)
  -- A point alone is no number, but digits on one side of it are enough.
  if whole.isEmpty && fraction.isEmpty then none
  else (readExponent? rest).map fun e =>
    ⟨Nat.ofDigitChars 10 (whole ++ fraction) 0, e - fraction.length⟩

/-- The names of the floats that digits cannot spell, without regard to
    case. -/
def readName? (cs : List Char) : Option Float :=
  match String.ofList (cs.map Char.toLower) with
  | "inf" => some (1.0 / 0.0)
  | "infinity" => some (1.0 / 0.0)
  | "nan" => some undefinedFloat
  | _ => none

/-- The float that a word without its sign spells. -/
def readMagnitude? (cs : List Char) : Option Float :=
  readName? cs <|> (readDecimal? cs).map Decimal.toFloat

/-- The float that a word spells. -/
def readFloat? (cs : List Char) : Option Float :=
  let (negative, rest) := splitSign cs
  (readMagnitude? rest).map fun x => if negative then -x else x

/-- The integer of 64 bits that a word spells. -/
def readInt64? (cs : List Char) : Option Int64 :=
  (readInt? cs).bind int64?

/-- The number that a literal spells: an integer if it can be one, else a
    float. -/
def readNumber? (cs : List Char) : Option Number :=
  -- An integer that does not fit is read as a float, and loses digits by that.
  ((readInt64? cs).map .int) <|> ((readFloat? cs).map .float)

/-- Whether the last character seen and the next one allow a separator between
    them. -/
def separates (before : Option Char) (after : List Char) : Bool :=
  before.any Char.isDigit && after.head?.any Char.isDigit

/-- Whether each underscore stands between two digits, given the character in
    front of the word. -/
def wellSeparated (before : Option Char) : List Char → Bool
  | [] => true
  | '_' :: cs => separates before cs && wellSeparated (some '_') cs
  | c :: cs => wellSeparated (some c) cs

/-- The float that a word spells in which underscores separate digits. -/
def readSeparated? (cs : List Char) : Option Float :=
  if wellSeparated none cs then readFloat? (cs.filter (· != '_')) else none

end TreeScript
