/-!
# Streams

The two ends of a program. Its input is a sequence of bytes that is taken line
by line; a line that is not the encoding of a text is taken all the same, but
fails. Its output collects bytes and may have a limit: what fits is kept, and a
write that does not fit whole fails.

Bytes and not characters are what a stream is made of. A line is taken by its last byte,
and only then is it decoded; and a limit can fall into the middle of a character. Writing
nothing never fails, also where there is no room.

## Main definitions

* `StreamError`: How a stream can fail.
* `takeLine`: The first line of the input.
* `Output`, `Output.write`: The bytes written, and writing a text.

## Theorems

* `takeLine_append`: Taking a line loses nothing and changes no order.
-/

namespace TreeScript

/-- How a stream can fail. -/
inductive StreamError where
  /-- A line of input is not the encoding of a text. -/
  | notText
  /-- The output takes no more bytes. -/
  | full
  deriving DecidableEq, Inhabited

/-- The wording of a failure. -/
def StreamError.message : StreamError → String
  | .notText => "stream did not contain valid UTF-8"
  | .full => "output limit reached"

/-- The byte that ends a line. -/
def lineFeed : UInt8 := 10

/-- The first line of some bytes, with the byte that ends it, and the bytes
    behind it. -/
def takeLine : List UInt8 → List UInt8 × List UInt8
  | [] => ([], [])
  | b :: bs =>
    if b = lineFeed then ([b], bs)
    else
      let (line, rest) := takeLine bs
      (b :: line, rest)

/-- Taking a line loses nothing and changes no order. -/
theorem takeLine_append (bytes : List UInt8) :
    (takeLine bytes).1 ++ (takeLine bytes).2 = bytes := by
  induction bytes with
  | nil => rfl
  | cons b bytes ih =>
    unfold takeLine
    split
    · rfl
    · simpa using ih

/-- The text that some bytes encode. -/
def decode? (bytes : List UInt8) : Option String :=
  String.fromUTF8? ⟨bytes.toArray⟩

/-- The bytes that a program has written, and how many it may write at most. -/
structure Output where
  written : ByteArray
  limit : Option Nat
  deriving Inhabited

/-- Two outputs are the same if the same bytes have been written to them, and
    they take the same number. -/
instance : DecidableEq Output := fun a b =>
  decidable_of_iff (a.written.data = b.written.data ∧ a.limit = b.limit) (by
    cases a
    cases b
    simp [ByteArray.ext_iff])

namespace Output

/-- An output to which nothing has been written. -/
def empty (limit : Option Nat) : Output := ⟨ByteArray.empty, limit⟩

/-- How many bytes of a text of the given length fit. -/
def room (o : Output) (length : Nat) : Nat :=
  match o.limit with
  | none => length
  | some limit => min length (limit - o.written.size)

/-- Writes as much of a text as fits, and says whether all of it did. -/
def write (o : Output) (s : String) : Output × Bool :=
  let bytes := s.toUTF8
  let n := o.room bytes.size
  (⟨o.written ++ bytes.extract 0 n, o.limit⟩, n == bytes.size)

end Output

end TreeScript
