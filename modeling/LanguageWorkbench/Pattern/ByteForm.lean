import LanguageWorkbench.Text.CharSet

/-!
# Characters as bytes

In UTF-8 a character takes one to four bytes. The characters of a range take few
forms: sequences of byte ranges, such that all sequences of bytes in these ranges
are characters of the range.

* `CharSet.byteForms`: the forms of the characters of a set, in ascending order.
-/

namespace LanguageWorkbench

/-- The bytes from `low` to `high`, ends included. -/
structure ByteRange where
  low : Nat
  high : Nat
deriving DecidableEq, Repr

/-- A sequence of byte ranges. -/
abbrev ByteForm := List ByteRange

namespace ByteForm

/-- The bytes of a code point. -/
def encode (n : Nat) : List Nat :=
  let trailing (block : Nat) : Nat := 0x80 + n / block % 64
  if n < 0x80 then [n]
  else if n < 0x800 then [0xC0 + n / 64, trailing 1]
  else if n < 0x10000 then [0xE0 + n / 4096, trailing 64, trailing 1]
  else [0xF0 + n / 262144, trailing 4096, trailing 64, trailing 1]

/-- Where to cut a range that spans blocks and does not fill them: where its first
    block ends or its last block starts. -/
def cutAtBlock (low high block : Nat) : Option Nat :=
  if low / block = high / block then none
  else if low % block ≠ 0 then some ((low / block + 1) * block)
  else if high % block ≠ block - 1 then some (high / block * block)
  else none

/-- Where to cut a range into two, if it takes more than one form: where the number of
    bytes grows, and else where a block of code points that differ in their trailing
    bytes alone is filled in part. -/
def cut (low high : Nat) : Option Nat :=
  match [0x80, 0x800, 0x10000].find? fun bound => low < bound && bound ≤ high with
  | some bound => some bound
  | none => if high < 0x80 then none else [64, 4096, 262144].findSome? (cutAtBlock low high)

/-- The forms of the code points of a range. -/
def ofRange (low high : Nat) : List ByteForm :=
  match cut low high with
  | some middle =>
    if _h : low < middle ∧ middle ≤ high then ofRange low (middle - 1) ++ ofRange middle high
    else []
  | none => [List.zipWith ByteRange.mk (encode low) (encode high)]
termination_by high - low

end ByteForm

/-- The forms of the characters of a set, in ascending order. -/
def CharSet.byteForms (s : CharSet) : List ByteForm :=
  s.ranges.flatMap fun (low, high) => ByteForm.ofRange low high

end LanguageWorkbench
