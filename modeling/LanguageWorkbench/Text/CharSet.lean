/-!
# Sets of characters

A set of characters is a list of ranges of code points, in ascending order and
apart from each other. Surrogates are no characters, so no range needs them.

* `contains` looks a character up.
* `union`, `complement`, `intersection`, `difference`, `symmetricDifference` compute
  with sets.
-/

namespace LanguageWorkbench

/-- A set of characters: ranges of code points, ends included, in ascending order and
    apart. -/
structure CharSet where
  ranges : List (Nat × Nat)
deriving DecidableEq, Repr

namespace CharSet

/-- Whether `n` lies in one of the ranges, which ascend. -/
def inRanges (n : Nat) : List (Nat × Nat) → Bool
  | [] => false
  | (low, high) :: rest => low ≤ n && (n ≤ high || inRanges n rest)

/-- Whether a code point belongs to the set. -/
def hasCode (s : CharSet) (n : Nat) : Bool := inRanges n s.ranges

/-- Whether a character belongs to the set. -/
def contains (s : CharSet) (c : Char) : Bool := s.hasCode c.toNat

/-! ## Building sets -/

/-- Joins a range with those after it that overlap or touch it, where the ranges
    start in ascending order. -/
def join : Nat × Nat → List (Nat × Nat) → List (Nat × Nat)
  | range, [] => [range]
  | (low, high), (low', high') :: rest =>
    if low' ≤ high + 1 then join (low, max high high') rest
    else (low, high) :: join (low', high') rest

/-- The set of the code points in ranges that start in ascending order. -/
def ofAscending : List (Nat × Nat) → CharSet
  | [] => ⟨[]⟩
  | range :: rest => ⟨join range rest⟩

/-- The set of the code points in ranges, in any order. -/
def ofRanges (ranges : List (Nat × Nat)) : CharSet :=
  ofAscending (ranges.mergeSort fun r s => r.1 ≤ s.1)

/-- The set without characters. -/
def empty : CharSet := ⟨[]⟩

/-- The code points that are no characters. -/
def surrogates : CharSet := ⟨[(0xD800, 0xDFFF)]⟩

/-- The last code point. -/
def lastCode : Nat := 0x10FFFF

/-! ## Operations -/

/-- The characters of either set. -/
def union (s t : CharSet) : CharSet :=
  ofAscending (s.ranges.merge t.ranges fun r r' => r.1 ≤ r'.1)

/-- The gaps between ranges, from `start` to the last code point. -/
def gaps (start : Nat) : List (Nat × Nat) → List (Nat × Nat)
  | [] => if start ≤ lastCode then [(start, lastCode)] else []
  | (low, high) :: rest =>
    if start < low then (start, low - 1) :: gaps (high + 1) rest else gaps (high + 1) rest

/-- The characters that do not belong to the set. -/
def complement (s : CharSet) : CharSet := ⟨gaps 0 (s.union surrogates).ranges⟩

/-- The set itself or, if `negated`, its complement. -/
def negateIf (negated : Bool) (s : CharSet) : CharSet := if negated then s.complement else s

/-- The characters of both sets. -/
def intersection (s t : CharSet) : CharSet := (s.complement.union t.complement).complement

/-- The characters of the first set that are not in the second. -/
def difference (s t : CharSet) : CharSet := s.intersection t.complement

/-- The characters of exactly one of two sets. -/
def symmetricDifference (s t : CharSet) : CharSet := (s.difference t).union (t.difference s)

/-- The characters of a range, which may include surrogates in its middle. -/
def range (low high : Char) : CharSet :=
  (⟨[(low.toNat, high.toNat)]⟩ : CharSet).difference surrogates

/-- The set of one character. -/
def single (c : Char) : CharSet := ⟨[(c.toNat, c.toNat)]⟩

/-! ## Shape -/

/-- Whether all characters of the set are ASCII. -/
def isAscii (s : CharSet) : Bool := s.ranges.all fun r => r.2 < 0x80

/-- The only character of the set. -/
def single? (s : CharSet) : Option Char :=
  match s.ranges with
  | [(low, high)] => if low = high then some (Char.ofNat low) else none
  | _ => none

end CharSet

end LanguageWorkbench
