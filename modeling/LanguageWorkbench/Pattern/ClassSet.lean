import LanguageWorkbench.Text.Blank
import LanguageWorkbench.Text.LetterCase
import LanguageWorkbench.Text.WordCharacter

/-!
# Character classes of patterns

What stands between brackets in a pattern: characters, ranges, named classes,
nested brackets and the operations on sets. `ClassSet.chars` is the set of
characters that a class stands for.

Where case does not matter, named classes, brackets and operands hold all variants
of what they hold, and a negated one of them holds what is left. The classes of
escapes are as they are.

Where characters beyond ASCII do not count as such, a class may hold ASCII alone, so
it may not be negated.
-/

namespace LanguageWorkbench

/-- A class with a name between brackets and colons. -/
inductive AsciiClass where
  | alnum
  | alpha
  | ascii
  | blank
  | cntrl
  | digit
  | graph
  | lower
  | print
  | punct
  | space
  | upper
  | word
  | xdigit
deriving DecidableEq, Repr

namespace AsciiClass

/-- The class with a name. -/
def ofName? : String → Option AsciiClass
  | "alnum" => some alnum
  | "alpha" => some alpha
  | "ascii" => some ascii
  | "blank" => some blank
  | "cntrl" => some cntrl
  | "digit" => some digit
  | "graph" => some graph
  | "lower" => some lower
  | "print" => some print
  | "punct" => some punct
  | "space" => some space
  | "upper" => some upper
  | "word" => some word
  | "xdigit" => some xdigit
  | _ => none

/-- The characters of the class. -/
def chars : AsciiClass → CharSet
  | alnum => ⟨[(0x30, 0x39), (0x41, 0x5A), (0x61, 0x7A)]⟩
  | alpha => ⟨[(0x41, 0x5A), (0x61, 0x7A)]⟩
  | ascii => ⟨[(0x0, 0x7F)]⟩
  | blank => ⟨[(0x9, 0x9), (0x20, 0x20)]⟩
  | cntrl => ⟨[(0x0, 0x1F), (0x7F, 0x7F)]⟩
  | digit => ⟨[(0x30, 0x39)]⟩
  | graph => ⟨[(0x21, 0x7E)]⟩
  | lower => ⟨[(0x61, 0x7A)]⟩
  | print => ⟨[(0x20, 0x7E)]⟩
  | punct => ⟨[(0x21, 0x2F), (0x3A, 0x40), (0x5B, 0x60), (0x7B, 0x7E)]⟩
  | space => ⟨[(0x9, 0xD), (0x20, 0x20)]⟩
  | upper => ⟨[(0x41, 0x5A)]⟩
  | word => ⟨[(0x30, 0x39), (0x41, 0x5A), (0x5F, 0x5F), (0x61, 0x7A)]⟩
  | xdigit => ⟨[(0x30, 0x39), (0x41, 0x46), (0x61, 0x66)]⟩

end AsciiClass

/-- A class that an escape stands for. -/
inductive EscapeClass where
  | digit
  | space
  | word
deriving DecidableEq, Repr

/-- The characters of the class of an escape: all of them or, without `unicode`, those
    of ASCII. -/
def EscapeClass.chars (unicode : Bool) : EscapeClass → CharSet
  | digit => if unicode then Text.decimalDigits else AsciiClass.digit.chars
  | space => if unicode then Text.blanks else AsciiClass.space.chars
  | word => if unicode then Text.wordCharacters else AsciiClass.word.chars

/-- An operation on two sets of characters. -/
inductive SetOperation where
  | intersection
  | difference
  | symmetricDifference
deriving DecidableEq, Repr

/-- What the operation computes. -/
def SetOperation.apply : SetOperation → CharSet → CharSet → CharSet
  | intersection => CharSet.intersection
  | difference => CharSet.difference
  | symmetricDifference => CharSet.symmetricDifference

/-- A set of characters as a pattern writes it. -/
inductive ClassSet where
  | empty
  | char (c : Char)
  | range (low high : Char)
  | named (name : AsciiClass) (negated : Bool)
  | escape (name : EscapeClass) (negated : Bool)
  | bracketed (set : ClassSet) (negated : Bool)
  | anyOf (sets : List ClassSet)
  | combined (op : SetOperation) (left right : ClassSet)
deriving Repr

/-- How characters are read at a place of a pattern. -/
structure CharReading where
  /-- Case does not matter. -/
  fold : Bool
  /-- Characters beyond ASCII count as such. -/
  unicode : Bool
deriving DecidableEq, Repr

namespace CharReading

/-- A set with the variants of its characters, if case does not matter. -/
def folded (r : CharReading) (s : CharSet) : CharSet :=
  if r.unicode then s.foldIf r.fold
  else
    let ascii := AsciiClass.ascii.chars
    s.union (((s.intersection ascii).foldIf r.fold).intersection ascii)

/-- A set or its complement. -/
def negated (r : CharReading) (negate : Bool) (s : CharSet) : Option CharSet :=
  if negate && !r.unicode then none else some (s.negateIf negate)

end CharReading

namespace ClassSet

/-- The set that holds what the sets of a list hold. -/
def ofItems : List ClassSet → ClassSet
  | [] => empty
  | [item] => item
  | items => anyOf items

mutual

/-- The characters of a class. -/
def chars (r : CharReading) : ClassSet → Option CharSet
  | empty => some .empty
  | char c => if r.unicode || c.toNat < 0x80 then some (.single c) else none
  | range low high =>
    if r.unicode || high.toNat < 0x80 then some (.range low high) else none
  | named name negated => r.negated negated (r.folded name.chars)
  | escape name negated => r.negated negated (name.chars r.unicode)
  | bracketed set negated => do r.negated negated (r.folded (← chars r set))
  | anyOf sets => charsOfAny r sets
  | combined op left right => do
    return op.apply (r.folded (← chars r left)) (r.folded (← chars r right))

/-- The characters of the classes of a list. -/
def charsOfAny (r : CharReading) : List ClassSet → Option CharSet
  | [] => some .empty
  | set :: rest => do return (← chars r set).union (← charsOfAny r rest)

end

mutual

/-- How deeply sets nest: brackets, unions and operations count. -/
def depth : ClassSet → Nat
  | empty | char _ | range .. | named .. | escape .. => 0
  | bracketed set _ => 1 + depth set
  | anyOf sets => 1 + maxDepth sets
  | combined _ left right => 1 + max (depth left) (depth right)

/-- The depth of the deepest set of a list. -/
def maxDepth : List ClassSet → Nat
  | [] => 0
  | set :: rest => max (depth set) (maxDepth rest)

end

end ClassSet

end LanguageWorkbench
