import LanguageWorkbench.Pattern.Basic

/-!
# Matchers

A matcher is a pattern without flags, in a normal form: every part says for itself
what it stands for, and parts that say the same together are one. Which of several
matches counts is said by its program.

* `Matcher.ofSet`, `Matcher.ofParts`, `Matcher.ofBranches`, `Matcher.repeated` build
  matchers in normal form. Neighbouring texts are joined, branches of one character
  become a set, and branches that are sequences share their common start.
-/

namespace LanguageWorkbench

/-- A place in a text: how many characters precede it, the last of these, and what
    is left. -/
structure Cursor where
  offset : Nat
  before : Option Char
  rest : List Char
deriving DecidableEq, Repr

namespace Cursor

/-- The start of a text. -/
def start (text : List Char) : Cursor := ⟨0, none, text⟩

/-- The places of a text from `c` on, in order. -/
def onward (offset : Nat) (before : Option Char) : List Char → List Cursor
  | [] => [⟨offset, before, []⟩]
  | c :: rest => ⟨offset, before, c :: rest⟩ :: onward (offset + 1) (some c) rest

end Cursor

/-! ## Places -/

/-- A condition on a place, with what the flags say about it. -/
inductive Place where
  | textStart
  | textEnd
  | lineStart (carriageReturns : Bool)
  | lineEnd (carriageReturns : Bool)
  | word (e : WordEdge) (unicode : Bool)
deriving DecidableEq, Repr

namespace Place

/-- Whether a line starts at a place. -/
def atLineStart (carriageReturns : Bool) (c : Cursor) : Bool :=
  match c.before with
  | none => true
  | some d =>
    d = '\n' || (carriageReturns && d = '\r' && c.rest.head? ≠ some '\n')

/-- Whether a line ends at a place. -/
def atLineEnd (carriageReturns : Bool) (c : Cursor) : Bool :=
  match c.rest with
  | [] => true
  | d :: _ =>
    (d = '\n' && !(carriageReturns && c.before = some '\r')) || (carriageReturns && d = '\r')

/-- Whether word characters before and after a place make an edge of the given kind. -/
def isEdge (before after : Bool) : WordEdge → Bool
  | .edge => before != after
  | .noEdge => before == after
  | .start => !before && after
  | .finish => before && !after
  | .startHalf => !before
  | .finishHalf => !after

/-- Whether the condition holds at a place. -/
def holds (c : Cursor) : Place → Bool
  | textStart => c.before.isNone
  | textEnd => c.rest.isEmpty
  | lineStart carriageReturns => atLineStart carriageReturns c
  | lineEnd carriageReturns => atLineEnd carriageReturns c
  | word e unicode =>
    let isWord := (EscapeClass.word.chars unicode).contains
    isEdge (c.before.any isWord) (c.rest.head?.any isWord) e

end Place

/-! ## Matchers -/

/-- A pattern whose parts say for themselves what they stand for. -/
inductive Matcher where
  | empty
  /-- Characters one after the other, at least one. -/
  | text (cs : List Char)
  /-- A character of a set that has none or several. -/
  | set (s : CharSet)
  | place (p : Place)
  /-- A group that remembers where it matched. -/
  | group (m : Matcher)
  /-- A greedy repetition prefers more rounds, any other fewer. -/
  | repetition (m : Matcher) (least : Nat) (most : Option Nat) (greedy : Bool)
  | sequence (ms : List Matcher)
  /-- One of several, the earlier ones preferred. -/
  | choice (ms : List Matcher)
deriving Repr

namespace Matcher

mutual

/-- How many characters a match takes at least, as far as the shape of the matcher
    tells; nothing if the shape rules out every match. -/
def minLength : Matcher → Option Nat
  | empty | place _ => some 0
  | text cs => some cs.length
  | set s => if s.ranges.isEmpty then none else some 1
  | group m => minLength m
  | repetition m least _ _ => (minLength m).map (least * ·)
  | sequence ms => sumOfMinLengths ms
  | choice ms => minOfMinLengths ms

/-- The sum of the least lengths. -/
def sumOfMinLengths : List Matcher → Option Nat
  | [] => some 0
  | m :: rest => do return (← minLength m) + (← sumOfMinLengths rest)

/-- The least of the least lengths, if all have one. -/
def minOfMinLengths : List Matcher → Option Nat
  | [] => none
  | [m] => minLength m
  | m :: rest => do return min (← minLength m) (← minOfMinLengths rest)

end

/-- Whether every match takes a character, as far as the shape of the matcher tells. -/
def takesSome (m : Matcher) : Bool := m.minLength.any (0 < ·)

mutual

/-- Whether no match takes a character, as far as the shape of the matcher tells. -/
def takesNothing : Matcher → Bool
  | empty | place _ => true
  | text _ | set _ => false
  | group m | repetition m .. => takesNothing m
  | sequence ms | choice ms => allTakeNothing ms

/-- Whether none of the matchers takes a character. -/
def allTakeNothing : List Matcher → Bool
  | [] => true
  | m :: rest => takesNothing m && allTakeNothing rest

end

mutual

/-- Whether every match has a condition at its start, before any character. -/
def startsWith (p : Place) : Matcher → Bool
  | place q => p = q
  | group m => startsWith p m
  | repetition m least _ _ => 0 < least && startsWith p m
  | sequence ms => sequenceStartsWith p ms
  | choice ms => allStartWith p ms
  | empty | text _ | set _ => false

/-- Whether every match of a sequence has a condition at its start. -/
def sequenceStartsWith (p : Place) : List Matcher → Bool
  | [] => false
  | m :: rest => startsWith p m || (takesNothing m && sequenceStartsWith p rest)

/-- Whether every match of every matcher has a condition at its start. -/
def allStartWith (p : Place) : List Matcher → Bool
  | [] => true
  | m :: rest => startsWith p m && allStartWith p rest

end

mutual

/-- Whether every match has a condition at its end, after all characters. -/
def endsWith (p : Place) : Matcher → Bool
  | place q => p = q
  | group m => endsWith p m
  | repetition m least _ _ => 0 < least && endsWith p m
  | sequence ms => sequenceEndsWith p ms
  | choice ms => allEndWith p ms
  | empty | text _ | set _ => false

/-- Whether every match of a sequence has a condition at its end. -/
def sequenceEndsWith (p : Place) : List Matcher → Bool
  | [] => false
  | m :: rest => sequenceEndsWith p rest || (allTakeNothing rest && endsWith p m)

/-- Whether every match of every matcher has a condition at its end. -/
def allEndWith (p : Place) : List Matcher → Bool
  | [] => true
  | m :: rest => endsWith p m && allEndWith p rest

end

/-! ## Sets, sequences and repetitions -/

/-- Matches a character of a set. -/
def ofSet (s : CharSet) : Matcher :=
  match s.single? with
  | some c => text [c]
  | none => set s

/-- The parts that follow each other in a matcher. -/
def parts : Matcher → List Matcher
  | empty => []
  | sequence ms => ms
  | m => [m]

/-- Joins neighbouring texts. -/
def joinTexts : List Matcher → List Matcher
  | [] => []
  | text cs :: rest =>
    match joinTexts rest with
    | text ds :: more => text (cs ++ ds) :: more
    | more => text cs :: more
  | m :: rest => m :: joinTexts rest

/-- Matches the matchers of a list one after the other. -/
def ofParts (ms : List Matcher) : Matcher :=
  match joinTexts (ms.flatMap parts) with
  | [] => empty
  | [m] => m
  | ms => sequence ms

/-- Repeats a matcher at least `least` times and, if there is a limit, at most `most`
    times. Of one that takes no character, a second round adds nothing. -/
def repeated (m : Matcher) (least : Nat) (most : Option Nat) (greedy : Bool) : Matcher :=
  let (least, most) :=
    if m.takesNothing then (min least 1, some (min (most.getD 1) 1)) else (least, most)
  if most = some 0 then empty
  else if least = 1 ∧ most = some 1 then m
  else repetition m least most greedy

/-! ## Choices -/

mutual

/-- Whether two matchers are the same. Groups never are, for each remembers its own
    match. -/
def same : Matcher → Matcher → Bool
  | empty, empty => true
  | text cs, text ds => cs = ds
  | set s, set t => s = t
  | place p, place q => p = q
  | repetition m least most greedy, repetition n least' most' greedy' =>
    least = least' && most = most' && greedy = greedy' && same m n
  | sequence ms, sequence ns | choice ms, choice ns => allSame ms ns
  | _, _ => false

/-- Whether two lists have the same matchers. -/
def allSame : List Matcher → List Matcher → Bool
  | [], [] => true
  | m :: ms, n :: ns => same m n && allSame ms ns
  | _, _ => false

end

/-- The parts two sequences have in common at their start. -/
def commonStart : List Matcher → List Matcher → List Matcher
  | m :: ms, n :: ns => if same m n then m :: commonStart ms ns else []
  | _, _ => []

/-- The set of the characters of a list of matchers, if each is a text of one
    character. -/
def singles? : List Matcher → Option CharSet
  | [] => some .empty
  | text [c] :: rest => do return (CharSet.single c).union (← singles? rest)
  | _ => none

/-- The union of the sets of a list of matchers, if each is a set. -/
def sets? : List Matcher → Option CharSet
  | [] => some .empty
  | set s :: rest => do return s.union (← sets? rest)
  | _ => none

/-- The parts of the matchers of a list, if each is a sequence. -/
def sequences? : List Matcher → Option (List (List Matcher))
  | [] => some []
  | sequence ms :: rest => do return ms :: (← sequences? rest)
  | _ => none

/-- The branches of a matcher. -/
def branches : Matcher → List Matcher
  | choice ms => ms
  | m => [m]

/-- Matches one of the matchers of a list, the earlier ones preferred. Branches that are
    sequences share the parts they have in common at the start. Every nested call has
    fewer parts in its branches, so `fuel` need only exceed their number. -/
def ofBranchesWith : Nat → List Matcher → Matcher
  | 0, ms => choice ms
  | fuel + 1, ms =>
    match ms.flatMap branches with
    | [m] => m
    | ms =>
      match (singles? ms).orElse fun _ => sets? ms with
      | some s => ofSet s
      | none =>
        match sequences? ms with
        | some (first :: others) =>
          let common := others.foldl commonStart first
          if common.isEmpty then choice ms
          else
            let rests := (first :: others).map fun ps => ofParts (ps.drop common.length)
            ofParts (common ++ [ofBranchesWith fuel rests])
        | _ => choice ms

mutual

/-- How many parts a matcher has. -/
def partCount : Matcher → Nat
  | empty | text _ | set _ | place _ => 1
  | group m | repetition m .. => 1 + partCount m
  | sequence ms | choice ms => 1 + partCounts ms

/-- How many parts the matchers of a list have. -/
def partCounts : List Matcher → Nat
  | [] => 0
  | m :: rest => partCount m + partCounts rest

end

/-- Matches one of the matchers of a list, the earlier ones preferred. -/
def ofBranches (ms : List Matcher) : Matcher := ofBranchesWith (partCounts ms + 1) ms

end Matcher

end LanguageWorkbench
