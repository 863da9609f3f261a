import LanguageWorkbench.Pattern.ClassSet

/-!
# Patterns

The tree of a pattern as its text is written: alternatives of sequences of
characters, classes, assertions, groups and repetitions. Flags stand where they
are written; what they mean for the rest of the pattern is settled when the tree
is turned into a matcher.
-/

namespace LanguageWorkbench

/-- What two neighbouring characters say about words: whether each is a word
    character. -/
inductive WordEdge where
  /-- A word starts or ends here. -/
  | edge
  /-- No word starts or ends here. -/
  | noEdge
  | start
  | finish
  /-- No word character before. -/
  | startHalf
  /-- No word character after. -/
  | finishHalf
deriving DecidableEq, Repr

/-- A condition on the place between two characters. -/
inductive Assertion where
  /-- `^`: the start of the text or, by lines, of a line. -/
  | lineStart
  /-- `$`: the end of the text or, by lines, of a line. -/
  | lineEnd
  | textStart
  | textEnd
  | word (e : WordEdge)
deriving DecidableEq, Repr

/-- A switch for a part of a pattern. -/
inductive PatternFlag where
  /-- `i`: case does not matter. -/
  | foldCase
  /-- `m`: `^` and `$` go by lines. -/
  | byLines
  /-- `s`: `.` also stands for a line feed. -/
  | dotAll
  /-- `U`: repetitions prefer less where they would prefer more, and more where they
      would prefer less. -/
  | swapGreed
  /-- `u`: characters beyond ASCII count as characters. -/
  | unicode
  /-- `R`: a carriage return also ends a line. -/
  | carriageReturns
  /-- `x`: blanks and comments between the parts are skipped. -/
  | verbose
deriving DecidableEq, Repr

/-- The flag of a letter. -/
def PatternFlag.ofChar? : Char → Option PatternFlag
  | 'i' => some foldCase
  | 'm' => some byLines
  | 's' => some dotAll
  | 'U' => some swapGreed
  | 'u' => some unicode
  | 'R' => some carriageReturns
  | 'x' => some verbose
  | _ => none

/-- The flags a group sets or, with `false`, clears. -/
abbrev FlagSetting := List (PatternFlag × Bool)

/-- The tree of a pattern. -/
inductive Pattern where
  | empty
  | char (c : Char)
  /-- A character beyond ASCII that is written as a code of two digits. -/
  | byte (c : Char)
  /-- `.` -/
  | dot
  | set (s : ClassSet)
  | assertion (a : Assertion)
  /-- Flags for what follows in the same group. -/
  | flags (f : FlagSetting)
  /-- A group, with the flags it sets for its inside. One that `captures` remembers
      where it matched. -/
  | group (captures : Bool) (f : FlagSetting) (p : Pattern)
  | repetition (p : Pattern) (least : Nat) (most : Option Nat) (greedy : Bool)
  | sequence (ps : List Pattern)
  | alternatives (ps : List Pattern)
deriving Repr

namespace Pattern

/-- The pattern of a list of parts. -/
def ofSequence : List Pattern → Pattern
  | [] => empty
  | [p] => p
  | ps => sequence ps

/-- The pattern of a list of branches. -/
def ofAlternatives : List Pattern → Pattern
  | [p] => p
  | ps => alternatives ps

/-- Whether a repetition may follow: not after nothing and not after flags. -/
def isRepeatable : Pattern → Bool
  | empty | flags _ => false
  | _ => true

mutual

/-- How deeply the parts of a pattern nest. -/
def depth : Pattern → Nat
  | empty | char _ | byte _ | dot | assertion _ | flags _ => 0
  | set s => s.depth
  | group _ _ p => 1 + depth p
  | repetition p .. => 1 + depth p
  | sequence ps => 1 + maxDepth ps
  | alternatives ps => 1 + maxDepth ps

/-- The depth of the deepest pattern of a list. -/
def maxDepth : List Pattern → Nat
  | [] => 0
  | p :: rest => max (depth p) (maxDepth rest)

end

end Pattern

end LanguageWorkbench
