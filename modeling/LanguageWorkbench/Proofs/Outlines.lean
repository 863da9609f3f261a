import LanguageWorkbench.Regex
import LanguageWorkbench.Text.Blank
import LanguageWorkbench.Text.Letter

/-!
# Outlines of patterns

The outline of a pattern is what the syntax of patterns makes of its brackets and bars: which of
them are signs that stand for themselves, and what the others enclose. All other signs are left as
they are.

* `ClassOutline`, `Outline`: the rest of a class of characters, and the rest of a pattern or group.
* `Outline.text`: the text of an outline.
* `Outline.alternatives`: the parts of a pattern between the bars outside groups.
* `IsReading`: what is known of a function that reads the outlines of patterns.
-/

namespace LanguageWorkbench

/-! ## Classes -/

/-- A class of characters, from some place up to its closing bracket. -/
inductive ClassOutline where
  | nil
  | sign (c : Char) (rest : ClassOutline)
  /-- A backslash and the character after it. -/
  | escape (c : Char) (rest : ClassOutline)
  /-- An opening bracket at the end of a range. -/
  | bracket (rest : ClassOutline)
  /-- A class inside the class, with a sign of negation or not, and with a closing bracket at its
      start that stands for itself or not. -/
  | set (negated closing : Bool) (items rest : ClassOutline)

namespace ClassOutline

/-- What opens a class. -/
def opener (negated closing : Bool) : List Char :=
  '[' :: ((if negated then ['^'] else []) ++ (if closing then [']'] else []))

/-- The text of a class. -/
def text : ClassOutline → List Char
  | nil => []
  | sign c rest => c :: rest.text
  | escape c rest => '\\' :: c :: rest.text
  | bracket rest => '[' :: rest.text
  | set negated closing items rest => opener negated closing ++ (items.text ++ ']' :: rest.text)

/-- The signs with a meaning for the brackets of a class. -/
def signs : List Char := ['\\', '[', ']']

/-- Whether the first sign of a class is none that belongs to what opens it. -/
def mayFollow (negated closing : Bool) : ClassOutline → Bool
  | nil => closing
  | sign c _ => closing || negated || c != '^'
  | _ => true

/-- Whether signs are where they may be. -/
def isFormed : ClassOutline → Bool
  | nil => true
  | sign c rest => !signs.contains c && rest.isFormed
  | escape _ rest | bracket rest => rest.isFormed
  | set negated closing items rest =>
    items.mayFollow negated closing && items.isFormed && rest.isFormed

/-- Whether no range ends in an opening bracket. -/
def isPlain : ClassOutline → Bool
  | nil => true
  | sign _ rest | escape _ rest => rest.isPlain
  | bracket _ => false
  | set _ _ items rest => items.isPlain && rest.isPlain

end ClassOutline

/-! ## Groups -/

/-- What is after the bracket that opens a group. -/
inductive GroupStart where
  | plain
  /-- A question mark, the letters of flags, if any, and a colon. -/
  | flagged (letters : List Char)
  /-- A name, with a letter in front or without. -/
  | named (short : Bool) (name : List Char)

namespace GroupStart

def text : GroupStart → List Char
  | plain => []
  | flagged letters => '?' :: (letters ++ [':'])
  | named short name => '?' :: ((if short then ['<'] else ['P', '<']) ++ (name ++ ['>']))

/-- The letters of flags, and the sign in front of those that are turned off. -/
def flagSigns : List Char := ['i', 'm', 's', 'U', 'R', 'u', 'x', '-']

/-- The characters of names that are neither letters nor numbers. -/
def nameSigns : List Char := ['_', '.', '[', ']']

def isFormed : GroupStart → Bool
  | plain => true
  | flagged letters => letters.all flagSigns.contains
  | named _ name => name.all fun c => nameSigns.contains c || Text.isAlphanumeric c

/-- Whether no opening bracket is part of a name. -/
def isPlain : GroupStart → Bool
  | named _ name => !name.contains '['
  | _ => true

/-- Whether a group with the given text has a colon before the first closing bracket, if it has a
    name. -/
def hasColon (start : GroupStart) (inner : List Char) : Bool :=
  match start with
  | named .. => ((start.text ++ inner).takeWhile (· ≠ ')')).contains ':'
  | _ => true

/-- Whether letters of flags turn on the mode in which blanks and comments are skipped. -/
def isVerbose (letters : List Char) : Bool := (letters.takeWhile (· ≠ '-')).contains 'x'

end GroupStart

/-! ## Patterns -/

/-- A pattern or a group, from some place up to its end. -/
inductive Outline where
  | nil
  | sign (c : Char) (rest : Outline)
  /-- A backslash and the character after it. -/
  | escape (c : Char) (rest : Outline)
  | bar (rest : Outline)
  /-- A class of characters. -/
  | set (negated closing : Bool) (items : ClassOutline) (rest : Outline)
  /-- A group that holds nothing but the letters of flags. -/
  | flags (letters : List Char) (rest : Outline)
  | group (start : GroupStart) (inner rest : Outline)

namespace Outline

/-- The text of a pattern. -/
def text : Outline → List Char
  | nil => []
  | sign c rest => c :: rest.text
  | escape c rest => '\\' :: c :: rest.text
  | bar rest => '|' :: rest.text
  | set negated closing items rest =>
    ClassOutline.opener negated closing ++ (items.text ++ ']' :: rest.text)
  | flags letters rest => '(' :: '?' :: (letters ++ ')' :: rest.text)
  | group start inner rest => '(' :: (start.text ++ (inner.text ++ ')' :: rest.text))

/-- The texts between the bars outside groups. -/
def alternatives : Outline → List (List Char)
  | nil => [[]]
  | sign c rest => rest.alternatives.modifyHead ([c] ++ ·)
  | escape c rest => rest.alternatives.modifyHead (['\\', c] ++ ·)
  | bar rest => [] :: rest.alternatives
  | set negated closing items rest =>
    rest.alternatives.modifyHead (ClassOutline.opener negated closing ++ items.text ++ [']'] ++ ·)
  | flags letters rest => rest.alternatives.modifyHead (['(', '?'] ++ letters ++ [')'] ++ ·)
  | group start inner rest =>
    rest.alternatives.modifyHead ('(' :: start.text ++ inner.text ++ [')'] ++ ·)

/-- The signs with a meaning for the brackets and bars of a pattern. -/
def signs : List Char := ['\\', '[', '(', ')', '|']

/-- Whether the first sign of a group is none that belongs to its start. -/
def mayFollow : GroupStart → Outline → Bool
  | .plain, sign c _ => c != '?'
  | _, _ => true

/-- Whether signs are where they may be. -/
def isFormed : Outline → Bool
  | nil => true
  | sign c rest => !signs.contains c && rest.isFormed
  | escape _ rest | bar rest => rest.isFormed
  | set negated closing items rest =>
    items.mayFollow negated closing && items.isFormed && rest.isFormed
  | flags letters rest => letters.all GroupStart.flagSigns.contains && rest.isFormed
  | group start inner rest =>
    start.isFormed && inner.mayFollow start && inner.isFormed && rest.isFormed

/-- Whether no range ends in an opening bracket, and none is part of a name. -/
def isPlain : Outline → Bool
  | nil => true
  | sign _ rest | escape _ rest | bar rest | flags _ rest => rest.isPlain
  | set _ _ items rest => items.isPlain && rest.isPlain
  | group start inner rest => start.isPlain && inner.isPlain && rest.isPlain

/-- Whether nowhere blanks and comments are skipped. -/
def isTerse : Outline → Bool
  | nil => true
  | sign _ rest | escape _ rest | bar rest | set _ _ _ rest => rest.isTerse
  | flags letters rest => !GroupStart.isVerbose letters && rest.isTerse
  | group (.flagged letters) inner rest =>
    !GroupStart.isVerbose letters && inner.isTerse && rest.isTerse
  | group _ inner rest => inner.isTerse && rest.isTerse

/-- Whether no flags are set outside groups for what follows. -/
def isUnflagged : Outline → Bool
  | nil => true
  | sign _ rest | escape _ rest | bar rest | set _ _ _ rest | group _ _ rest => rest.isUnflagged
  | flags _ _ => false

/-- Whether every named group outside others has a colon before the first closing bracket. -/
def hasColons : Outline → Bool
  | nil => true
  | sign _ rest | escape _ rest | bar rest | set _ _ _ rest | flags _ rest => rest.hasColons
  | group start inner rest => start.hasColon inner.text && rest.hasColons

end Outline

/-- Whether there is neither a blank in a text nor the sign of a comment. -/
def Text.isDense (text : List Char) : Bool := text.all fun c => !Text.isBlank c && c != '#'

/-- What is known of a function that reads patterns: it makes an outline of them. Only blanks and
    comments are left out, where they are skipped. -/
structure IsReading (reading : List Char → Option Outline) : Prop where
  isFormed : ∀ {text o}, reading text = some o → o.isFormed = true
  text_eq : ∀ {text o}, reading text = some o →
    (o.isTerse = true ∨ Text.isDense text = true) → o.text = text

end LanguageWorkbench
