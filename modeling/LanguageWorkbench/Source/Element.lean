import LanguageWorkbench.Error
import LanguageWorkbench.Text.Blank

/-!
# Elements of rule bodies

A line of a rule body is a sequence of elements and, at the end, perhaps a tag:

    add? '+'= LIT #sum

An element names a rule or a term. It may stand in quotes, which may hold blanks
and suffix characters, and it may carry one suffix. A bare element of one
character has no suffix, so `+` alone is a name.

* `Element.parse` reads one element, `Line.parse` a whole body line.
* `Element.visual` is the element as messages and rule names show it.
-/

namespace LanguageWorkbench.Source

/-- What an element may ask for beyond being there once. -/
inductive Suffix where
  /-- `?`: may be left out. -/
  | optional
  /-- `*`: any number of times. -/
  | star
  /-- `+`: once or more. -/
  | plus
  /-- `&`: separated repetition. -/
  | separator
  /-- `!`: delimited repetition. -/
  | delimiter
  /-- `=`: there exactly when the optional element before it is there. -/
  | dependent
deriving DecidableEq, Repr

namespace Suffix

/-- The suffix that a character stands for. -/
def ofChar? : Char → Option Suffix
  | '?' => some optional
  | '*' => some star
  | '+' => some plus
  | '&' => some separator
  | '!' => some delimiter
  | '=' => some dependent
  | _ => none

/-- The character that stands for a suffix. -/
def toChar : Suffix → Char
  | optional => '?'
  | star => '*'
  | plus => '+'
  | separator => '&'
  | delimiter => '!'
  | dependent => '='

/-- Whether an element with this suffix may be absent. A dependent element may
    follow only such an element. -/
def mayBeAbsent : Suffix → Bool
  | optional | star | dependent => true
  | plus | separator | delimiter => false

@[simp] theorem ofChar?_toChar (s : Suffix) : ofChar? s.toChar = some s := by
  cases s <;> rfl

end Suffix

/-- One element of a rule body. -/
structure Element where
  name : String
  suffix : Option Suffix
  /-- Whether the name was written in quotes. -/
  quoted : Bool
deriving DecidableEq, Repr

namespace Element

/-- The element as written. A name with a suffix keeps its quotes, so that `'='=`
    does not read as `==`; without a suffix the name stands alone. -/
def visual (e : Element) : String :=
  match e.suffix with
  | none => e.name
  | some s =>
    let name := if e.quoted then "'" ++ e.name ++ "'" else e.name
    name.push s.toChar

/-- The name and what follows it: the text up to the closing quote, or all but a
    suffix character at the end. -/
def splitSuffix : List Char → List Char × List Char
  | '\'' :: cs => (cs.takeWhile (· != '\''), (cs.dropWhile (· != '\'')).drop 1)
  | word =>
    match word.getLast? with
    | some c => if 1 < word.length && (Suffix.ofChar? c).isSome then (word.dropLast, [c]) else (word, [])
    | none => (word, [])

/-- The suffix written as `cs` after the element `word`. -/
def parseSuffix (word : List Char) : List Char → Except Issue (Option Suffix)
  | [] => .ok none
  | [c] =>
    match Suffix.ofChar? c with
    | some s => .ok (some s)
    | none => .error (.unknownSuffix c (String.ofList word))
  | _ => .error (.manySuffixes (String.ofList word))

/-- Reads one element. -/
def parse (word : List Char) : Except Issue Element :=
  let (name, suffix) := splitSuffix word
  if name.isEmpty then .error .emptyLiteral
  else do
    let suffix ← parseSuffix word suffix
    return ⟨String.ofList name, suffix, word.head? = some '\''⟩

end Element

/-! ## Body lines -/

namespace Line

/-- Cuts the first element off a text that does not start with a blank. Blanks
    between quotes do not end it. -/
def cut : List Char → Except Issue (List Char × List Char)
  | '\'' :: cs =>
    match cs.dropWhile (· != '\'') with
    | [] => .error (.unterminatedQuote (String.ofList ('\'' :: cs)))
    | close :: rest =>
      .ok ('\'' :: cs.takeWhile (· != '\'') ++ close :: rest.takeWhile (!Text.isBlank ·),
        rest.dropWhile (!Text.isBlank ·))
  | cs => .ok (cs.takeWhile (!Text.isBlank ·), cs.dropWhile (!Text.isBlank ·))

/-- The first element of a text that starts with a character other than a blank
    takes at least that character. -/
theorem length_cut_lt {c : Char} {cs word rest : List Char} (hc : Text.isBlank c = false)
    (h : cut (c :: cs) = .ok (word, rest)) : rest.length < (c :: cs).length := by
  unfold cut at h
  split at h
  · rename_i cs' heq
    simp only [List.cons.injEq] at heq
    split at h
    · simp at h
    · rename_i close tail heq'
      simp only [Except.ok.injEq, Prod.mk.injEq] at h
      have h1 := (List.dropWhile_sublist (· != '\'') (l := cs')).length_le
      have h2 := (List.dropWhile_sublist (!Text.isBlank ·) (l := tail)).length_le
      rw [heq'] at h1
      simp only [List.length_cons] at h1 ⊢
      rw [← h.2, heq.2]
      omega
  · simp only [Except.ok.injEq, Prod.mk.injEq] at h
    have h1 := (List.dropWhile_sublist (!Text.isBlank ·) (l := cs)).length_le
    rw [← h.2]
    simp only [List.dropWhile_cons, hc, Bool.not_false, ↓reduceIte, List.length_cons]
    omega

theorem isBlank_of_trimLeft_eq_cons {cs rest : List Char} {c : Char}
    (h : Text.trimLeft cs = c :: rest) : Text.isBlank c = false := by
  have := List.head?_dropWhile_not Text.isBlank cs
  simp only [Text.trimLeft] at h
  rw [h] at this
  simpa using this

/-- Reads the elements of a body line and its tag. The tag is the last word, and
    nothing may follow it. -/
def parse (text : List Char) : Except Issue (List Element × Option String) :=
  match _htrim : Text.trimLeft text with
  | [] => .ok ([], none)
  | '#' :: tag =>
    let tag := Text.trim tag
    if tag.isEmpty || !Text.isSolid tag then .error (.malformedTag (String.ofList tag))
    else .ok ([], some (String.ofList tag))
  | c :: cs =>
    match _hcut : cut (c :: cs) with
    | .error e => .error e
    | .ok (word, rest) => do
      let element ← Element.parse word
      let (elements, tag) ← parse rest
      return (element :: elements, tag)
termination_by text.length
decreasing_by
  have h1 := length_cut_lt (isBlank_of_trimLeft_eq_cons _htrim) _hcut
  have h2 := Text.length_trimLeft_le text
  rw [_htrim] at h2
  omega

end Line

end LanguageWorkbench.Source
