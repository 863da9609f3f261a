import LanguageWorkbench.Pattern.Escape

/-!
# Reading character classes

A class is read with a stack of what is open: brackets that wait for their end, and
operands that wait for the other side of an operation. The operations bind less
than putting items side by side, all alike and to the left.
-/

namespace LanguageWorkbench.PatternText

/-- What is open inside a class. -/
inductive ClassFrame where
  /-- A bracket, with the items before it, last first. -/
  | bracket (before : List ClassSet) (negated : Bool)
  /-- An operation, with its left operand. -/
  | operation (op : SetOperation) (left : ClassSet)

/-- Closes the operation on top of the stack, whose right operand is given. -/
def closeOperation (right : ClassSet) : List ClassFrame → ClassSet × List ClassFrame
  | .operation op left :: frames => (.combined op left right, frames)
  | frames => (right, frames)

/-- Reads a class with a name, whose opening bracket stands before the text. -/
def namedClass (cs : PatternText) : Option (ClassSet × PatternText) := do
  let rest ← after? [':'] cs
  let (negated, rest) :=
    match rest with
    | '^' :: rest => (true, rest)
    | _ => (false, rest)
  let name := rest.takeWhile (· ≠ ':')
  let rest ← after? [':', ']'] (rest.dropWhile (· ≠ ':'))
  let name ← AsciiClass.ofName? (String.ofList name)
  return (.named name negated, rest)

/-- Reads dashes at the start of a class, which stand for themselves, after the
    given items. -/
def leadingDashes (verbose : Bool) :
    Nat → List ClassSet → PatternText → Option (List ClassSet × PatternText)
  | 0, _, _ | _, _, [] => none
  | fuel + 1, items, c :: cs =>
    if c = '-' then leadingDashes verbose fuel (.char '-' :: items) (skip verbose cs)
    else some (items, c :: cs)

/-- Reads the start of a class, whose opening bracket stands before the text: the
    sign of negation, dashes, and a closing bracket that stands for itself because
    it comes first. -/
def openClass (verbose : Bool) (cs : PatternText) :
    Option (Bool × List ClassSet × PatternText) := do
  let cs := skip verbose cs
  let (negated, cs) :=
    match cs with
    | '^' :: rest => (true, skip verbose rest)
    | _ => (false, cs)
  let (items, cs) ← leadingDashes verbose (cs.length + 1) [] cs
  match items, cs with
  | [], ']' :: rest =>
    let rest := skip verbose rest
    if rest.isEmpty then none else some (negated, [.char ']'], rest)
  | _, _ => some (negated, items, cs)

/-- Reads a character or an escape inside a class. -/
def classAtom (verbose : Bool) : PatternText → Option (Atom × PatternText)
  | [] => none
  | '\\' :: cs => escape verbose cs
  | c :: cs => some (.char c, cs)

/-- The next character after a dash that is not skipped. Of a comment only the sign
    that opens it is skipped here. -/
def peekPast (verbose : Bool) (cs : PatternText) : Option Char :=
  if verbose then
    match Text.trimLeft cs with
    | '#' :: rest => (Text.trimLeft rest).head?
    | rest => rest.head?
  else cs.head?

/-- Reads a character, an escape or a range inside a class. A dash before a closing
    bracket or another dash makes no range. -/
def classItem (verbose : Bool) (cs : PatternText) : Option (ClassSet × PatternText) := do
  let (first, rest) ← classAtom verbose cs
  match skip verbose rest with
  | [] => none
  | c :: tail =>
    let next := peekPast verbose tail
    if c ≠ '-' || next = some ']' || next = some '-' then
      match first with
      | .char c | .byte c => some (.char c, skip verbose rest)
      | .set s => some (s, skip verbose rest)
      | .assertion _ => none
    else do
      let low ← first.char?
      let (last, rest) ← classAtom verbose (skip verbose tail)
      let high ← last.char?
      if low ≤ high then some (.range low high, rest) else none

/-- The operation that two characters stand for. -/
def operationOf? : Char → Option SetOperation
  | '&' => some .intersection
  | '-' => some .difference
  | '~' => some .symmetricDifference
  | _ => none

/-- Reads a class from inside its brackets: `frames` is what is open, and `items`
    are the items of the innermost bracket or operand, last first. `fuel` bounds the
    parts. -/
def classBody (verbose : Bool) :
    Nat → List ClassFrame → List ClassSet → PatternText → Option (ClassSet × PatternText)
  | 0, _, _, _ => none
  | fuel + 1, frames, items, cs =>
    match skip verbose cs with
    | [] => none
    | '[' :: rest =>
      match namedClass rest with
      | some (set, rest) => classBody verbose fuel frames (set :: items) rest
      | none => do
        let (negated, first, rest) ← openClass verbose rest
        classBody verbose fuel (.bracket items negated :: frames) first rest
    | ']' :: rest =>
      match closeOperation (.ofItems items.reverse) frames with
      | (set, [.bracket _ negated]) => some (.bracketed set negated, rest)
      | (set, .bracket before negated :: frames) =>
        classBody verbose fuel frames (.bracketed set negated :: before) rest
      | _ => none
    | c :: rest =>
      match (if rest.head? = some c then operationOf? c else none) with
      | some op =>
        let (left, frames) := closeOperation (.ofItems items.reverse) frames
        classBody verbose fuel (.operation op left :: frames) [] (rest.drop 1)
      | none => do
        let (item, rest) ← classItem verbose (c :: rest)
        classBody verbose fuel frames (item :: items) rest

/-- Reads a class, whose opening bracket stands before the text. -/
def charClass (verbose : Bool) (cs : PatternText) : Option (ClassSet × PatternText) := do
  let (negated, items, rest) ← openClass verbose cs
  classBody verbose (cs.length + 1) [.bracket [] negated] items rest

end LanguageWorkbench.PatternText
