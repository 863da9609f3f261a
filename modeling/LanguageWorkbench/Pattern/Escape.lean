import LanguageWorkbench.Pattern.Basic

/-!
# Escapes and numbers in patterns

The parts of a pattern text that start with a backslash or hold a number. A reader
takes what is left of the text and answers a value with the rest, or nothing if the
text is malformed.

In verbose mode blanks and comments between the parts are skipped.
-/

namespace LanguageWorkbench

/-- What is left of the text of a pattern. -/
abbrev PatternText := List Char

namespace PatternText

/-- Skips blanks and comments; the flag says that a comment is open. -/
def skipBlanks : Bool → PatternText → PatternText
  | _, [] => []
  | true, c :: cs => if c = '\n' then skipBlanks false cs else skipBlanks true cs
  | false, c :: cs =>
    if Text.isBlank c then skipBlanks false cs
    else if c = '#' then skipBlanks true cs
    else c :: cs

/-- Skips blanks and comments in verbose mode. -/
def skip (verbose : Bool) (cs : PatternText) : PatternText :=
  if verbose then skipBlanks false cs else cs

/-- The text after a given start. -/
def after? (start : List Char) (cs : PatternText) : Option PatternText :=
  if start.isPrefixOf cs then some (cs.drop start.length) else none

/-! ## Numbers -/

/-- The value of a hexadecimal digit. -/
def hexDigit? (c : Char) : Option Nat :=
  if c.isDigit then some (c.toNat - '0'.toNat)
  else if 'a' ≤ c && c ≤ 'f' then some (c.toNat - 'a'.toNat + 10)
  else if 'A' ≤ c && c ≤ 'F' then some (c.toNat - 'A'.toNat + 10)
  else none

/-- The character with a code point, if it is one. -/
def charOf? (n : Nat) : Option Char :=
  if n < 0xD800 || (0xDFFF < n && n < 0x110000) then some (Char.ofNat n) else none

/-- Reads as many hexadecimal digits as asked for, after those of `value`. -/
def hexDigits (verbose : Bool) : Nat → Nat → PatternText → Option (Nat × PatternText)
  | 0, value, cs => some (value, cs)
  | _ + 1, _, [] => none
  | count + 1, value, c :: cs => do
    hexDigits verbose count (16 * value + (← hexDigit? c)) (skip verbose cs)

/-- Reads hexadecimal digits, after those of `value`, up to a closing brace. There
    must be one. `fuel` bounds the digits. -/
def bracedHexDigits (verbose : Bool) :
    Nat → Option Nat → PatternText → Option (Nat × PatternText)
  | 0, _, _ | _, _, [] => none
  | fuel + 1, value, c :: cs =>
    if c = '\x7d' then value.map (·, skip verbose cs)
    else do
      bracedHexDigits verbose fuel (some (16 * value.getD 0 + (← hexDigit? c))) (skip verbose cs)

/-- Reads the character with a hexadecimal code point of `count` digits, or of any
    number of digits in braces. -/
def hexChar (verbose : Bool) (count : Nat) (cs : PatternText) : Option (Char × PatternText) := do
  let (value, rest) ←
    match cs with
    | '\x7b' :: rest => bracedHexDigits verbose rest.length none (skip verbose rest)
    | _ => hexDigits verbose count 0 cs
  return (← charOf? value, rest)

/-- Whether a hexadecimal code point of two digits is no ASCII character. -/
def isByte (c : Char) (cs : PatternText) : Bool := cs.head? != some '\x7b' && 0x80 ≤ c.toNat

/-- Reads decimal digits, after those of `value`. `fuel` bounds the digits. -/
def decimalDigits (verbose : Bool) : Nat → Option Nat → PatternText → Option Nat × PatternText
  | 0, value, cs => (value, cs)
  | _, value, [] => (value, [])
  | fuel + 1, value, c :: cs =>
    if c.isDigit then
      decimalDigits verbose fuel (some (10 * value.getD 0 + (c.toNat - '0'.toNat)))
        (skip verbose cs)
    else (value, c :: cs)

/-- Reads a decimal number of at most 32 bits with blanks around it. -/
def decimal (verbose : Bool) (cs : PatternText) : Option (Nat × PatternText) :=
  let (value, rest) := decimalDigits verbose cs.length none (Text.trimLeft cs)
  match value with
  | some n => if n < 4294967296 then some (n, Text.trimLeft rest) else none
  | none => none

/-! ## Escapes -/

/-- A part of a pattern that is not made of others. -/
inductive Atom where
  | char (c : Char)
  /-- A character beyond ASCII with a code of two digits. -/
  | byte (c : Char)
  | set (s : ClassSet)
  | assertion (a : Assertion)
deriving Repr

/-- The atom as a pattern of its own. -/
def Atom.toPattern : Atom → Pattern
  | char c => .char c
  | byte c => .byte c
  | set s => .set s
  | assertion a => .assertion a

/-- The character that the atom stands for. -/
def Atom.char? : Atom → Option Char
  | char c | byte c => some c
  | set _ | assertion _ => none

/-- Whether a backslash before the character makes it stand for itself: every ASCII
    character but letters, digits and angle brackets. -/
def isEscapable (c : Char) : Bool :=
  c.toNat < 0x80 && !c.isAlphanum && c ≠ '<' && c ≠ '>'

/-- The assertion of a word boundary with a name in braces. -/
def boundaryOfName? : String → Option Assertion
  | "start" => some (.word .start)
  | "end" => some (.word .finish)
  | "start-half" => some (.word .startHalf)
  | "end-half" => some (.word .finishHalf)
  | _ => none

/-- Whether a character may be part of the name of a word boundary. -/
def isBoundaryChar (c : Char) : Bool := c.isAlpha || c = '-'

/-- Reads the name of a word boundary, after `name` in reverse, up to its closing
    brace. `fuel` bounds the characters. -/
def boundaryName (verbose : Bool) :
    Nat → List Char → PatternText → Option (Assertion × PatternText)
  | 0, _, _ | _, _, [] => none
  | fuel + 1, name, c :: cs =>
    if isBoundaryChar c then boundaryName verbose fuel (c :: name) (skip verbose cs)
    else if c = '\x7d' then do return (← boundaryOfName? (String.ofList name.reverse), cs)
    else none

/-- Reads what follows the escape of a word boundary: its name in braces, or
    nothing. Braces that hold something else are a repetition of the boundary. -/
def boundary (verbose : Bool) (cs : PatternText) : Option (Atom × PatternText) :=
  match cs with
  | '\x7b' :: rest =>
    match skip verbose rest with
    | [] => none
    | c :: inside =>
      if isBoundaryChar c then do
        let (a, rest) ← boundaryName verbose (c :: inside).length [] (c :: inside)
        return (.assertion a, rest)
      else some (.assertion (.word .edge), cs)
  | _ => some (.assertion (.word .edge), cs)

/-- Reads the escape whose backslash stands before the text. -/
def escape (verbose : Bool) : PatternText → Option (Atom × PatternText)
  | [] => none
  | c :: cs =>
    let hex (count : Nat) : Option (Atom × PatternText) := do
      let (c, rest) ← hexChar verbose count (skip verbose cs)
      return (.char c, rest)
    match c with
    | 'x' => do
      let digits := skip verbose cs
      let (c, rest) ← hexChar verbose 2 digits
      return (if isByte c digits then .byte c else .char c, rest)
    | 'u' => hex 4
    | 'U' => hex 8
    | 'd' => some (.set (.escape .digit false), cs)
    | 'D' => some (.set (.escape .digit true), cs)
    | 's' => some (.set (.escape .space false), cs)
    | 'S' => some (.set (.escape .space true), cs)
    | 'w' => some (.set (.escape .word false), cs)
    | 'W' => some (.set (.escape .word true), cs)
    | 'a' => some (.char '\x07', cs)
    | 'f' => some (.char '\x0c', cs)
    | 't' => some (.char '\t', cs)
    | 'n' => some (.char '\n', cs)
    | 'r' => some (.char '\r', cs)
    | 'v' => some (.char '\x0b', cs)
    | 'A' => some (.assertion .textStart, cs)
    | 'z' => some (.assertion .textEnd, cs)
    | 'b' => boundary verbose cs
    | 'B' => some (.assertion (.word .noEdge), cs)
    | '<' => some (.assertion (.word .start), cs)
    | '>' => some (.assertion (.word .finish), cs)
    | c => if isEscapable c then some (.char c, cs) else none

end PatternText

end LanguageWorkbench
