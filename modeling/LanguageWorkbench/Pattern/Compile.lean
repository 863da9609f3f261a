import LanguageWorkbench.Error
import LanguageWorkbench.Pattern.Footprint
import LanguageWorkbench.Pattern.Program
import LanguageWorkbench.Pattern.Reader

/-!
# Compiling patterns

Compiling a pattern settles its flags. Flags in brackets of their own hold for what
follows in the same group, also in its later branches; the flags of a group hold
inside it.

A pattern may be refused because it is malformed, because it could match a part of a
character, or because it is too large.
-/

namespace LanguageWorkbench

/-- The flags at one place of a pattern. -/
structure Flags where
  foldCase : Bool
  byLines : Bool
  dotAll : Bool
  swapGreed : Bool
  unicode : Bool
  carriageReturns : Bool
deriving DecidableEq, Repr

namespace Flags

/-- The flags at the start of a pattern. -/
def initial : Flags := ⟨false, false, false, false, true, false⟩

/-- The flags after one is set or cleared. -/
def set (f : Flags) : PatternFlag × Bool → Flags
  | (.foldCase, b) => { f with foldCase := b }
  | (.byLines, b) => { f with byLines := b }
  | (.dotAll, b) => { f with dotAll := b }
  | (.swapGreed, b) => { f with swapGreed := b }
  | (.unicode, b) => { f with unicode := b }
  | (.carriageReturns, b) => { f with carriageReturns := b }
  | (.verbose, _) => f

/-- The flags after some are set or cleared. -/
def setAll (f : Flags) (s : FlagSetting) : Flags := s.foldl set f

/-- How characters are read. -/
def reading (f : Flags) : CharReading := ⟨f.foldCase, f.unicode⟩

/-- The characters that a dot stands for: all but those that end a line. -/
def dotChars (f : Flags) : CharSet :=
  let lineEnds :=
    if f.dotAll then .empty
    else if f.carriageReturns then (CharSet.single '\n').union (.single '\r')
    else .single '\n'
  lineEnds.complement

/-- The condition that an assertion stands for. -/
def place (f : Flags) : Assertion → Place
  | .lineStart => if f.byLines then .lineStart f.carriageReturns else .textStart
  | .lineEnd => if f.byLines then .lineEnd f.carriageReturns else .textEnd
  | .textStart => .textStart
  | .textEnd => .textEnd
  | .word e => .word e f.unicode

end Flags

namespace Pattern

mutual

/-- The matcher of a pattern under flags, with the flags after it. Where characters
    beyond ASCII do not count as such, a dot could match a part of one, and so could a code of
    two digits. -/
def compileWith (f : Flags) : Pattern → Option (Matcher × Flags)
  | empty => some (.empty, f)
  | char c => some (.ofSet (f.reading.folded (.single c)), f)
  | byte c => if f.unicode then some (.ofSet (f.reading.folded (.single c)), f) else none
  | dot => if f.unicode then some (.ofSet f.dotChars, f) else none
  | set s => do return (.ofSet (← s.chars f.reading), f)
  | assertion a => some (.place (f.place a), f)
  | flags s => some (.empty, f.setAll s)
  | group captures s p => do
    let (m, _) ← compileWith (f.setAll s) p
    return (if captures then .group m else m, f)
  | repetition p least most greedy => do
    let (m, f) ← compileWith f p
    return (m.repeated least most (greedy != f.swapGreed), f)
  | sequence ps => do
    let (ms, f) ← compileAll f ps
    return (.ofParts ms, f)
  | alternatives ps => do
    let (ms, f) ← compileAll f ps
    return (.ofBranches ms, f)

/-- The matchers of patterns one after the other, with the flags after them. -/
def compileAll (f : Flags) : List Pattern → Option (List Matcher × Flags)
  | [] => some ([], f)
  | p :: rest => do
    let (m, f) ← compileWith f p
    let (ms, f) ← compileAll f rest
    return (m :: ms, f)

end

/-- How large a pattern may be, in bytes. -/
def sizeLimit : Nat := 10485760

/-- The matcher of the text of a pattern. -/
def matcher (text : PatternText) : Option Matcher := do
  let p ← parse text
  let (m, _) ← compileWith .initial p
  return m

/-- The program of the text of a pattern. -/
def compile (text : PatternText) : Except PatternRefusal Program :=
  match matcher text with
  | none => .error .malformed
  | some m => if m.fits sizeLimit then .ok (.ofMatcher m) else .error (.tooLarge sizeLimit)

end Pattern

end LanguageWorkbench
