import LanguageWorkbench.Pattern.ClassReader
import LanguageWorkbench.Text.Letter

/-!
# Reading patterns

`Pattern.parse` reads the text of a pattern and answers nothing if it is malformed.
The reader keeps a stack of open groups and takes one part of the text at a time,
so what it knows after a part of the text is explicit.
-/

namespace LanguageWorkbench

/-- A group that waits for its end, with what stood before it. -/
structure OpenGroup where
  captures : Bool
  /-- The flags the group sets. -/
  flags : FlagSetting
  /-- The finished branches before the group, last first. -/
  branches : List Pattern
  /-- The parts before the group in its branch, last first. -/
  parts : List Pattern
  /-- Whether the text outside the group is verbose. -/
  verbose : Bool

/-- What a reader knows after a part of the text. -/
structure PatternReader where
  /-- The open groups, innermost first. -/
  groups : List OpenGroup
  /-- The finished branches of the innermost group, last first. -/
  branches : List Pattern
  /-- The parts of the current branch, last first. -/
  parts : List Pattern
  verbose : Bool
  /-- The names of groups. -/
  names : List (List Char)

namespace PatternReader

/-- Nothing read. -/
def initial : PatternReader := ⟨[], [], [], false, []⟩

/-- Adds a part to the current branch. -/
def add (r : PatternReader) (p : Pattern) : PatternReader := { r with parts := p :: r.parts }

/-- The pattern of the innermost group, closed here. -/
def closed (r : PatternReader) : Pattern :=
  .ofAlternatives ((.ofSequence r.parts.reverse :: r.branches).reverse)

/-! ## Groups -/

/-- Reads the letters of flags up to a colon or a closing bracket, which is left.
    `negated` says that a minus sign was read, `dangling` that it was the last
    character. A flag may be there once. -/
def flagLetters : Bool → Bool → FlagSetting → PatternText → Option (FlagSetting × PatternText)
  | _, _, _, [] => none
  | negated, dangling, flags, c :: cs =>
    if c = ':' || c = ')' then if dangling then none else some (flags.reverse, c :: cs)
    else if c = '-' then if negated then none else flagLetters true true flags cs
    else
      match PatternFlag.ofChar? c with
      | none => none
      | some flag =>
        if flags.any (·.1 = flag) then none
        else flagLetters negated false ((flag, !negated) :: flags) cs

/-- Whether a character may be part of the name of a group: its start is a letter, and
    numbers may follow. -/
def isGroupNameChar (first : Bool) (c : Char) : Bool :=
  c = '_' || if first then Text.isLetter c
    else Text.isAlphanumeric c || c = '.' || c = '[' || c = ']'

/-- Reads the name of a group up to the angle bracket that ends it. -/
def groupName (cs : PatternText) : Option (List Char × PatternText) :=
  let name := cs.takeWhile (· ≠ '>')
  match name, cs.dropWhile (· ≠ '>') with
  | c :: more, _ :: rest =>
    if isGroupNameChar true c && more.all (isGroupNameChar false) then some (name, rest) else none
  | _, _ => none

/-- Whether text is verbose once flags are set. -/
def verboseAfter (flags : FlagSetting) (verbose : Bool) : Bool :=
  (flags.lookup PatternFlag.verbose).getD verbose

/-- Opens a group with the given flags. -/
def openGroup (r : PatternReader) (captures : Bool) (flags : FlagSetting) : PatternReader where
  groups := ⟨captures, flags, r.branches, r.parts, r.verbose⟩ :: r.groups
  branches := []
  parts := []
  verbose := verboseAfter flags r.verbose
  names := r.names

/-- Opens a group with a name, which may not be taken. -/
def openNamed (r : PatternReader) (cs : PatternText) : Option (PatternReader × PatternText) := do
  let (name, rest) ← groupName cs
  if r.names.contains name then none
  else some ({ r with names := name :: r.names }.openGroup true [], rest)

/-- Reads the start of a group, whose opening bracket stands before the text. Flags
    alone in brackets make no group. Looking ahead or behind is no part of
    patterns. -/
def group (r : PatternReader) (cs : PatternText) : Option (PatternReader × PatternText) :=
  match PatternText.skip r.verbose cs with
  | '?' :: '=' :: _ | '?' :: '!' :: _ | '?' :: '<' :: '=' :: _ | '?' :: '<' :: '!' :: _ => none
  | '?' :: 'P' :: '<' :: rest | '?' :: '<' :: rest => r.openNamed rest
  | '?' :: rest => do
    let (flags, rest) ← flagLetters false false [] rest
    match rest with
    | ')' :: rest =>
      if flags.isEmpty then none
      else
        let r := { r with verbose := verboseAfter flags r.verbose }
        some (r.add (.flags flags), rest)
    | _ => some (r.openGroup false flags, rest.drop 1)
  | rest => some (r.openGroup true [], rest)

/-- Closes the innermost group. -/
def closeGroup (r : PatternReader) : Option PatternReader :=
  match r.groups with
  | [] => none
  | g :: groups =>
    some ⟨groups, g.branches, .group g.captures g.flags r.closed :: g.parts, g.verbose, r.names⟩

/-- Starts the next branch of the innermost group. -/
def nextBranch (r : PatternReader) : PatternReader :=
  { r with branches := .ofSequence r.parts.reverse :: r.branches, parts := [] }

/-! ## Repetitions -/

/-- Repeats the last part. -/
def repeatLast (r : PatternReader) (least : Nat) (most : Option Nat) (greedy : Bool) :
    Option PatternReader :=
  match r.parts with
  | [] => none
  | p :: parts =>
    if p.isRepeatable then some { r with parts := .repetition p least most greedy :: parts }
    else none

/-- Reads the question mark that makes a repetition prefer less. -/
def greed : PatternText → Bool × PatternText
  | '?' :: rest => (false, rest)
  | cs => (true, cs)

/-- Repeats the last part as often as the sign before the text says. -/
def simpleRepetition (r : PatternReader) (least : Nat) (most : Option Nat) (cs : PatternText) :
    Option (PatternReader × PatternText) := do
  let (greedy, rest) := greed cs
  return (← r.repeatLast least most greedy, rest)

/-- Reads the counts of a repetition, whose opening brace stands before the text: one
    number, a number and a comma, or two numbers in order. -/
def counts (verbose : Bool) (cs : PatternText) : Option (Nat × Option Nat × PatternText) := do
  let (least, rest) ← PatternText.decimal verbose (PatternText.skip verbose cs)
  match rest with
  | '\x7d' :: rest => some (least, some least, rest)
  | ',' :: rest =>
    match PatternText.skip verbose rest with
    | '\x7d' :: rest => some (least, none, rest)
    | rest =>
      match ← PatternText.decimal verbose rest with
      | (most, '\x7d' :: rest) => if least ≤ most then some (least, some most, rest) else none
      | _ => none
  | _ => none

/-- Repeats the last part by the counts in braces, whose opening brace stands before
    the text. -/
def countedRepetition (r : PatternReader) (cs : PatternText) :
    Option (PatternReader × PatternText) := do
  let (least, most, rest) ← counts r.verbose cs
  let (greedy, rest) := greed (PatternText.skip r.verbose rest)
  return (← r.repeatLast least most greedy, rest)

/-! ## Whole patterns -/

/-- Reads one part of the text, which starts with `c`. -/
def step (r : PatternReader) (c : Char) (cs : PatternText) : Option (PatternReader × PatternText) :=
  match c with
  | '(' => r.group cs
  | ')' => do return (← r.closeGroup, cs)
  | '|' => some (r.nextBranch, cs)
  | '[' => do
    let (set, rest) ← PatternText.charClass r.verbose cs
    return (r.add (.set set), rest)
  | '?' => r.simpleRepetition 0 (some 1) cs
  | '*' => r.simpleRepetition 0 none cs
  | '+' => r.simpleRepetition 1 none cs
  | '\x7b' => r.countedRepetition cs
  | '\\' => do
    let (atom, rest) ← PatternText.escape r.verbose cs
    return (r.add atom.toPattern, rest)
  | '.' => some (r.add .dot, cs)
  | '^' => some (r.add (.assertion .lineStart), cs)
  | '$' => some (r.add (.assertion .lineEnd), cs)
  | c => some (r.add (.char c), cs)

/-- Reads the rest of the text. `fuel` bounds the parts. -/
def readAll : Nat → PatternReader → PatternText → Option PatternReader
  | 0, _, _ => none
  | fuel + 1, r, cs =>
    match PatternText.skip r.verbose cs with
    | [] => some r
    | c :: rest => do
      let (r, rest) ← r.step c rest
      readAll fuel r rest

end PatternReader

/-- How deeply a pattern may nest. -/
def Pattern.depthLimit : Nat := 250

/-- Reads the text of a pattern. -/
def Pattern.parse (text : PatternText) : Option Pattern := do
  let r ← PatternReader.readAll (text.length + 1) .initial text
  if !r.groups.isEmpty then none
  else if r.closed.depth ≤ Pattern.depthLimit then some r.closed
  else none

end LanguageWorkbench
