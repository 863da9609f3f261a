import LanguageWorkbench.Grammar.Basic
import LanguageWorkbench.Lowered.Basic
import LanguageWorkbench.Note
import LanguageWorkbench.Regex

/-!
# Lexicons

A lexicon is a list of entries, each a pattern with the terminal it stands for. One
without a terminal stands for what is skipped between tokens.

An entry takes its longest match, also among the branches of its pattern: the
pattern is split at the bars outside groups and classes, and each part matches on
its own. Inside a group the first branch that matches is taken.

* `Lexicon.longest`: the entry with the longest match at the start of a text.
* `Lexicon.pieces`: a text cut into matches.
* `Lexicon.Tokenizer.next`: one token after the other.
-/

namespace LanguageWorkbench

/-- A terminal with its pattern. -/
structure LexiconEntry where
  /-- Nothing for what is skipped. -/
  symbol : Option Symbol
  /-- One for each branch of the pattern. -/
  branches : List Regex

/-- The entries, the most preferred first. -/
structure Lexicon where
  entries : List LexiconEntry

namespace Lexicon

/-! ## Branches -/

/-- Whether what follows the opening bracket of a group and a question mark sets
    flags for the rest of the pattern: there is no colon before the bracket that
    closes first. -/
def isBareFlags (cs : List Char) : Bool :=
  match cs.findIdx? (· = ':'), cs.findIdx? (· = ')') with
  | some colon, some close => close ≤ colon
  | _, _ => true

/-- The parts of a pattern between bars outside groups and classes, from a place
    inside `groups` groups and `classes` classes, where `part` is the current part
    in reverse. A bracket that opens a class may be followed by a sign of negation
    and by a closing bracket that stands for itself. A pattern with bare flags
    outside groups is not split. -/
def splitFrom (groups classes : Nat) (part : List Char) :
    List Char → Option (List (List Char))
  | [] => some [part.reverse]
  | '\\' :: c :: cs => splitFrom groups classes (c :: '\\' :: part) cs
  | '[' :: '^' :: ']' :: cs => splitFrom groups (classes + 1) (']' :: '^' :: '[' :: part) cs
  | '[' :: '^' :: cs => splitFrom groups (classes + 1) ('^' :: '[' :: part) cs
  | '[' :: ']' :: cs => splitFrom groups (classes + 1) (']' :: '[' :: part) cs
  | '[' :: cs => splitFrom groups (classes + 1) ('[' :: part) cs
  | c :: cs =>
    if 0 < classes then splitFrom groups (if c = ']' then classes - 1 else classes) (c :: part) cs
    else if c = '(' then
      if groups = 0 && cs.head? = some '?' && isBareFlags (cs.drop 1) then none
      else splitFrom (groups + 1) 0 (c :: part) cs
    else if c = ')' then splitFrom (groups - 1) 0 (c :: part) cs
    else if c = '|' && groups = 0 then do
      return part.reverse :: (← splitFrom 0 0 [] cs)
    else splitFrom groups 0 (c :: part) cs

/-- The branches of a pattern that match on their own, if there is more than one. -/
def branches? (pattern : List Char) : Option (List (List Char)) :=
  match splitFrom 0 0 [] pattern with
  | some (first :: second :: rest) => some (first :: second :: rest)
  | _ => none

/-! ## Compiling -/

/-- A pattern compiled to match at the start of a text. -/
def anchored (engine : RegexEngine) (pattern : List Char) : Except PatternRefusal Regex :=
  engine.compile (Regex.atStart pattern)

/-- The branches of a pattern on the given line, each compiled by itself, or the whole pattern if
    there is nothing to split. The pattern must also be one as a whole. -/
def compile (engine : RegexEngine) (line : Nat) (pattern : String) :
    Except Failure (List Regex) :=
  let compiled := do
    let whole ← anchored engine pattern.toList
    match branches? pattern.toList with
    | some parts => parts.mapM (anchored engine)
    | none => return [whole]
  compiled.mapError fun refusal => .grammar line (.badPattern pattern refusal)

/-- The lexicon of the given patterns, in order. -/
def ofPatternsWith (engine : RegexEngine) :
    List (Option Symbol × String) → Except Failure Lexicon
  | [] => .ok ⟨[]⟩
  | (symbol, pattern) :: rest => do
    let branches ← compile engine 0 pattern
    return ⟨⟨symbol, branches⟩ :: (← ofPatternsWith engine rest).entries⟩

/-- The pattern of a term. An atom may have none, and then nothing matches it. -/
def patternOf (rule : Rule) : Option String :=
  match rule.shape with
  | .term .atom pattern => pattern
  | _ => some (Regex.escape rule.name)

/-- The entries of terms. -/
def termEntries (engine : RegexEngine) (lowered : Lowered) :
    List (Rule × RuleId) → Except Failure (List LexiconEntry)
  | [] => .ok []
  | (rule, _) :: rest =>
    match patternOf rule with
    | none => termEntries engine lowered rest
    | some pattern => do
      let some symbol := lowered.symbol? rule.name | throw (.fault (.termNotLowered rule.name))
      let branches ← compile engine rule.line pattern
      return ⟨some symbol, branches⟩ :: (← termEntries engine lowered rest)

/-- The lexicon of a grammar: what is skipped, then the terms in declared order. -/
def ofGrammarWith (engine : RegexEngine) (g : Grammar) (lowered : Lowered) : Noted Lexicon := do
  let skipped ←
    match g.whitespace with
    | none => pure []
    | some (line, pattern) => do
      let branches ← .ofResult (compile engine line pattern)
      pure [⟨none, branches⟩]
  let terms ← .ofResult (termEntries engine lowered g.terms)
  let entries := skipped ++ terms
  .tell .debug (g.language.dash ++ ": lexicon of " ++ toString entries.length ++ " patterns")
  return ⟨entries⟩

/-! ## Matching -/

/-- The length of the longest match of the branches of an entry, 0 if none
    matches. -/
def matchLength (e : LexiconEntry) (text : List Char) : Nat :=
  (e.branches.filterMap fun r => r.find text).foldl max 0

/-- The better of two matches: the longer one, and of two with one length the
    first. -/
def better (best : Option (Option Symbol × Nat)) (symbol : Option Symbol) (length : Nat) :
    Option (Option Symbol × Nat) :=
  match best with
  | some (_, longest) => if longest < length then some (symbol, length) else best
  | none => if 0 < length then some (symbol, length) else none

/-- The longest match at the start of a text that takes a character, with its
    terminal. Of matches with one length that of the first entry counts. -/
def longest (l : Lexicon) (text : List Char) : Option (Option Symbol × Nat) :=
  l.entries.foldl (fun best e => better best e.symbol (matchLength e text)) none

/-- A match in a text. -/
structure Piece where
  /-- Nothing for what is skipped. -/
  symbol : Option Symbol
  text : List Char
deriving DecidableEq, Repr

/-- Why cutting a text ended. -/
inductive Remainder where
  /-- These characters are left, for more may follow them. -/
  | held (rest : List Char)
  /-- No entry matches at the first of these characters. -/
  | unmatched (rest : List Char)
deriving DecidableEq, Repr

/-- The characters left. -/
def Remainder.rest : Remainder → List Char
  | held rest | unmatched rest => rest

/-- Cuts a text into pieces. At the end of the input nothing is held back; before it
    a match that reaches the end of the text might still grow, so it is held back,
    and so is text that nothing matches yet. Every piece takes a character, so `fuel`
    need only exceed the characters. -/
def cut (l : Lexicon) (atEnd : Bool) : Nat → List Char → List Piece × Remainder
  | 0, text => ([], .held text)
  | fuel + 1, text =>
    if text.isEmpty then ([], .held [])
    else
      match l.longest text with
      | none => ([], if atEnd then .unmatched text else .held text)
      | some (symbol, length) =>
        if !atEnd && length = text.length then ([], .held text)
        else
          let (pieces, remainder) := l.cut atEnd fuel (text.drop length)
          (⟨symbol, text.take length⟩ :: pieces, remainder)

/-- The pieces of a text and what is left. -/
def pieces (l : Lexicon) (atEnd : Bool) (text : List Char) : List Piece × Remainder :=
  l.cut atEnd (text.length + 1) text

/-! ## Tokens -/

/-- A terminal in a text. -/
structure Token where
  symbol : Symbol
  text : String
  location : Location
deriving DecidableEq, Repr

/-- A text in the middle of being cut into tokens. -/
structure Tokenizer where
  lexicon : Lexicon
  /-- Whether no more text follows. -/
  atEnd : Bool
  /-- The characters that are left. -/
  rest : List Char
  /-- The place of the first of them. -/
  location : Location
  /-- The bytes cut off so far, as tokens or between them. -/
  consumed : Nat
  /-- Whether there was an error. No token follows it. -/
  failed : Bool

namespace Tokenizer

/-- A text before the first token. -/
def new (l : Lexicon) (atEnd : Bool) (location : Location) (text : List Char) : Tokenizer :=
  ⟨l, atEnd, text, location, 0, false⟩

/-- Cuts off the first characters. -/
def skip (t : Tokenizer) (length : Nat) : Tokenizer :=
  let text := t.rest.take length
  { t with
    rest := t.rest.drop length
    location := t.location.advance text
    consumed := t.consumed + (String.ofList text).utf8ByteSize }

/-- The next token, or the error if some character starts none, and what is left after it.
    What is skipped between tokens takes characters, so `fuel` need only exceed the
    characters. -/
def nextWithin : Nat → Tokenizer → Option (Except Error Token) × Tokenizer
  | 0, t => (none, t)
  | fuel + 1, t =>
    if t.failed then (none, t)
    else
      match t.rest with
      | [] => (none, t)
      | c :: _ =>
        match t.lexicon.longest t.rest with
        | none =>
          if t.atEnd then (some (.error (.lexical t.location c)), { t with failed := true })
          else (none, t)
        | some (symbol, length) =>
          if !t.atEnd && length = t.rest.length then (none, t)
          else
            match symbol with
            | none => (t.skip length).nextWithin fuel
            | some symbol =>
              let text := String.ofList (t.rest.take length)
              (some (.ok ⟨symbol, text, t.location⟩), t.skip length)

/-- The next token or the error. At the end of the input nothing is held back; before it a
    match that reaches the end of the text might still grow, so it is left, and so is text
    that nothing matches yet. -/
def next (t : Tokenizer) : Option (Except Error Token) × Tokenizer :=
  t.nextWithin (t.rest.length + 1)

end Tokenizer

/-- What cutting a text into tokens gives. -/
structure Tokens where
  tokens : List Token
  error : Option Error
  /-- The place after the last piece. -/
  location : Location
  /-- The characters after the last piece. -/
  rest : List Char
deriving DecidableEq, Repr

/-- All that is left, call by call until there is no answer. Every answer takes a character
    or is the error, so `fuel` need only exceed the characters. -/
def Tokenizer.collect : Nat → Tokenizer → Tokens
  | 0, t => ⟨[], none, t.location, t.rest⟩
  | fuel + 1, t =>
    match t.next with
    | (none, t) => ⟨[], none, t.location, t.rest⟩
    | (some (.error e), t) => { t.collect fuel with error := some e }
    | (some (.ok token), t) =>
      let more := t.collect fuel
      { more with tokens := token :: more.tokens }

/-- The tokens of a text that starts at a location, and the error if some character
    starts no token. -/
def tokenize (l : Lexicon) (atEnd : Bool) (location : Location) (text : List Char) : Tokens :=
  (Tokenizer.new l atEnd location text).collect (text.length + 1)

end Lexicon

end LanguageWorkbench
