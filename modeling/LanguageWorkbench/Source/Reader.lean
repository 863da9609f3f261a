import LanguageWorkbench.Source.Basic

/-!
# Reading grammar texts

    language calc
    whitespace [ \t\n]+
    atom LIT [0-9]+
    symbol '+' plus
    start add
    add:
        add? '+'= LIT

An unindented line that ends in a colon opens a rule, an indented line belongs to
the body of the rule before it, and every other line is a directive. Directives
come before the first rule, and the first of them names the language. Blank lines
and lines that start with `#` are skipped.

`Source.parse` reads a text and stops at the first line that is wrong.
-/

namespace LanguageWorkbench.Source

/-- What the lines read so far declare. Rules are held last first. -/
structure Draft where
  language : Option Mention
  whitespace : Option (Nat × String)
  terms : List TermDecl
  start : Option Mention
  collapse : List Mention
  spacing : List SpacingDecl
  rules : List RuleDecl
deriving Repr

namespace Draft

/-- Nothing declared. -/
def empty : Draft := ⟨none, none, [], none, [], [], []⟩

/-! ## Directives -/

/-- A word without one pair of quotes around it. Quotes around nothing stay. -/
def unquote (word : List Char) : List Char :=
  match word with
  | '\'' :: cs =>
    let inner := cs.dropLast
    if cs.getLast? = some '\'' && !inner.isEmpty then inner else word
  | _ => word

/-- The arguments of a directive that takes one. -/
def one (word : String) : List (List Char) → Except Issue (List Char)
  | [a] => .ok a
  | args => .error (.arity word "1 argument(s)" args.length)

/-- The arguments of a directive that takes two. -/
def two (word : String) : List (List Char) → Except Issue (List Char × List Char)
  | [a, b] => .ok (a, b)
  | args => .error (.arity word "2 argument(s)" args.length)

/-- A mention of a name, which may stand in quotes. -/
def mention (line : Nat) (word : List Char) : Mention := ⟨line, String.ofList (unquote word)⟩

/-- Adds a term. -/
def addTerm (d : Draft) (term : TermDecl) : Draft := { d with terms := d.terms ++ [term] }

/-- Adds what a spacing directive with the given arguments says. -/
def addSpacing (d : Draft) (line : Nat) (word : String) (kind : SpacingKind) (least : Nat)
    (args : List (List Char)) : Except Issue Draft :=
  match args with
  | text :: parents =>
    if args.length < least then .error (.arity word "a literal and parent rules" args.length)
    else .ok { d with
      spacing := d.spacing ++
        [⟨line, kind, String.ofList (unquote text), parents.map (String.ofList ∘ unquote)⟩] }
  | [] => .error (.arity word "a literal and parent rules" 0)

/-- Adds what the directive `word` with the text `rest` after it says. -/
def addDirective (d : Draft) (line : Nat) (word : String) (rest : List Char) :
    Except Issue Draft := do
  let args := Text.words rest
  match word with
  | "language" =>
    if d.language.isSome then throw (.repeatedDirective word)
    let name ← one word args
    return { d with language := some ⟨line, String.ofList name⟩ }
  | "whitespace" =>
    if d.whitespace.isSome then throw (.repeatedDirective word)
    if rest.isEmpty then throw (.arity word "a pattern" 0)
    return { d with whitespace := some (line, String.ofList rest) }
  | "keyword" =>
    let name := String.ofList (← one word args)
    return d.addTerm ⟨line, .keyword, name, name, none⟩
  | "atom" =>
    let (name, pattern) := Text.splitWord rest
    if name.isEmpty then throw (.arity word "a name and an optional pattern" 0)
    let name := String.ofList name
    let pattern := if pattern.isEmpty then none else some (String.ofList pattern)
    return d.addTerm ⟨line, .atom, name, name, pattern⟩
  | "symbol" =>
    let (text, tag) ← two word args
    let text := unquote text
    if text.isEmpty then throw .emptyLiteral
    return d.addTerm ⟨line, .symbol, String.ofList text, String.ofList tag, none⟩
  | "start" =>
    if d.start.isSome then throw (.repeatedDirective word)
    return { d with start := some (mention line (← one word args)) }
  | "collapse" =>
    if args.isEmpty then throw (.arity word "at least one rule" 0)
    return { d with collapse := d.collapse ++ args.map (mention line) }
  | "nospace-before" => d.addSpacing line word .glueBefore 1 args
  | "nospace-after" => d.addSpacing line word .glueAfter 1 args
  | "flat" => d.addSpacing line word .flat 2 args
  | _ => throw (.unknownDirective word)

/-- Reads a directive line. No directive may follow a rule, and the language is
    named first. -/
def directive (d : Draft) (line : Nat) (text : List Char) : Except Error Draft :=
  let (word, rest) := Text.splitWord text
  let word := String.ofList word
  if !d.rules.isEmpty then .error (.grammar line (.unexpectedDirective word))
  else if word ≠ "language" ∧ d.language.isNone then .error (.grammar line (.beforeLanguage word))
  else (d.addDirective line word rest).mapError (.grammar line)

/-! ## Rules -/

/-- Refuses a last rule without a body. -/
def checkLastBody (d : Draft) : Except Error Unit :=
  match d.rules with
  | rule :: _ =>
    if rule.body.isEmpty then .error (.grammar rule.line (.emptyBody rule.name)) else .ok ()
  | [] => .ok ()

/-- Reads the line that opens the rule `name`. -/
def ruleHeader (d : Draft) (line : Nat) (name : List Char) : Except Error Draft := do
  if name.isEmpty || !Text.isSolid name then
    throw (.grammar line (.malformedHeader (String.ofList name)))
  if d.language.isNone then throw (.grammar line .ruleBeforeLanguage)
  d.checkLastBody
  return { d with rules := ⟨line, String.ofList name, []⟩ :: d.rules }

/-- Reads an indented line. -/
def bodyLine (d : Draft) (line : Nat) (text : List Char) : Except Error Draft := do
  let (elements, tag) ← (Line.parse text).mapError (.grammar line)
  match d.rules with
  | [] => throw (.grammar line .bodyWithoutHeader)
  | rule :: rules =>
    if elements.isEmpty then throw (.grammar line .tagWithoutElements)
    return { d with rules := { rule with body := rule.body ++ [⟨line, elements, tag⟩] } :: rules }

/-! ## Whole texts -/

/-- Reads one line of the text. -/
def addLine (d : Draft) (line : Nat) (raw : List Char) : Except Error Draft :=
  let text := Text.trimRight raw
  let trimmed := Text.trimLeft text
  if trimmed.isEmpty || trimmed.head? = some '#' then .ok d
  else if text.length ≠ trimmed.length then d.bodyLine line trimmed
  else if trimmed.getLast? = some ':' then d.ruleHeader line (Text.trim trimmed.dropLast)
  else d.directive line trimmed

/-- Reads lines, the first of which has the given number. -/
def addLines (d : Draft) : Nat → List (List Char) → Except Error Draft
  | _, [] => .ok d
  | line, raw :: rest => do (← d.addLine line raw).addLines (line + 1) rest

/-- The grammar that a text of `lastLine` lines declares. -/
def finish (d : Draft) (lastLine : Nat) : Except Error Source := do
  d.checkLastBody
  let some language := d.language | throw (.grammar 1 .noLanguage)
  let some start := d.start | throw (.grammar lastLine .noStart)
  return {
    language, start
    whitespace := d.whitespace
    terms := d.terms
    collapse := d.collapse
    spacing := d.spacing
    rules := d.rules.reverse }

end Draft

/-- Reads a grammar text. A missing start rule is reported on the last line, which
    is line 1 of an empty text. -/
def parse (text : String) : Except Error Source := do
  let lines := Text.lines text.toList
  (← Draft.empty.addLines 1 lines).finish (max 1 lines.length)

end LanguageWorkbench.Source
