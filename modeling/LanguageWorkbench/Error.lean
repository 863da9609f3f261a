import LanguageWorkbench.Fault
import LanguageWorkbench.Location

/-!
# Errors

What a caller can observe when a grammar is loaded, compiled or used. An error in
a grammar names its line and its cause, an `Issue`; the wording of each cause is
in `Issue.message`, that of an error in `Error.message`.

A step can end early in two ways, by an error or by a fault; `Failure` is either.
-/

namespace LanguageWorkbench

/-- Why a pattern is refused. -/
inductive PatternRefusal where
  /-- The text is not a pattern. -/
  | malformed
  /-- The pattern stands for a program larger than the limit, in bytes. -/
  | tooLarge (limit : Nat)
deriving DecidableEq, Repr

/-- What is wrong with a line of a grammar. -/
inductive Issue where
  -- reading the text
  | unexpectedDirective (word : String)
  | beforeLanguage (word : String)
  | repeatedDirective (word : String)
  | unknownDirective (word : String)
  /-- A directive takes other arguments than the `got` it was given. -/
  | arity (word expected : String) (got : Nat)
  | emptyLiteral
  | malformedHeader (name : String)
  | ruleBeforeLanguage
  | bodyWithoutHeader
  | tagWithoutElements
  | emptyBody (name : String)
  | noLanguage
  | noStart
  | malformedTag (tag : String)
  | unterminatedQuote (text : String)
  | unknownSuffix (suffix : Char) (word : String)
  | manySuffixes (word : String)
  -- checking the names
  | reservedName (name : String)
  | definedTwice (name : String) (first : Nat)
  | lineDefinedTwice (name : String)
  | tagWithoutAlternatives (tag rule : String)
  | tagOnSingleElement (tag : String)
  | optionalLine (element rule : String) (suffix : Char)
  | undefinedRule (name : String)
  | suffixClash (written base : String)
  | looseDependent (written : String)
  | undefinedStart (name : String)
  | undefinedCollapse (name : String)
  | undefinedParent (name : String)
  -- checking the rules
  | tagClash (first second dash : String)
  | aliasCycle (name : String)
  | optionalAlternative (alternative rule : String)
  | collapseNotSequence (name : String)
  -- lowering
  | repetition (name : String)
  | badStart (name : String)
  -- compiling the patterns
  | badPattern (pattern : String) (refusal : PatternRefusal)
deriving DecidableEq, Repr

namespace Issue

private def inQuotes (s : String) : String := "'" ++ s ++ "'"

/-- The text of an issue. -/
def message : Issue → String
  | unexpectedDirective word =>
    "unexpected " ++ inQuotes word ++ ": expected an indented rule body or a rule header"
  | beforeLanguage word => inQuotes word ++ " specified before language"
  | repeatedDirective word => word ++ " specified twice"
  | unknownDirective word => "unknown directive " ++ inQuotes word
  | arity word expected got =>
    inQuotes word ++ " expects " ++ expected ++ ", but got " ++ toString got ++ " argument(s)"
  | emptyLiteral => "empty symbol literal"
  | malformedHeader name => "malformed rule header '" ++ name ++ ":'"
  | ruleBeforeLanguage => "rule specified before language"
  | bodyWithoutHeader => "indented line where a rule header was expected"
  | tagWithoutElements => "tag without symbols"
  | emptyBody name => "empty rule body for " ++ inQuotes name
  | noLanguage => "no language specified"
  | noStart => "no start rule specified"
  | malformedTag tag => "malformed tag '#" ++ tag ++ "'"
  | unterminatedQuote text => "unterminated quote in " ++ text
  | unknownSuffix suffix word =>
    "unknown suffix " ++ inQuotes (String.ofList [suffix]) ++ " on " ++ word
  | manySuffixes word => "more than one suffix on " ++ word
  | reservedName name => inQuotes name ++ " is reserved, names cannot start with '$'"
  | definedTwice name first =>
    inQuotes name ++ " defined twice (first on line " ++ toString first ++ ")"
  | lineDefinedTwice name => inQuotes name ++ " defined twice"
  | tagWithoutAlternatives tag rule =>
    "tag '#" ++ tag ++ "' on " ++ inQuotes rule ++ ", which has no alternatives"
  | tagOnSingleElement tag => "tag '#" ++ tag ++ "' needs at least two symbols"
  | optionalLine element rule suffix =>
    "alternative " ++ inQuotes element ++ " of " ++ inQuotes rule ++ " cannot be marked " ++
      inQuotes (String.ofList [suffix])
  | undefinedRule name => "Undefined rule: " ++ inQuotes name ++ "."
  | suffixClash written base =>
    inQuotes written ++ " is both a declared name and " ++ inQuotes base ++
      " with a suffix, quote the literal or rename it"
  | looseDependent written => inQuotes written ++ " must follow an optional element"
  | undefinedStart name => "Undefined start rule: " ++ inQuotes name ++ "."
  | undefinedCollapse name => "Undefined rule in collapse: " ++ inQuotes name ++ "."
  | undefinedParent name => "Undefined parent rule: " ++ inQuotes name ++ "."
  | tagClash first second dash =>
    inQuotes first ++ " and " ++ inQuotes second ++ " both map to the name " ++ inQuotes dash
  | aliasCycle name => "alias cycle through " ++ inQuotes name
  | optionalAlternative alternative rule =>
    "alternative " ++ inQuotes alternative ++ " of " ++ inQuotes rule ++ " is optional"
  | collapseNotSequence name => "only sequences can collapse, " ++ inQuotes name ++ " is not one"
  | repetition name =>
    inQuotes name ++ ": separated and delimited repetition cannot be lowered"
  | badStart name => inQuotes name ++ " cannot be the start rule"
  | badPattern pattern .malformed =>
    "bad pattern " ++ Text.quoted pattern ++ ": regex parse error:"
  | badPattern pattern (.tooLarge limit) =>
    "bad pattern " ++ Text.quoted pattern ++ ": Compiled regex exceeds size limit of " ++
      toString limit ++ " bytes."

end Issue

/-- What a caller of load, compile or parse can observe instead of a result. -/
inductive Error where
  /-- A line of the grammar is wrong. -/
  | grammar (line : Nat) (issue : Issue)
  /-- Two actions compete in one state of the table. -/
  | conflict (state : Nat) (symbol : String) (actions : List String)
  /-- No pattern matches at a character of the input. -/
  | lexical (location : Location) (character : Char)
  /-- The automaton has no action for a token, or for the end of the input. -/
  | unexpected (location : Location) (symbol text : String)
deriving DecidableEq, Repr

namespace Error

/-- The text of an error. -/
def message : Error → String
  | grammar line issue => "line " ++ toString line ++ ": " ++ issue.message
  | conflict state symbol actions =>
    "conflict in state " ++ toString state ++ " on " ++ symbol ++ ": " ++
      " vs ".intercalate actions
  | lexical location character =>
    location.render ++ ": error: Unexpected character " ++ Text.quotedChar character
  | unexpected location symbol text =>
    location.render ++ ": error: Unexpected " ++ symbol ++ ": " ++ text

/-- Where in the input the error was found, if it is about an input. -/
def location? : Error → Option Location
  | grammar .. => none
  | conflict .. => none
  | lexical location _ => some location
  | unexpected location .. => some location

end Error

/-- Why a step ended without a result. -/
inductive Failure where
  | error (e : Error)
  | fault (f : Fault)
deriving DecidableEq, Repr

/-- An error in a grammar, as a failed step. -/
def Failure.grammar (line : Nat) (issue : Issue) : Failure := .error (.grammar line issue)

end LanguageWorkbench
