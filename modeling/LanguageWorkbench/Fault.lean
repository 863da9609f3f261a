import LanguageWorkbench.Text.Quoted

/-!
# Faults

A fault is a broken contract: a hand-built part that is not well formed, or a
constructor called with values it does not take. It is not a finding about an
input, which is an `Error`. `Fault.message` is its text.
-/

namespace LanguageWorkbench

/-- A broken contract between the parts of a compiled language or its callers. -/
inductive Fault where
  /-- A position outside a sequence of `length` elements. -/
  | outOfRange (length index : Nat)
  /-- A name without letters or digits cannot name anything in generated code. -/
  | emptyName
  /-- A name of digits alone cannot name anything in generated code. -/
  | numericName
  /-- A name that starts with a digit cannot name anything in generated code. -/
  | invalidName (name : String)
  | terminalsWithoutEnd
  | nonterminalsWithoutAccept
  | symbolListedTwice (name : String)
  | unknownSymbol (name : String)
  | derivationCount
  | terminalAsLeftSide (name : String)
  | malformedStart
  | acceptTwice
  | misplacedEnd
  | noInitialState
  /-- An anonymous sequence stands where only named rules may. -/
  | anonymousElement (name : String)
  /-- A name or a rule has no entry where it must have one. -/
  | missingEntry
  /-- Following links from rule to rule never ends. -/
  | endlessLinks (name : String)
  /-- A reduction needs more values than are stacked. -/
  | valuesMissing (wanted stacked : Nat)
  | noGoto (state : Nat) (name : String)
  | errorAfterCheck (state : Nat)
  | emptyStack
  /-- The reductions of a hand-built table never end. -/
  | endlessReductions
  | terminalWithoutKind (terminal : Nat)
  | derivationWithoutKind (name : String)
  | slotOutOfRange (name : String) (slot arguments : Nat)
  | unknownKind (name : String)
  | notATerminal (name : String)
  | wrongText (name text : String)
  | isATerminal (name : String)
  | tooFewChildren (name : String) (count : Nat)
  | noConstructor (name : String)
  | wrongChildCount (name : String) (expected : Nat)
  | wrongChild (index : Nat) (name expected got : String)
  | termNotLowered (name : String)
  /-- A sum that a machine word does not hold. -/
  | sumTooLarge
deriving DecidableEq, Repr

namespace Fault

/-- The text of a fault. A missing value is counted the way a machine word of 64
    bits counts below zero. -/
def message : Fault → String
  | outOfRange length index =>
    "index out of bounds: the len is " ++ toString length ++ " but the index is " ++ toString index
  | emptyName => "Ident is not allowed to be empty; use Option<Ident>"
  | numericName => "Ident cannot be a number; use Literal instead"
  | invalidName name => Text.quoted name ++ " is not a valid Ident"
  | terminalsWithoutEnd => "terminals must start with $end"
  | nonterminalsWithoutAccept => "nonterminals must start with $accept"
  | symbolListedTwice name => "symbol '" ++ name ++ "' listed twice"
  | unknownSymbol name => "unknown symbol '" ++ name ++ "'"
  | derivationCount => "one derivation per production"
  | terminalAsLeftSide name => "terminal '" ++ name ++ "' used as lhs"
  | malformedStart => "production 0 must be $accept -> start $end"
  | acceptTwice => "$accept has a second production"
  | misplacedEnd => "$end and $accept may only appear in production 0"
  | noInitialState => "a parse table needs an initial state"
  | anonymousElement name => "anonymous sequence '" ++ name ++ "' used as an element"
  | missingEntry => "no entry found for key"
  | endlessLinks name => "the links from '" ++ name ++ "' never end"
  | valuesMissing wanted stacked =>
    "`at` split index (is " ++ toString (18446744073709551616 + stacked - wanted) ++ ") should be <= len (is " ++
      toString stacked ++ ")"
  | noGoto state name => "state " ++ toString state ++ ": no goto on " ++ name
  | errorAfterCheck state => "state " ++ toString state ++ ": error after a successful check"
  | emptyStack => "empty state stack"
  | endlessReductions => "the reductions never end"
  | terminalWithoutKind terminal => "terminal " ++ toString terminal ++ " has no node kind"
  | derivationWithoutKind name => "derivation '" ++ name ++ "' names no node kind"
  | slotOutOfRange name slot arguments =>
    "derivation '" ++ name ++ "' omits slot " ++ toString slot ++ " of " ++ toString arguments ++
      " arguments"
  | unknownKind name => "no node kind '" ++ name ++ "'"
  | notATerminal name => "'" ++ name ++ "' is not a terminal"
  | wrongText name text => "'" ++ name ++ "' cannot have the text " ++ Text.quoted text
  | isATerminal name => "'" ++ name ++ "' is a terminal"
  | tooFewChildren name count =>
    "'" ++ name ++ "' needs at least two children, got " ++ toString count
  | noConstructor name => "'" ++ name ++ "' has no constructor"
  | wrongChildCount name expected => "'" ++ name ++ "' takes " ++ toString expected ++ " children"
  | wrongChild index name expected got =>
    "child " ++ toString index ++ " of '" ++ name ++ "' must be '" ++ expected ++ "', got '" ++
      got ++ "'"
  | termNotLowered name => "term '" ++ name ++ "' was not lowered"
  | sumTooLarge => "attempt to add with overflow"

end Fault

end LanguageWorkbench
