import LanguageWorkbench.Grammar.Analysis
import LanguageWorkbench.Grammar.Load
import LanguageWorkbench.Lowered.OfGrammar
import LanguageWorkbench.Parser
import LanguageWorkbench.Policy
import LanguageWorkbench.Table.Build

/-!
# Languages

A language is everything compiled from one grammar text: the checked grammar and the
findings about it, the lowered grammar with its table, the node kinds, the policy
for printing, and a parser to copy.

`Language.compileWith` builds it with any engine for regular expressions, and leaves notes on the
way.
-/

namespace LanguageWorkbench

/-- Everything compiled from one grammar. -/
structure Language where
  grammar : Grammar
  analysis : Analysis
  lowered : Lowered
  table : Table
  schema : Schema
  policy : Policy
  parser : Parser

namespace Language

/-- Leaves a note for each warning of an analysis. -/
def tellWarnings (language : String) : List String → Noted Unit
  | [] => return ()
  | w :: rest => do
    .tell .warn (language ++ ": " ++ w)
    tellWarnings language rest

/-- Compiles a grammar text. The store of the parser is of realm 0. -/
def compileWith (engine : RegexEngine) (text : String) : Noted Language := do
  let grammar ← .ofResult (Grammar.load text)
  let name := grammar.language.dash
  let analysis := Analysis.ofGrammar grammar
  tellWarnings name analysis.warnings
  .tell .info (name ++ ": lowering " ++ toString grammar.size ++ " rules")
  let lowered ← Lowered.ofGrammar grammar
  .tell .info
    (name ++ ": creating automaton for " ++ toString lowered.productions.size ++ " productions")
  let table ← Table.build lowered
  let schema := Schema.ofGrammar grammar
  .tell .info (name ++ ": creating tokenizer")
  let lexicon ← Lexicon.ofGrammarWith engine grammar lowered
  let machine := ⟨lowered, table, .ofLowered lowered schema⟩
  return {
    grammar, analysis, lowered, table, schema
    policy := .ofGrammar grammar schema
    parser := .new machine lexicon 0 }

/-- The name of a language as its author wrote it. -/
def name (l : Language) : String := l.grammar.language.visual

/-- A parser before any input, whose store is of the given realm. -/
def newParser (l : Language) (realm : Nat) : Parser := l.parser.reset realm

/-- Parses a whole text. -/
def parse (l : Language) (file text : String) (realm : Nat) : Parser.Stepped Node :=
  l.parser.parse file text realm

/-- The notes of a parse. -/
def parseNotes (l : Language) (s : Parser.Stepped Node) : List Note :=
  s.moves.map (Move.note l.lowered)

/-- Prints a tree by the policy of the language. -/
def emit (l : Language) (n : Node) : String := l.policy.emit n

end Language

end LanguageWorkbench
