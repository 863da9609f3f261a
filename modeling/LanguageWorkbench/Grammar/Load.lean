import LanguageWorkbench.Grammar.Check
import LanguageWorkbench.Grammar.Resolve
import LanguageWorkbench.Source.Reader

/-!
# Loading grammars

From the text of a grammar to a checked arena.
-/

namespace LanguageWorkbench.Grammar

/-- Reads a grammar text, checks its names and resolves them. -/
def read (text : String) : Except Failure Grammar := do
  let source ← (Source.parse text).mapError .error
  (Source.checkNames source).mapError .error
  (Grammar.ofSource source).mapError .fault

/-- Loads a grammar: reads its text and checks its rules. -/
def load (text : String) : Except Failure Grammar := do
  let g ← read text
  g.check.mapError .error
  return g

end LanguageWorkbench.Grammar
