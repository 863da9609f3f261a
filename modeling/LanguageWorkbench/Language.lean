import LanguageWorkbench.Language.Basic
import LanguageWorkbench.Pattern.Engine

/-!
# Languages with the patterns of this library

Lexicons and languages whose patterns are compiled and run by `Pattern.engine`.
-/

namespace LanguageWorkbench

/-- The lexicon of the given patterns, in order. -/
def Lexicon.ofPatterns (patterns : List (Option Symbol × String)) : Except Failure Lexicon :=
  ofPatternsWith Pattern.engine patterns

/-- The lexicon of a grammar. -/
def Lexicon.ofGrammar (g : Grammar) (lowered : Lowered) : Noted Lexicon :=
  ofGrammarWith Pattern.engine g lowered

/-- Compiles a grammar text. -/
def Language.compile (text : String) : Noted Language := compileWith Pattern.engine text

end LanguageWorkbench
