import LanguageWorkbench.Text.Quoted

/-!
# Code

Generated code is a sequence of tokens and groups. `Code.render` prints it with one
space between any two tokens, and every punctuation sign is a token of its own.
-/

namespace LanguageWorkbench

/-- The brackets of a group of tokens. -/
inductive Bracket where
  | round
  | square
  | curly
deriving DecidableEq, Repr

namespace Bracket

/-- The sign that opens a group. -/
def opening : Bracket → String
  | round => "("
  | square => "["
  | curly => "\x7b"

/-- The sign that closes a group. -/
def closing : Bracket → String
  | round => ")"
  | square => "]"
  | curly => "\x7d"

end Bracket

/-- A piece of code. -/
inductive Code where
  | token (text : String)
  | group (bracket : Bracket) (inside : List Code)
deriving Repr

namespace Code

mutual

/-- The tokens of a piece of code. -/
def tokens : Code → List String
  | token text => [text]
  | group bracket inside => bracket.opening :: (tokensOf inside ++ [bracket.closing])

/-- The tokens of a list of pieces. -/
def tokensOf : List Code → List String
  | [] => []
  | c :: rest => tokens c ++ tokensOf rest

end

/-- Pieces of code as text. -/
def render (code : List Code) : String := " ".intercalate (tokensOf code)

/-! ## Writing code -/

/-- The tokens of a text that has a space between any two of them. -/
def ofText (text : String) : List Code :=
  ((text.toList.splitBy fun a b => (a = ' ') = (b = ' ')).filter (·.head? ≠ some ' ')).map
    fun word => token (String.ofList word)

/-- A text constant. -/
def constant (s : String) : Code := token (Text.literal s)

/-- Code in round brackets. -/
def round (inside : List Code) : Code := group .round inside

/-- Code in square brackets. -/
def square (inside : List Code) : Code := group .square inside

/-- Code in curly brackets. -/
def curly (inside : List Code) : Code := group .curly inside

end Code

end LanguageWorkbench
