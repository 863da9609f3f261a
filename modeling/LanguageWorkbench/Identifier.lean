import LanguageWorkbench.Fault
import LanguageWorkbench.Text.Blank

/-!
# Identifiers

A rule has a canonical name, made of lower-case words joined by dashes, beside
the name its author wrote. All other spellings are functions of the canonical
name.

* `canonical` is the canonical form of any name.
* `Identifier.word` and `Identifier.typeName` are the spellings used in generated
  code; both may be refused.
-/

namespace LanguageWorkbench

/-- Whether a character stays in a canonical name. -/
def isNameChar (c : Char) : Bool := c.isAlphanum

/-- The canonical form of `cs` after what `done` holds in reverse: letters and
    digits in lower case, and a dash for every run of other characters that
    follows one of them. -/
def canonicalChars : List Char → List Char → List Char
  | done, [] => done.reverse
  | done, c :: cs =>
    if isNameChar c then canonicalChars (c.toLower :: done) cs
    else if done.isEmpty || done.head? = some '-' then canonicalChars done cs
    else canonicalChars ('-' :: done) cs

/-- The canonical form of a name: lower-case words joined by single dashes. -/
def canonical (name : String) : String :=
  let cs := canonicalChars [] name.toList
  String.ofList (cs.reverse.dropWhile (· == '-')).reverse

/-- A rule name: the canonical form and the form its author wrote. -/
structure Identifier where
  dash : String
  visual : String
deriving DecidableEq, Repr

namespace Identifier

/-- The identifier of `name`, shown as `visual`. -/
def ofName (name visual : String) : Identifier := ⟨canonical name, visual⟩

/-- The identifier of `name` in the family that `family` names. -/
def inFamily (family name visual : String) : Identifier := ofName (family ++ "-" ++ name) visual

/-- The canonical name with `separator` for each dash. -/
def joined (separator : Char) (i : Identifier) : String :=
  String.ofList (i.dash.toList.map fun c => if c = '-' then separator else c)

/-- The words of the canonical name, separated by spaces. -/
def space (i : Identifier) : String := i.joined ' '

/-- The words of the canonical name, separated by underscores. -/
def lower (i : Identifier) : String := i.joined '_'

/-- The words in upper case, separated by underscores. -/
def upper (i : Identifier) : String := String.ofList (i.lower.toList.map Char.toUpper)

/-- A word with its first letter in upper case. An underscore follows a digit at
    the end, which keeps the next word apart. -/
def camelWord : List Char → List Char
  | [] => []
  | c :: cs =>
    let word := c.toUpper :: cs
    if (c :: cs).getLast?.any Char.isDigit then word ++ ['_'] else word

/-- The words of the canonical name, each with its first letter in upper case, with
    nothing between them. -/
def camel (i : Identifier) : String :=
  String.ofList ((Text.words i.space.toList).flatMap camelWord)

/-- A name as generated code may use it: not empty and not a number. -/
def checkName (name : String) : Except Fault String :=
  match name.toList with
  | [] => .error .emptyName
  | c :: cs =>
    if (c :: cs).all Char.isDigit then .error .numericName
    else if c.isDigit then .error (.invalidName name)
    else .ok name

/-- The name of functions and modules in generated code. -/
def word (i : Identifier) : Except Fault String := checkName i.lower

/-- The name of types in generated code. -/
def typeName (i : Identifier) : Except Fault String := checkName i.camel

end Identifier

end LanguageWorkbench
