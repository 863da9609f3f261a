import LanguageWorkbench.Source.Element

/-!
# Grammar texts

The syntactic form of a grammar: what its lines say, with the line numbers, before
any name is looked up.
-/

namespace LanguageWorkbench

/-- How a term is written in the input. -/
inductive TermKind where
  | keyword
  | atom
  | symbol
deriving DecidableEq, Repr

/-- What a spacing directive asks for. -/
inductive SpacingKind where
  /-- No space before the text. -/
  | glueBefore
  /-- No space after the text. -/
  | glueAfter
  /-- No line break around the text. -/
  | flat
deriving DecidableEq, Repr

namespace Source

/-- A name and the line that mentions it. -/
structure Mention where
  line : Nat
  name : String
deriving DecidableEq, Repr

/-- The declaration of a term. -/
structure TermDecl where
  line : Nat
  kind : TermKind
  /-- The name rule bodies use: the word, the atom name or the literal text. -/
  name : String
  /-- The name from which the canonical name is made. -/
  tag : String
  /-- Only an atom has a pattern; keywords and symbols match their name. -/
  pattern : Option String
deriving DecidableEq, Repr

/-- A spacing directive. Without parents it applies everywhere. -/
structure SpacingDecl where
  line : Nat
  kind : SpacingKind
  text : String
  parents : List String
deriving DecidableEq, Repr

/-- One line of a rule body. -/
structure BodyLine where
  line : Nat
  elements : List Element
  tag : Option String
deriving DecidableEq, Repr

/-- A rule with its body lines. Several lines are alternatives. -/
structure RuleDecl where
  line : Nat
  name : String
  body : List BodyLine
deriving DecidableEq, Repr

/-- The name of the sequence that the alternative line at `index` stands for: its
    tag, or the rule name with the number of the line. -/
def BodyLine.sequenceName (rule : String) (index : Nat) (line : BodyLine) : String :=
  line.tag.getD (rule ++ "-" ++ toString (index + 1))

end Source

/-- A grammar as its text declares it. -/
structure Source where
  language : Source.Mention
  /-- The pattern of what is skipped between tokens, with its line. -/
  whitespace : Option (Nat × String)
  terms : List Source.TermDecl
  start : Source.Mention
  collapse : List Source.Mention
  spacing : List Source.SpacingDecl
  rules : List Source.RuleDecl
deriving DecidableEq, Repr

end LanguageWorkbench
