import LanguageWorkbench.Identifier
import LanguageWorkbench.NatSet
import LanguageWorkbench.Source.Basic

/-!
# Grammars

A grammar is an arena of rules that refer to each other by number, so recursive
rules need no recursive data. A rule has a name, the line that introduced it, and
a shape.

* `Grammar.children`: the rules a rule refers to.
* `Grammar.resolveAlias`: the rule behind a chain of aliases.
-/

namespace LanguageWorkbench

/-- The number of a rule in its arena. -/
abbrev RuleId := Nat

/-- How a rule is made of other rules. -/
inductive Shape where
  /-- A leaf. Only an atom has a pattern; the others match their visible name. -/
  | term (kind : TermKind) (pattern : Option String)
  /-- A node with at least two children. An anonymous sequence is one line of an
      alternative and has no name of its own in other rules. -/
  | sequence (bits : List RuleId) (anonymous : Bool)
  | alternative (bits : List RuleId)
  | option (child : RuleId)
  /-- A second name for the child. -/
  | aliasOf (child : RuleId)
  /-- There exactly when the optional element before it is there. -/
  | dependent (child : RuleId)
  /-- One or more of the child, as a list that grows to the right. -/
  | plus (child : RuleId)
  | separator (child : RuleId)
  | delimiter (child : RuleId)
deriving DecidableEq, Repr

namespace Shape

/-- The rules a shape refers to, in declared order. -/
def children : Shape → List RuleId
  | term .. => []
  | sequence bits _ | alternative bits => bits
  | option child | aliasOf child | dependent child | plus child | separator child
  | delimiter child => [child]

/-- Whether values of the shape are nodes of their own kind. -/
def isConcrete : Shape → Bool
  | term .. | sequence .. | plus _ => true
  | _ => false

/-- Whether the shape is a leaf. -/
def isTerm : Shape → Bool
  | term .. => true
  | _ => false

end Shape

/-- A rule of a grammar. -/
structure Rule where
  tag : Identifier
  /-- The line that declares the rule or uses it first. -/
  line : Nat
  shape : Shape
deriving DecidableEq, Repr

/-- The name by which rule bodies refer to a rule. -/
def Rule.name (r : Rule) : String := r.tag.visual

/-- A spacing directive whose parents are rules. -/
structure Spacing where
  kind : SpacingKind
  text : String
  parents : List RuleId
deriving DecidableEq, Repr

/-- A grammar with resolved names. -/
structure Grammar where
  language : Identifier
  /-- The pattern of what is skipped between tokens, with its line. -/
  whitespace : Option (Nat × String)
  start : RuleId
  /-- The sequences that give way to their only live child, each once. -/
  collapse : List RuleId
  spacing : List Spacing
  rules : Array Rule
  /-- The number behind each name; of two entries for a name the first counts. -/
  names : List (String × RuleId)
  /-- How many rules are written in the text: all terms and then all rules. -/
  declared : Nat
deriving Repr

namespace Grammar

/-- The number of rules. -/
def size (g : Grammar) : Nat := g.rules.size

/-- The rule with a number. -/
def rule? (g : Grammar) (id : RuleId) : Option Rule := g.rules[id]?

/-- The shape of a rule. -/
def shape? (g : Grammar) (id : RuleId) : Option Shape := (g.rule? id).map (·.shape)

/-- The name of a rule, empty if there is no such rule. -/
def nameOf (g : Grammar) (id : RuleId) : String := ((g.rule? id).map Rule.name).getD ""

/-- The line of a rule, 0 if there is no such rule. -/
def lineOf (g : Grammar) (id : RuleId) : Nat := ((g.rule? id).map (·.line)).getD 0

/-- The number of the rule with a name. -/
def lookup (g : Grammar) (name : String) : Option RuleId := g.names.lookup name

/-- All rules with their numbers, in order. -/
def numbered (g : Grammar) : List (Rule × RuleId) := g.rules.toList.zipIdx

/-- The terms and rules written in the text, without those that suffixes and
    alternative lines bring. -/
def declaredRules (g : Grammar) : List (Rule × RuleId) := g.numbered.take g.declared

/-- The terms, in order. -/
def terms (g : Grammar) : List (Rule × RuleId) := g.numbered.filter (·.1.shape.isTerm)

/-- The rules a rule refers to, in declared order. -/
def children (g : Grammar) (id : RuleId) : List RuleId :=
  ((g.shape? id).map Shape.children).getD []

/-- The child of an alias. -/
def aliasTarget? (g : Grammar) (id : RuleId) : Option RuleId :=
  match g.shape? id with
  | some (.aliasOf child) => some child
  | _ => none

/-- Follows aliases from `id`, having come through `seen`. -/
def followAlias (g : Grammar) : Nat → List RuleId → RuleId → RuleId
  | 0, _, id => id
  | fuel + 1, seen, id =>
    match g.aliasTarget? id with
    | none => id
    | some child => if id ∈ seen then id else g.followAlias fuel (id :: seen) child

/-- The rule behind a chain of aliases. A chain that runs in a circle ends at the
    first rule that it meets twice. -/
def resolveAlias (g : Grammar) (id : RuleId) : RuleId := g.followAlias (g.size + 1) [] id

end Grammar

end LanguageWorkbench
