import LanguageWorkbench.Grammar.Basic

/-!
# Findings about a grammar

Two findings do not stop a grammar from being compiled: rules that match the
empty text, and rules that the start rule never reaches.

* `Grammar.isNullable`: whether a rule matches the empty text.
* `Grammar.used`: the rules reached from the start rule through any links.
-/

namespace LanguageWorkbench

namespace Grammar

/-- Whether a bit of a sequence may be left out by its own shape. -/
def isSkippable (g : Grammar) (id : RuleId) : Bool :=
  match g.shape? id with
  | some (.option _) | some (.dependent _) | some (.separator _) => true
  | _ => false

/-- Whether a rule matches the empty text if the rules that `known` tells do. -/
def isNullableBy (g : Grammar) (known : RuleId → Bool) (id : RuleId) : Bool :=
  match g.shape? id with
  | some (.option _) | some (.dependent _) | some (.separator _) => true
  | some (.sequence bits _) => bits.all fun bit => g.isSkippable bit || known bit
  | some (.alternative bits) => bits.any known
  | some (.aliasOf child) | some (.plus child) | some (.delimiter child) => known child
  | some (.term ..) | none => false

/-- Whether a rule matches the empty text, asked for by way of the rules of `path`. A rule
    that is met again does not. -/
def isNullableVia (g : Grammar) : Nat → List RuleId → RuleId → Bool
  | 0, _, _ => false
  | fuel + 1, path, id =>
    !path.contains id && g.isNullableBy (g.isNullableVia fuel (id :: path)) id

/-- Whether a rule matches the empty text. No path has more rules than there are. -/
def isNullable (g : Grammar) (id : RuleId) : Bool := g.isNullableVia (g.size + 1) [] id

/-- The rules reached from the start rule. -/
def used (g : Grammar) : List RuleId := reachable g.children g.size g.start

end Grammar

/-- Findings about a grammar: names of declared rules, ascending. -/
structure Analysis where
  nullable : List String
  unused : List String
deriving DecidableEq, Repr

namespace Analysis

/-- Names in ascending order, each once. -/
def sortNames (names : List String) : List String :=
  (names.mergeSort fun a b => !(b < a)).eraseDups

/-- Analyses a grammar. -/
def ofGrammar (g : Grammar) : Analysis :=
  let used := g.used
  let pick (keep : RuleId → Bool) :=
    sortNames ((g.declaredRules.filter fun (_, id) => keep id).map fun (rule, _) => rule.name)
  ⟨pick g.isNullable, pick (!used.contains ·)⟩

/-- The findings as messages. -/
def warnings (a : Analysis) : List String :=
  (if a.nullable.isEmpty then [] else ["nullable rules: " ++ ", ".intercalate a.nullable]) ++
    if a.unused.isEmpty then [] else ["unused rules: " ++ ", ".intercalate a.unused]

end Analysis

end LanguageWorkbench
