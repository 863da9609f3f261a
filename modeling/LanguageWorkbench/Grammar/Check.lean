import LanguageWorkbench.Error
import LanguageWorkbench.Grammar.Basic

/-!
# Checking the rules of a grammar

Once names are resolved, canonical names must differ, aliases may not run in a
circle, no alternative may be optional, and only sequences collapse.
`Grammar.check` reports the first violation, property by property and within each
property in the order of the arena.
-/

namespace LanguageWorkbench.Grammar

/-- Refuses a canonical name that an earlier rule has. `earlier` holds the rules
    before, last first. -/
def checkTags (earlier : List Rule) : List Rule → Except Error Unit
  | [] => .ok ()
  | rule :: rest =>
    match earlier.find? fun other => other.tag.dash = rule.tag.dash with
    | some other => .error (.grammar rule.line (.tagClash other.name rule.name rule.tag.dash))
    | none => checkTags (rule :: earlier) rest

/-- Refuses an alias whose chain of aliases has no end. -/
def checkAlias (g : Grammar) (rule : Rule) : Except Error Unit :=
  match rule.shape with
  | .aliasOf child =>
    if (g.aliasTarget? (g.resolveAlias child)).isSome then
      .error (.grammar rule.line (.aliasCycle rule.name))
    else .ok ()
  | _ => .ok ()

/-- Whether a rule is optional as it stands. -/
def isOptional (g : Grammar) (id : RuleId) : Bool :=
  match g.shape? id with
  | some (.option _) | some (.dependent _) | some (.separator _) => true
  | _ => false

/-- Refuses an alternative with an optional branch. -/
def checkBranches (g : Grammar) (rule : Rule) : Except Error Unit :=
  match rule.shape with
  | .alternative bits =>
    match bits.find? fun bit => g.isOptional (g.resolveAlias bit) with
    | some bit => .error (.grammar rule.line (.optionalAlternative (g.nameOf bit) rule.name))
    | none => .ok ()
  | _ => .ok ()

/-- Refuses to collapse anything but a sequence. -/
def checkCollapse (g : Grammar) (target : RuleId) : Except Error Unit :=
  match g.shape? target with
  | some (.sequence ..) => .ok ()
  | _ => .error (.grammar (g.lineOf target) (.collapseNotSequence (g.nameOf target)))

/-- Checks the rules of a grammar. -/
def check (g : Grammar) : Except Error Unit := do
  checkTags [] g.rules.toList
  for (rule, _) in g.declaredRules do g.checkAlias rule
  for rule in g.rules.toList do g.checkBranches rule
  for target in g.collapse do g.checkCollapse target

end LanguageWorkbench.Grammar
