import LanguageWorkbench.Grammar.Basic
import LanguageWorkbench.Source.Names

/-!
# Resolving names

A grammar text becomes an arena in two passes. The first gives a number to every
term and rule, so that bodies can refer forward; the rules are placeholders. The
second resolves the bodies in order and replaces the placeholders. On the way it
appends a rule for each suffix it meets and for each line of several elements in
an alternative.

An element with a suffix has one rule for each pair of base rule and suffix. Its
canonical name is made from the canonical name that the base has when the element
is met first.
-/

namespace LanguageWorkbench

open Source

/-- An arena while it grows. -/
structure Arena where
  rules : Array Rule
  /-- The number behind each name; of two entries for a name the first counts. -/
  names : List (String × RuleId)
  /-- The rule made for a base and a suffix. -/
  suffixed : List ((RuleId × Suffix) × RuleId)
deriving Repr

namespace Arena

/-- No rules. -/
def empty : Arena := ⟨#[], [], []⟩

/-- Appends a rule, whose name now leads to it. -/
def push (a : Arena) (rule : Rule) : RuleId × Arena :=
  (a.rules.size, { a with rules := a.rules.push rule, names := (rule.name, a.rules.size) :: a.names })

/-- The canonical name of a rule. -/
def dashOf (a : Arena) (id : RuleId) : String := ((a.rules[id]?).map (·.tag.dash)).getD ""

/-! ## Elements -/

/-- The family of canonical names for a suffix. -/
def family : Suffix → String
  | .optional | .star => "opt"
  | .plus => "list"
  | .separator => "sep"
  | .delimiter => "delim"
  | .dependent => "dep"

/-- The shape of the rule that a suffix makes over a child. -/
def suffixShape (child : RuleId) : Suffix → Shape
  | .optional | .star => .option child
  | .plus => .plus child
  | .separator => .separator child
  | .delimiter => .delimiter child
  | .dependent => .dependent child

/-- The rule for the pair of `base` and `suffix`, appended if there is none. It
    stands over `child`, and its name leads to it unless the name is taken. -/
def suffixRule (a : Arena) (base child : RuleId) (suffix : Suffix) (visual : String) (line : Nat) :
    RuleId × Arena :=
  match a.suffixed.lookup (base, suffix) with
  | some id => (id, a)
  | none =>
    let id := a.rules.size
    let tag := Identifier.inFamily (family suffix) (a.dashOf child) visual
    let names := if (a.names.lookup visual).isSome then a.names else (visual, id) :: a.names
    (id, {
      rules := a.rules.push ⟨tag, line, suffixShape child suffix⟩
      names
      suffixed := ((base, suffix), id) :: a.suffixed })

/-- The rule an element stands for. A star is an option over the list of its base. -/
def element (a : Arena) (line : Nat) (e : Element) : Except Fault (RuleId × Arena) :=
  match a.names.lookup e.name with
  | none => .error .missingEntry
  | some base =>
    match e.suffix with
    | none => .ok (base, a)
    | some .star =>
      match a.suffixed.lookup (base, .star) with
      | some id => .ok (id, a)
      | none =>
        let (list, a) := a.suffixRule base base .plus { e with suffix := some .plus }.visual line
        .ok (a.suffixRule base list .star e.visual line)
    | some suffix => .ok (a.suffixRule base base suffix e.visual line)

/-- The rules that elements stand for, in order. -/
def elements (a : Arena) (line : Nat) : List Element → Except Fault (List RuleId × Arena)
  | [] => .ok ([], a)
  | e :: rest => do
    let (id, a) ← a.element line e
    let (ids, a) ← a.elements line rest
    return (id :: ids, a)

/-! ## Bodies -/

/-- The rule that one line of an alternative stands for: that of its only element,
    or a new anonymous sequence. -/
def alternativeLine (a : Arena) (rule : String) (index : Nat) (line : BodyLine) :
    Except Fault (RuleId × Arena) :=
  match line.elements with
  | [e] => a.element line.line e
  | es => do
    let name := line.sequenceName rule index
    let (bits, a) ← a.elements line.line es
    return a.push ⟨.inFamily "tree" name name, line.line, .sequence bits true⟩

/-- The rules that the lines of an alternative stand for, from the one at `index`. -/
def alternativeLines (a : Arena) (rule : String) :
    Nat → List BodyLine → Except Fault (List RuleId × Arena)
  | _, [] => .ok ([], a)
  | index, line :: rest => do
    let (bit, a) ← a.alternativeLine rule index line
    let (bits, a) ← a.alternativeLines rule (index + 1) rest
    return (bit :: bits, a)

/-- The shape of a rule and the family of its canonical name. One line of one
    element makes an alias, one line of several a sequence, and several lines an
    alternative. -/
def body (a : Arena) (decl : RuleDecl) : Except Fault (String × Shape × Arena) :=
  match decl.body with
  | [line] =>
    match line.elements with
    | [e] => do
      let (child, a) ← a.element line.line e
      return ("alias", .aliasOf child, a)
    | es => do
      let (bits, a) ← a.elements line.line es
      return ("tree", .sequence bits false, a)
  | lines => do
    let (bits, a) ← a.alternativeLines decl.name 0 lines
    return ("any", .alternative bits, a)

/-- Resolves the bodies of rules; the first of them has the number `id`. -/
def bodies (a : Arena) : RuleId → List RuleDecl → Except Fault Arena
  | _, [] => .ok a
  | id, decl :: rest => do
    let (family, shape, a) ← a.body decl
    let rule := ⟨.inFamily family decl.name decl.name, decl.line, shape⟩
    { a with rules := a.rules.setIfInBounds id rule }.bodies (id + 1) rest

/-! ## Whole grammars -/

/-- The rule of a term. -/
def termRule (t : TermDecl) : Rule :=
  ⟨.inFamily "tok" t.tag t.name, t.line, .term t.kind t.pattern⟩

/-- A rule whose body is not resolved yet. Until then it is an alias of itself. -/
def placeholder (decl : RuleDecl) (id : RuleId) : Rule :=
  ⟨.inFamily "tree" decl.name decl.name, decl.line, .aliasOf id⟩

/-- The arena after the first pass. -/
def declare (s : Source) : Arena :=
  let terms := s.terms.foldl (fun a t => (a.push (termRule t)).2) empty
  s.rules.foldl (fun a r => (a.push (placeholder r a.rules.size)).2) terms

/-- The number behind a name. -/
def find (a : Arena) (name : String) : Except Fault RuleId :=
  match a.names.lookup name with
  | some id => .ok id
  | none => .error .missingEntry

end Arena

/-- Resolves the names of a grammar text, which must have passed
    `Source.checkNames`. -/
def Grammar.ofSource (s : Source) : Except Fault Grammar := do
  let declared := Arena.declare s
  let a ← declared.bodies s.terms.length s.rules
  let start ← a.find s.start.name
  let collapse ← s.collapse.mapM fun m => a.find m.name
  let spacing ← s.spacing.mapM fun d => return ⟨d.kind, d.text, ← d.parents.mapM a.find⟩
  return {
    language := .ofName s.language.name s.language.name
    whitespace := s.whitespace
    start, spacing
    collapse := collapse.eraseDups
    rules := a.rules
    names := a.names
    declared := declared.rules.size }

end LanguageWorkbench
