import LanguageWorkbench.Source.Basic

/-!
# Checking the names of a grammar text

Before names are resolved: every name is declared once, none is reserved, every
element names something declared, and tags, suffixes and dependent elements stand
where they may. `Source.checkNames` reports the first violation in the order of
the text: the terms, the rule names, the rule bodies, then the directives.
-/

namespace LanguageWorkbench.Source

/-- The declared names so far, each with its line, last first. -/
abbrev Declared := List (String × Nat)

/-- Refuses names that start with a dollar sign, which belong to the symbols a
    lowered grammar adds. -/
def checkReserved (line : Nat) (name : String) : Except Error Unit :=
  if name.toList.head? = some '$' then .error (.grammar line (.reservedName name)) else .ok ()

/-- Declares a name that may not be declared yet. -/
def declare (declared : Declared) (line : Nat) (name : String) : Except Error Declared := do
  checkReserved line name
  match declared.lookup name with
  | some first => throw (.grammar line (.definedTwice name first))
  | none => return (name, line) :: declared

/-- Declares names in order. -/
def declareAll (declared : Declared) : List Mention → Except Error Declared
  | [] => .ok declared
  | m :: rest => do declareAll (← declare declared m.line m.name) rest

/-- The names of terms and rules, in the order of the text. -/
def declarations (s : Source) : List Mention :=
  s.terms.map (fun t => ⟨t.line, t.name⟩) ++ s.rules.map (fun r => ⟨r.line, r.name⟩)

/-! ## Body lines -/

/-- The texts under which an element with a suffix becomes a rule. For a star they
    include the list it is an option of. -/
def writtenForms (e : Element) : List String :=
  match e.suffix with
  | none => []
  | some .star => [e.visual, { e with suffix := some .plus }.visual]
  | some _ => [e.visual]

/-- Checks one element after the element `before`. -/
def checkElement (declared : Declared) (line : Nat) (before : Option Element) (e : Element) :
    Except Error Unit := do
  if (declared.lookup e.name).isNone then throw (.grammar line (.undefinedRule e.name))
  if let some clash := (writtenForms e).find? fun w => (declared.lookup w).isSome then
    throw (.grammar line (.suffixClash clash e.name))
  if e.suffix = some .dependent then
    unless (before.bind (·.suffix)).any Suffix.mayBeAbsent do
      throw (.grammar line (.looseDependent e.visual))

/-- Checks the elements of a line, the first of which follows `before`. -/
def checkElements (declared : Declared) (line : Nat) :
    Option Element → List Element → Except Error Unit
  | _, [] => .ok ()
  | before, e :: rest => do
    checkElement declared line before e
    checkElements declared line (some e) rest

/-- Checks the tag of a line of `rule`. `single` says that the rule has no other
    line. -/
def checkTag (rule : String) (single : Bool) (line : BodyLine) : Except Error Unit :=
  match line.tag with
  | none => .ok ()
  | some tag => do
    checkReserved line.line tag
    if single then throw (.grammar line.line (.tagWithoutAlternatives tag rule))
    if line.elements.length = 1 then throw (.grammar line.line (.tagOnSingleElement tag))

/-- Refuses a suffix that makes an alternative of one element optional. -/
def checkAlternative (rule : String) (line : BodyLine) : Except Error Unit :=
  match line.elements with
  | [⟨name, some suffix, _⟩] =>
    if suffix.mayBeAbsent then
      .error (.grammar line.line (.optionalLine name rule suffix.toChar))
    else .ok ()
  | _ => .ok ()

/-- Checks the line at `index` of `rule`. `nodes` are the names of all node types
    so far; a line of several elements, one of several lines, adds one. -/
def checkLine (declared : Declared) (rule : String) (single : Bool) (nodes : List String)
    (index : Nat) (line : BodyLine) : Except Error (List String) := do
  checkTag rule single line
  let nodes ←
    if !single && 1 < line.elements.length then
      let name := line.sequenceName rule index
      if (declared.lookup name).isSome || nodes.contains name then
        throw (.grammar line.line (.lineDefinedTwice name))
      else pure (name :: nodes)
    else pure nodes
  if !single then checkAlternative rule line
  checkElements declared line.line none line.elements
  return nodes

/-- Checks the lines of `rule` from the one at `index`. -/
def checkLines (declared : Declared) (rule : String) (single : Bool) (nodes : List String) :
    Nat → List BodyLine → Except Error (List String)
  | _, [] => .ok nodes
  | index, line :: rest => do
    let nodes ← checkLine declared rule single nodes index line
    checkLines declared rule single nodes (index + 1) rest

/-- Checks the bodies of rules. -/
def checkBodies (declared : Declared) (nodes : List String) :
    List RuleDecl → Except Error (List String)
  | [] => .ok nodes
  | rule :: rest => do
    let nodes ← checkLines declared rule.name (rule.body.length == 1) nodes 0 rule.body
    checkBodies declared nodes rest

/-! ## Whole texts -/

/-- Checks the names of a grammar text. -/
def checkNames (s : Source) : Except Error Unit := do
  let declared ← declareAll [] (declarations s)
  let nodes ← checkBodies declared (declared.map (·.1)) s.rules
  if (declared.lookup s.start.name).isNone then
    throw (.grammar s.start.line (.undefinedStart s.start.name))
  if let some target := s.collapse.find? fun m => !nodes.contains m.name then
    throw (.grammar target.line (.undefinedCollapse target.name))
  for decl in s.spacing do
    if let some parent := decl.parents.find? fun p => !nodes.contains p then
      throw (.grammar decl.line (.undefinedParent parent))

end LanguageWorkbench.Source
