import LanguageWorkbench.Grammar.Basic
import LanguageWorkbench.Lowered.Basic
import LanguageWorkbench.Node.Store

/-!
# Node kinds

A schema numbers the kinds of nodes and says what they may contain. The schema of a
grammar has a kind for each term, each sequence and each list; the other rules have
none of their own but still say which nodes are their values. The schema of a bare
lowered grammar only knows names.

* `Schema.terminal`, `Schema.create`: the checked ways to make nodes.
* `Schema.is`: whether a node is a value of a rule.
* `Schema.concreteKinds`: the kinds a rule stands for as a parent.
-/

namespace LanguageWorkbench

/-- A kind of nodes. -/
structure KindInfo where
  name : String
  /-- The canonical name. -/
  tag : String
  /-- The rule whose values have this kind. -/
  rule : Option RuleId
  terminal : Bool
deriving DecidableEq, Repr

/-- The kinds of the nodes of a language. -/
structure Schema where
  kinds : Array KindInfo
  grammar : Option Grammar
deriving Repr

namespace Schema

/-- The kinds of a grammar, in the order of its rules. -/
def ofGrammar (g : Grammar) : Schema where
  kinds := ((g.numbered.filter (·.1.shape.isConcrete)).map fun (rule, id) =>
    ⟨rule.name, rule.tag.dash, some id, rule.shape.isTerm⟩).toArray
  grammar := some g

/-- Adds a kind for each name that has none yet. -/
def addNames (kinds : Array KindInfo) : List String → Array KindInfo
  | [] => kinds
  | name :: rest =>
    if kinds.any (·.name = name) then addNames kinds rest
    else addNames (kinds.push ⟨name, name, none, false⟩) rest

/-- The kinds of a lowered grammar: its terminals, its nonterminals, and the names
    of derivations that are no symbols. What belongs to production 0 has none. -/
def ofLowered (g : Lowered) : Schema where
  kinds :=
    let terminals := (g.terminals.toList.drop 1).map fun t => ⟨t, t, none, true⟩
    let nonterminals := (g.nonterminals.toList.drop 1).map fun n => ⟨n, n, none, false⟩
    addNames (terminals ++ nonterminals).toArray ((g.derivations.toList.drop 1).map (·.name))
  grammar := none

/-- The number of kinds. -/
def size (s : Schema) : Nat := s.kinds.size

/-- The kind with a name; of several the last. -/
def kind? (s : Schema) (name : String) : Option Kind :=
  (s.kinds.toList.zipIdx.reverse.find? (·.1.name == name)).map (·.2)

/-- The kind of the values of a rule. -/
def kindOfRule? (s : Schema) (id : RuleId) : Option Kind :=
  s.kinds.toList.findIdx? (·.rule = some id)

/-- What is known about a kind. -/
def info (s : Schema) (kind : Kind) : Except Fault KindInfo :=
  match s.kinds[kind]? with
  | some i => .ok i
  | none => .error (.outOfRange s.size kind)

/-- The name of a kind, empty if there is no such kind. -/
def nameOf (s : Schema) (kind : Kind) : String := ((s.kinds[kind]?).map (·.name)).getD ""

/-- The name of the kind of a node. -/
def nameOfNode (s : Schema) (n : Node) : String :=
  match n.kind? with
  | some kind => s.nameOf kind
  | none => "nothing"

/-! ## Values of rules -/

/-- The rules whose values are also values of a rule of this shape. -/
def offers : Shape → List RuleId
  | .term .. | .sequence .. => []
  | .alternative bits => bits
  | .option child | .aliasOf child | .dependent child | .plus child | .separator child
  | .delimiter child => [child]

/-- Whether a node is a value of a rule by itself, not through other rules: nothing
    where the rule may be absent, or a node of the kind of the rule. -/
def accepts (s : Schema) (g : Grammar) (n : Node) (id : RuleId) : Bool :=
  match g.shape? id with
  | some (.option _) | some (.dependent _) | some (.separator _) => n.isNothing
  | some (.term ..) | some (.sequence ..) | some (.plus _) =>
    n.kind?.isSome && n.kind? = s.kindOfRule? id
  | some (.aliasOf _) | some (.alternative _) | some (.delimiter _) | none => false

/-- Whether a node is a value of a rule if it is one of the rules that `known` tells: by
    itself, or as a value that the rule offers. -/
def isValueBy (s : Schema) (g : Grammar) (n : Node) (known : RuleId → Bool) (id : RuleId) : Bool :=
  s.accepts g n id || (((g.shape? id).map offers).getD []).any known

/-- Whether a node is a value of a rule. The rule is asked first and then the rules whose
    values it offers, but none again by way of itself, so no path has more rules than there
    are. -/
def isValue (s : Schema) (g : Grammar) (n : Node) (id : RuleId) : Bool :=
  inferredVia (s.isValueBy g n) (g.size + 1) [] id

/-- Whether a node is a value of the rule with a name. Without a grammar it must be
    of the kind with that name. -/
def is (s : Schema) (n : Node) (name : String) : Bool :=
  match s.grammar with
  | some g => (g.lookup name).any (s.isValue g n)
  | none => n.kind?.isSome && n.kind? = s.kind? name

/-- The rules that a rule stands for as a parent: the branches of an alternative and
    the rule behind an alias. -/
def standsFor : Shape → List RuleId
  | .alternative bits => bits
  | .aliasOf child => [child]
  | _ => []

/-- The kinds that a rule stands for as a parent: its own, or those that an
    alternative or alias leads to, in the order of the branches. -/
def concreteKinds (s : Schema) (name : String) : List Kind :=
  match s.grammar with
  | none => (s.kind? name).toList
  | some g =>
    match g.lookup name with
    | none => []
    | some id =>
      (reachable (fun r => ((g.shape? r).map standsFor).getD []) g.size id).filterMap s.kindOfRule?

/-! ## Checked constructors -/

/-- The kind with a name that must be known. -/
def expectKind (s : Schema) (name : String) : Except Fault Kind :=
  match s.kind? name with
  | some kind => .ok kind
  | none => .error (.unknownKind name)

/-- The shape of the rule of a kind, where there is one. -/
def ruleShape? (s : Schema) (info : KindInfo) : Option (Grammar × RuleId × Shape) := do
  let g ← s.grammar
  let id ← info.rule
  return (g, id, ← g.shape? id)

/-- Makes a leaf. Only an atom may have a text other than its name. -/
def terminal (s : Schema) (store : Store) (name text : String) : Except Fault (Node × Store) := do
  let kind ← s.expectKind name
  let info ← s.info kind
  if !info.terminal then throw (.notATerminal name)
  if let some (_, _, .term termKind _) := s.ruleShape? info then
    if termKind ≠ .atom ∧ text ≠ name then throw (.wrongText name text)
  return store.leaf kind text

/-- Checks children, the first of which has the given index, against rules. -/
def checkChildren (s : Schema) (g : Grammar) (name : String) :
    Nat → List Node → List RuleId → Except Fault Unit
  | index, child :: children, bit :: bits => do
    if !s.isValue g child bit then
      throw (.wrongChild index name (g.nameOf bit) (s.nameOfNode child))
    s.checkChildren g name (index + 1) children bits
  | _, _, _ => .ok ()

/-- Makes a tree of at least two children. With a grammar the children must be
    values of the bits of the sequence, or a list and its element. -/
def create (s : Schema) (store : Store) (name : String) (children : List Node) :
    Except Fault (Node × Store) := do
  let kind ← s.expectKind name
  let info ← s.info kind
  if info.terminal then throw (.isATerminal name)
  if children.length < 2 then throw (.tooFewChildren name children.length)
  if let some (g, id, shape) := s.ruleShape? info then
    let expected ←
      match shape with
      | .sequence bits _ => pure bits
      | .plus child => pure [id, child]
      | _ => throw (.noConstructor (g.nameOf id))
    if children.length ≠ expected.length then throw (.wrongChildCount name expected.length)
    s.checkChildren g name 0 children expected
  store.checkedTree kind children

/-! ## Printing -/

mutual

/-- A node as a nested list: the name of its kind and its children in brackets, the
    text of a leaf, an underscore for nothing. -/
def sexp (s : Schema) : Node → String
  | .nothing => "_"
  | .leaf _ _ text => text
  | .tree _ kind _ children => "(" ++ s.nameOf kind ++ s.sexpAll children ++ ")"

/-- Nodes as nested lists, each after a space. -/
def sexpAll (s : Schema) : List Node → String
  | [] => ""
  | n :: rest => " " ++ s.sexp n ++ s.sexpAll rest

end

end Schema

end LanguageWorkbench
