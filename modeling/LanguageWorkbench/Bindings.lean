import LanguageWorkbench.Code
import LanguageWorkbench.Grammar.Basic

/-!
# Typed bindings

The bindings of a grammar are a module of Rust code for the nodes of its language: a
closed enumeration of kinds, a checked constructor for each rule with a kind, and a
predicate for every rule.

* `Bindings.argumentNames`: the parameters of a constructor.
* `Bindings.ofGrammar`: the module. A rule whose name is no name in code is a fault.
-/

namespace LanguageWorkbench.Bindings

open Code

/-- A function's name: a verb and the canonical name of a rule. -/
def functionName (verb : String) (rule : Rule) : List Code :=
  [token (verb ++ "_" ++ rule.tag.lower)]

/-- Pieces of code with a comma between any two. -/
def separated : List (List Code) → List Code
  | [] => []
  | [c] => c
  | c :: rest => c ++ token "," :: separated rest

/-! ## Constructors -/

/-- The names of parameters for the given names, from the second use of a name on
    with a number. `before` are the names already used. -/
def numberedNames (before : List String) : List String → List String
  | [] => []
  | name :: rest =>
    let count := before.count name + 1
    (if count = 1 then name else name ++ "_" ++ toString count) ::
      numberedNames (name :: before) rest

/-- The parameters of the constructor of a node with the given children. -/
def argumentNames (children : List Rule) : List String :=
  numberedNames [] (children.map (·.tag.lower))

/-- The parameters by which all constructors take the schema and the store. -/
def commonParameters : List Code := ofText "schema : & Schema , store : & mut NodeStore"

/-- A documented function that makes a node. -/
def constructorOf (rule : Rule) (doc : String) (parameters body : List Code) : List Code :=
  [token "#", square (ofText "doc =" ++ [constant doc])] ++
    ofText "pub fn" ++ functionName "create" rule ++ [round parameters] ++ ofText "- > Node" ++
    [curly body]

/-- The constructor of a leaf. Only that of an atom takes a text. -/
def leafConstructor (rule : Rule) (kind : TermKind) : List Code :=
  let name := constant rule.name
  let doc := "Creates a `" ++ rule.name ++ "` leaf."
  let call (text : Code) :=
    ofText "schema . terminal" ++ [round [token "store", token ",", name, token ",", text]]
  if kind = .atom then
    constructorOf rule doc (commonParameters ++ ofText ", text : & str") (call (token "text"))
  else constructorOf rule doc commonParameters (call name)

/-- The constructor of a tree with the given children. -/
def treeConstructor (rule : Rule) (children : List Rule) : List Code :=
  let names := argumentNames children
  let doc := "Creates `" ++ rule.name ++ "` from `" ++ " ".intercalate (children.map Rule.name) ++ "`."
  let parameters :=
    commonParameters ++ token "," :: separated (names.map fun n => token n :: ofText ": Node")
  let values := [token "vec", token "!", square (separated (names.map fun n => [token n]))]
  constructorOf rule doc parameters
    (ofText "schema . create" ++
      [round ([token "store", token ",", constant rule.name, token ","] ++ values)])

/-- The constructor of a rule, if its values have a kind. -/
def constructorFor (g : Grammar) (rule : Rule) : List Code :=
  match rule.shape with
  | .term kind _ => leafConstructor rule kind
  | .sequence bits _ => treeConstructor rule (bits.filterMap g.rule?)
  | .plus child => treeConstructor rule (rule :: (g.rule? child).toList)
  | _ => []

/-! ## Predicates -/

/-- The predicate of a rule. -/
def predicateFor (rule : Rule) : List Code :=
  ofText "pub fn" ++ functionName "is" rule ++ [round (ofText "schema : & Schema , node : & Node")] ++
    ofText "- > bool" ++
    [curly (ofText "schema . is" ++ [round [token "node", token ",", constant rule.name]])]

/-! ## Kinds -/

/-- One arm of a case distinction. -/
def arm (pattern result : List Code) : List Code := pattern ++ ofText "= >" ++ result ++ [token ","]

/-- A kind of the enumeration, in full. -/
def kindPath (variant : String) : List Code := ofText "Kind : :" ++ [token variant]

/-- The enumeration of kinds. -/
def kindEnum (variants : List String) : List Code :=
  [token "#", square (token "derive" ::
      [round (ofText "Debug , Clone , Copy , PartialEq , Eq , Hash")])] ++
    ofText "pub enum Kind" ++
    [curly (ofText "Nothing ," ++ variants.flatMap fun v => [token v, token ","])]

/-- The names of kinds. -/
def kindNames (kinds : List (String × String)) : List Code :=
  let arms := arm (kindPath "Nothing") [constant "nothing"] ++
    kinds.flatMap fun (variant, name) => arm (kindPath variant) [constant name]
  ofText "impl Kind" ++
    [curly (ofText "pub fn name" ++ [round [token "self"]] ++ ofText "- > & ' static str" ++
      [curly (ofText "match self" ++ [curly arms])])]

/-- The kind of a node. -/
def kindOfNode (kinds : List (String × String)) : List Code :=
  let unknown :=
    ofText "panic !" ++ [round [constant "unknown node kind '\x7b\x7d'", token ",", token "other"]]
  let arms := (kinds.flatMap fun (variant, name) => arm [constant name] (kindPath variant)) ++
    arm [token "other"] unknown
  let known := ofText "match schema . name" ++ [round [token "k"], curly arms]
  ofText "pub fn kind" ++ [round (ofText "schema : & Schema , node : & Node")] ++
    ofText "- > Kind" ++
    [curly (ofText "match node . kind" ++ [round [], curly
      (arm [token "None"] (kindPath "Nothing") ++
        arm [token "Some", round [token "k"]] known)])]

/-! ## The module -/

/-- The rules whose values have kinds. -/
def concreteRules (g : Grammar) : List Rule := g.rules.toList.filter (·.shape.isConcrete)

/-- The bindings of a grammar. -/
def ofGrammar (g : Grammar) : Except Fault (List Code) := do
  let moduleName ← g.language.word
  let concrete := concreteRules g
  let variants ← concrete.mapM fun rule => rule.tag.typeName
  let kinds := variants.zip (concrete.map Rule.name)
  let inside :=
    ofText "use lr_grammar_kit : :" ++ [curly (ofText "Node , NodeStore , Schema"), token ";"] ++
    ofText "pub const LANGUAGE : & str =" ++ [constant g.language.visual, token ";"] ++
    kindEnum variants ++ kindNames kinds ++ kindOfNode kinds ++
    concrete.flatMap (constructorFor g) ++ g.rules.toList.flatMap predicateFor
  return ofText "pub mod" ++ [token moduleName, curly inside]

end LanguageWorkbench.Bindings
