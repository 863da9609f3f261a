import LanguageWorkbench.Fault

/-!
# Lowered grammars

A lowered grammar is a plain context-free grammar. Its symbols are numbered, the
terminals first: `$end` is symbol 0 and `$accept` the first nonterminal.
Production 0 is `$accept -> start $end`, and neither symbol occurs elsewhere.
Every production has a derivation, which says how a node is rebuilt from the
values of its right side.

`Lowered.ofParts` checks these rules for a grammar given by its parts.
-/

namespace LanguageWorkbench

/-- The number of a terminal or nonterminal. -/
abbrev Symbol := Nat

/-- The symbol that ends every input. -/
def endSymbol : Symbol := 0

/-- A rule that replaces a nonterminal by a list of symbols. -/
structure Production where
  lhs : Symbol
  rhs : List Symbol
deriving DecidableEq, Repr

/-- How a node is rebuilt from the values of a right side. -/
structure Derivation where
  /-- The kind of the node. -/
  name : String
  /-- The number of the rule the production comes from. -/
  rule : Option Nat
  /-- The places of the rebuilt argument list that hold nothing, ascending. -/
  omitted : List Nat
  /-- Whether a single live argument replaces the node. -/
  collapse : Bool
deriving DecidableEq, Repr

namespace Derivation

/-- The derivation that builds a node named `name` of all values. -/
def plain (name : String) : Derivation := ⟨name, none, [], false⟩

/-- A derivation as notes show it. -/
def render (d : Derivation) : String :=
  d.name ++
    (if d.omitted.isEmpty then "" else " [" ++ ", ".intercalate (d.omitted.map toString) ++ "]") ++
    if d.collapse then " collapse" else ""

end Derivation

/-- A plain grammar with a derivation for each production. -/
structure Lowered where
  terminals : Array String
  nonterminals : Array String
  productions : Array Production
  derivations : Array Derivation
  /-- What was dropped on the way to this grammar. -/
  warnings : List String
deriving Repr

namespace Lowered

/-- No symbols and no productions. -/
def empty : Lowered := ⟨#[], #[], #[], #[], []⟩

/-- The number of terminals. -/
def numTerminals (g : Lowered) : Nat := g.terminals.size

/-- The number of symbols. -/
def numSymbols (g : Lowered) : Nat := g.terminals.size + g.nonterminals.size

/-- Whether a symbol is a terminal. -/
def isTerminal (g : Lowered) (s : Symbol) : Bool := s < g.numTerminals

/-- The nonterminal that stands for a whole input with its end. -/
def accept (g : Lowered) : Symbol := g.numTerminals

/-- The symbol with a name. -/
def symbol? (g : Lowered) (name : String) : Option Symbol :=
  match g.terminals.toList.findIdx? (· == name) with
  | some i => some i
  | none => (g.nonterminals.toList.findIdx? (· == name)).map (g.numTerminals + ·)

/-- The name of a symbol, empty if there is no such symbol. -/
def nameOf (g : Lowered) (s : Symbol) : String :=
  if g.isTerminal s then g.terminals[s]?.getD "" else g.nonterminals[s - g.numTerminals]?.getD ""

/-- The right side of a production, empty if there is no such production. -/
def rhsOf (g : Lowered) (p : Nat) : List Symbol := ((g.productions[p]?).map (·.rhs)).getD []

/-- A production as notes and messages show it. -/
def renderProduction (g : Lowered) (p : Production) : String :=
  g.nameOf p.lhs ++ " ->" ++ String.join (p.rhs.map fun s => " " ++ g.nameOf s)

/-- The production with a number, as notes and messages show it. -/
def render (g : Lowered) (p : Nat) : String :=
  ((g.productions[p]?).map g.renderProduction).getD ""

/-! ## Building -/

/-- Adds a terminal. -/
def addTerminal (g : Lowered) (name : String) : Except Fault Lowered :=
  if (g.symbol? name).isSome then .error (.symbolListedTwice name)
  else .ok { g with terminals := g.terminals.push name }

/-- Adds a nonterminal. -/
def addNonterminal (g : Lowered) (name : String) : Except Fault Lowered :=
  if (g.symbol? name).isSome then .error (.symbolListedTwice name)
  else .ok { g with nonterminals := g.nonterminals.push name }

/-- Adds a production with its derivation. -/
def addProduction (g : Lowered) (p : Production) (d : Derivation) : Lowered :=
  { g with productions := g.productions.push p, derivations := g.derivations.push d }

/-- Checks where `$accept` and `$end` occur. -/
def checkStart (g : Lowered) : Except Fault Unit :=
  match g.productions.toList with
  | [] => .error (.outOfRange 0 0)
  | start :: rest => do
    unless start.lhs = g.accept ∧ start.rhs.length = 2 ∧ start.rhs[1]? = some endSymbol do
      throw .malformedStart
    for p in rest do
      if p.lhs = g.accept then throw .acceptTwice
      if endSymbol ∈ p.rhs ∨ g.accept ∈ p.rhs then throw .misplacedEnd

/-- The symbol with a name that must be known. -/
def findSymbol (g : Lowered) (name : String) : Except Fault Symbol :=
  match g.symbol? name with
  | some s => .ok s
  | none => .error (.unknownSymbol name)

/-- Adds productions with their derivations; the left sides must be nonterminals. -/
def addProductions (g : Lowered) : List (Production × Derivation) → Except Fault Lowered
  | [] => .ok g
  | (p, d) :: rest =>
    if g.isTerminal p.lhs then .error (.terminalAsLeftSide (g.nameOf p.lhs))
    else (g.addProduction p d).addProductions rest

/-- The lowered grammar with the given symbols and productions. Without derivations
    every production builds a node named after its left side. -/
def ofParts (terminals nonterminals : List String) (productions : List (String × List String))
    (derivations : Option (List Derivation)) : Except Fault Lowered := do
  if terminals.head? ≠ some "$end" then throw .terminalsWithoutEnd
  if nonterminals.head? ≠ some "$accept" then throw .nonterminalsWithoutAccept
  let g ← terminals.foldlM addTerminal empty
  let g ← nonterminals.foldlM addNonterminal g
  let productions ← productions.mapM fun (lhs, rhs) =>
    return Production.mk (← g.findSymbol lhs) (← rhs.mapM g.findSymbol)
  let derivations := derivations.getD (productions.map fun p => .plain (g.nameOf p.lhs))
  if derivations.length ≠ productions.length then throw .derivationCount
  let g ← g.addProductions (productions.zip derivations)
  g.checkStart
  return g

end Lowered

end LanguageWorkbench
