import LanguageWorkbench.Lowered.Basic
import LanguageWorkbench.NatSet

/-!
# First terminals

Which symbols derive the empty string, and which terminals can begin what a symbol
derives. Both are least sets closed under the productions, found in rounds.

* `Firsts.ofLowered`: the two tables of a grammar.
* `Firsts.ofSequence`: the terminals that can begin a list of symbols, followed by
  what may follow it.
-/

namespace LanguageWorkbench

/-- What the symbols of a grammar can begin with. -/
structure Firsts where
  /-- The symbols that derive the empty string. -/
  nullable : NatSet
  /-- For each symbol the terminals that can begin what it derives. -/
  first : List NatSet
deriving DecidableEq, Repr

namespace Firsts

/-- The terminals that can begin what a symbol derives. -/
def of (f : Firsts) (s : Symbol) : NatSet := f.first[s]?.getD .empty

/-- The terminals that can begin what a list of symbols derives, where those of
    `follow` come after it. -/
def ofSequence (f : Firsts) (follow : NatSet) : List Symbol → NatSet
  | [] => follow
  | s :: rest => if s ∈ f.nullable then (f.of s).union (f.ofSequence follow rest) else f.of s

/-- Whether a list of symbols derives the empty string. -/
def isNullable (f : Firsts) (symbols : List Symbol) : Bool := symbols.all f.nullable.contains

/-- Adds what one production says about its left side. -/
def addProduction (f : Firsts) (p : Production) : Firsts where
  nullable := if f.isNullable p.rhs then f.nullable.insert p.lhs else f.nullable
  first := f.first.modify p.lhs fun s => s.union (f.ofSequence .empty p.rhs)

/-- Terminals begin with themselves, and nothing is known of nonterminals. -/
def initial (g : Lowered) : Firsts where
  nullable := .empty
  first := (List.range g.numSymbols).map fun s => if g.isTerminal s then .singleton s else .empty

/-- The tables of a grammar. Every round but the last adds a nullable symbol or a
    terminal of a symbol. -/
def ofLowered (g : Lowered) : Firsts :=
  saturate (fun f => g.productions.toList.foldl addProduction f)
    (g.numSymbols * (g.numTerminals + 1) + 1) (initial g)

end Firsts

end LanguageWorkbench
