import LanguageWorkbench.Note
import LanguageWorkbench.Table.Basic
import LanguageWorkbench.Table.Collection

/-!
# Building parse tables

The canonical LR(1) table of a lowered grammar has a state for each set of the
canonical collection. A set dictates to shift the terminals after its dots, to
accept `$end` once the start symbol is complete, and to reduce by each completed
item on each of its lookaheads. Two different actions for one terminal are a
conflict, and the table is refused: nothing is resolved by order or precedence.
-/

namespace LanguageWorkbench

namespace CollectionState

/-- The actions that a set dictates, in the order in which they are entered: shifts
    by symbol, the accepting action, reductions by item and lookahead. -/
def dictated (g : Lowered) (c : CollectionState) : List (Symbol × Action) :=
  let shifts := (c.moves.filter fun (s, _) => g.isTerminal s).map fun (s, n) => (s, Action.shift n)
  let accept := if c.items.any (·.1 = ⟨0, 1⟩) then [(endSymbol, Action.accept)] else []
  let reductions := c.items.flatMap fun (item, lookaheads) =>
    if item.production ≠ 0 ∧ item.dot = (g.rhsOf item.production).length then
      (lookaheads.toList g.numTerminals).map fun t => (t, Action.reduce item.production)
    else []
  shifts ++ accept ++ reductions

/-- The states after nonterminals. -/
def gotos (g : Lowered) (c : CollectionState) : List (Symbol × Nat) :=
  c.moves.filter fun (s, _) => !g.isTerminal s

end CollectionState

namespace Table

/-- Two actions that compete for a terminal. -/
structure Conflict where
  symbol : Symbol
  first : Action
  second : Action
deriving DecidableEq, Repr

/-- Enters an action among the actions of a state, which are kept ascending. -/
def enter (s : Symbol) (a : Action) : List (Symbol × Action) → Except Conflict (List (Symbol × Action))
  | [] => .ok [(s, a)]
  | (t, b) :: rest =>
    if s < t then .ok ((s, a) :: (t, b) :: rest)
    else if s = t then if b = a then .ok ((t, b) :: rest) else .error ⟨s, b, a⟩
    else return (t, b) :: (← enter s a rest)

/-- Enters actions one after another. -/
def enterAll (known : List (Symbol × Action)) :
    List (Symbol × Action) → Except Conflict (List (Symbol × Action))
  | [] => .ok known
  | (s, a) :: rest => do enterAll (← enter s a known) rest

/-- The state of a set of the collection. -/
def stateOf (g : Lowered) (c : CollectionState) : Except Conflict TableState := do
  return ⟨.error, ← enterAll [] (c.dictated g), c.gotos g⟩

/-- The states of sets of the collection, the first of which has number `n`. -/
def statesOf (g : Lowered) : Nat → List CollectionState → Noted (List TableState)
  | _, [] => return []
  | n, c :: rest => do
    match stateOf g c with
    | .error conflict =>
      throw (.error (.conflict n (g.nameOf conflict.symbol)
        [g.describe conflict.first, g.describe conflict.second]))
    | .ok state =>
      .tell .debug ("state " ++ toString n ++ ": " ++ toString c.items.length ++ " items, " ++
        toString state.actions.length ++ " actions, " ++ toString state.gotos.length ++ " gotos")
      return state :: (← statesOf g (n + 1) rest)

/-- Builds the canonical table of a grammar. -/
def build (g : Lowered) : Noted Table := do
  let states ← statesOf g 0 (Collection.ofLowered g)
  .tell .info ("built " ++ toString states.length ++ " LR(1) states")
  return ⟨states.toArray⟩

end Table

end LanguageWorkbench
