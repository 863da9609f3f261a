import LanguageWorkbench.Lowered.Basic

/-!
# Parse tables

A table has numbered states, of which state 0 is the initial one. A state says
what to do for each terminal and where to go after a nonterminal. Tables are built
from grammars, but `Table.ofStates` takes any states; they need not make sense.
-/

namespace LanguageWorkbench

/-- What an automaton does for a terminal. -/
inductive Action where
  /-- Takes the terminal and goes to a state. -/
  | shift (state : Nat)
  /-- Reduces by the production with a number. -/
  | reduce (production : Nat)
  /-- Ends the input. -/
  | accept
  /-- Rejects the terminal. -/
  | error
deriving DecidableEq, Repr

/-- A state of a table. -/
structure TableState where
  /-- What happens for terminals without an action of their own. -/
  default : Action
  /-- The actions of single terminals, ascending. -/
  actions : List (Symbol × Action)
  /-- The states after nonterminals, ascending. -/
  gotos : List (Symbol × Nat)
deriving DecidableEq, Repr

/-- A parse table. -/
structure Table where
  states : Array TableState
deriving DecidableEq, Repr

namespace Table

/-- The table with the given states, of which there must be one. -/
def ofStates (states : List TableState) : Except Fault Table :=
  if states.isEmpty then .error .noInitialState else .ok ⟨states.toArray⟩

/-- The number of states. -/
def size (t : Table) : Nat := t.states.size

/-- The state with a number. -/
def state (t : Table) (n : Nat) : Except Fault TableState :=
  match t.states[n]? with
  | some s => .ok s
  | none => .error (.outOfRange t.size n)

/-- What a state does for a terminal. -/
def action (t : Table) (n : Nat) (terminal : Symbol) : Except Fault Action := do
  let s ← t.state n
  return (s.actions.lookup terminal).getD s.default

/-- The state after a nonterminal, if there is one. -/
def goto? (t : Table) (n : Nat) (nonterminal : Symbol) : Except Fault (Option Nat) := do
  let s ← t.state n
  return s.gotos.lookup nonterminal

end Table

/-- An action as messages describe it. -/
def Lowered.describe (g : Lowered) : Action → String
  | .shift state => "shift to state " ++ toString state
  | .reduce p => "reduce " ++ g.render p
  | .accept => "accept"
  | .error => "error"

end LanguageWorkbench
