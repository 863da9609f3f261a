import LanguageWorkbench.Note
import LanguageWorkbench.Table.Basic
import LanguageWorkbench.TreeBuilder

/-!
# The automaton

A machine is a lowered grammar with a table and a tree builder. An automaton runs
it: a stack of states, a stack of values, and whether the end was accepted.

Before a terminal is fed, `Machine.check` replays the reductions it would trigger on
a scratch stack: the lower part of the state stack, which stays as it is, and the
states pushed since. Only if they end in a shift or in acceptance does `Machine.feed`
touch the automaton, so a rejected terminal leaves it as it was.

The reductions for one terminal run without input, so on a table of `n` states they
either stop within `Machine.bound` steps or never: while no state of the stack at
the start is popped, at most `n` states are pushed on top without a repetition, and
no such stack occurs twice.
-/

namespace LanguageWorkbench

/-- The parts an automaton runs on. -/
structure Machine where
  grammar : Lowered
  table : Table
  builder : TreeBuilder
deriving Repr

/-- The state of a run. Both stacks have their top first. -/
structure Automaton where
  states : List Nat
  values : List Node
  accepted : Bool
deriving Repr

/-- One step of a run. -/
inductive Move where
  | shift (state : Nat) (text : String) (next : Nat)
  | reduce (state production : Nat)
  | accept (state : Nat)
deriving DecidableEq, Repr

/-- A step as a note. -/
def Move.note (g : Lowered) : Move → Note
  | shift state text next =>
    ⟨.trace, "state " ++ toString state ++ ": shift " ++ Text.quoted text ++ " to " ++
      toString next⟩
  | reduce state p => ⟨.trace, "state " ++ toString state ++ ": reduce " ++ g.render p⟩
  | accept state => ⟨.trace, "state " ++ toString state ++ ": accept"⟩

namespace Automaton

/-- The automaton before any input. -/
def initial : Automaton := ⟨[0], [], false⟩

/-- The finished tree, once the end was accepted. -/
def result? (a : Automaton) : Option Node := if a.accepted then a.values.head? else none

end Automaton

namespace Machine

/-- More reductions than can follow each other on a stack of the given height and
    still end. -/
def bound (m : Machine) (height : Nat) : Nat :=
  (height + 1) * Nat.pow (m.table.size + 1) (m.table.size + 2)

/-- The production with a number. -/
def production (m : Machine) (p : Nat) : Except Fault Production :=
  match m.grammar.productions[p]? with
  | some production => .ok production
  | none => .error (.outOfRange m.grammar.productions.size p)

end Machine

/-! ## Checking -/

/-- A scratch stack over a stack of states: its lowest `depth` states, and the states
    pushed on these, top first. -/
structure Scratch where
  depth : Nat
  extra : List Nat
deriving DecidableEq, Repr

namespace Scratch

/-- The scratch stack on which nothing was popped or pushed yet. -/
def whole (states : List Nat) : Scratch := ⟨states.length, []⟩

/-- The state on top. -/
def top? (states : List Nat) (s : Scratch) : Option Nat :=
  match s.extra with
  | top :: _ => some top
  | [] => states[states.length - s.depth]?

/-- Pops `n` states, first those that were pushed. The last state of the stack may not
    be popped. -/
def pop? (n : Nat) (s : Scratch) : Option Scratch :=
  let fromExtra := min n s.extra.length
  if s.depth ≤ n - fromExtra then none
  else some ⟨s.depth - (n - fromExtra), s.extra.drop fromExtra⟩

/-- Pushes a state. -/
def push (state : Nat) (s : Scratch) : Scratch := { s with extra := state :: s.extra }

end Scratch

/-- What a round of a check comes to. -/
inductive Round where
  /-- The terminal can be taken, or it cannot. -/
  | answer (taken : Bool)
  /-- A state reduces by a production, and the check goes on. -/
  | reduction (state production : Nat) (scratch : Scratch)

namespace Machine

/-- One round of a check. A reduction may not pop the last state, and a state must
    follow the nonterminal. -/
def checkRound (m : Machine) (terminal : Symbol) (states : List Nat) (s : Scratch) :
    Except Fault Round := do
  let some top := s.top? states | throw .emptyStack
  match ← m.table.action top terminal with
  | .shift _ | .accept => return .answer true
  | .error => return .answer false
  | .reduce p =>
    let production ← m.production p
    let some popped := s.pop? production.rhs.length | return .answer false
    let some state := popped.top? states | throw .emptyStack
    match ← m.table.goto? state production.lhs with
    | none => return .answer false
    | some next => return .reduction top p (popped.push next)

/-- Whether the reductions for a terminal end in a shift or in acceptance. -/
def checkFrom (m : Machine) (terminal : Symbol) (states : List Nat) :
    Nat → Scratch → Except Fault Bool
  | 0, _ => .error .endlessReductions
  | fuel + 1, s => do
    match ← m.checkRound terminal states s with
    | .answer taken => return taken
    | .reduction _ _ s => m.checkFrom terminal states fuel s

/-- Whether an automaton can take a terminal. -/
def check (m : Machine) (a : Automaton) (terminal : Symbol) : Except Fault Bool :=
  m.checkFrom terminal a.states (m.bound a.states.length) (.whole a.states)

/-! ## Feeding -/

/-- What is left of a run after a terminal: the automaton and the store, the moves
    it made, and whether it took the terminal. The automaton and the store are
    meaningful after a fault too: they are as the moves before it left them. -/
structure Fed where
  automaton : Automaton
  store : Store
  moves : List Move
  outcome : Except Fault Bool

/-- The run that ends in a fault. -/
def Fed.broken (a : Automaton) (store : Store) (moves : List Move) (f : Fault) : Fed :=
  ⟨a, store, moves, .error f⟩

/-- Puts a move before those of a run. -/
def Fed.after (move : Move) (fed : Fed) : Fed := { fed with moves := move :: fed.moves }

/-- Shifts a terminal: the state is pushed, then the leaf is made and pushed. -/
def shift (m : Machine) (a : Automaton) (store : Store) (terminal : Symbol) (text : String)
    (top next : Nat) : Fed :=
  let pushed := { a with states := next :: a.states }
  let moves := [.shift top text next]
  match m.builder.leaf store terminal text with
  | .error f => .broken pushed store moves f
  | .ok (n, store) => ⟨{ pushed with values := n :: a.values }, store, moves, .ok true⟩

/-- What a reduction by `p` leaves: the automaton after it with the store, or with a
    fault the automaton and store at that point. The values and states of the right
    side are popped before the value is built, and the state after the nonterminal
    is looked up last. -/
def reduceOnce (m : Machine) (a : Automaton) (store : Store) (p : Nat) :
    Automaton × Store × Except Fault Unit :=
  match m.production p with
  | .error f => (a, store, .error f)
  | .ok production =>
    let n := production.rhs.length
    if a.values.length < n then (a, store, .error (.valuesMissing n a.values.length))
    else
      let children := (a.values.take n).reverse
      let popped := { a with states := a.states.drop n, values := a.values.drop n }
      match m.builder.reduce store p children with
      | .error f => (popped, store, .error f)
      | .ok (value, store) =>
        match popped.states with
        | [] => (popped, store, .error .emptyStack)
        | state :: _ =>
          match m.table.goto? state production.lhs with
          | .error f => (popped, store, .error f)
          | .ok none =>
            (popped, store, .error (.noGoto state (m.grammar.nameOf production.lhs)))
          | .ok (some next) =>
            (⟨next :: popped.states, value :: popped.values, a.accepted⟩, store, .ok ())

/-- Runs the reductions for a terminal and then takes it. -/
def run (m : Machine) (terminal : Symbol) (text : String) :
    Nat → Automaton → Store → Fed
  | 0, a, store => .broken a store [] .endlessReductions
  | fuel + 1, a, store =>
    match a.states with
    | [] => .broken a store [] .emptyStack
    | top :: _ =>
      match m.table.action top terminal with
      | .error f => .broken a store [] f
      | .ok (.shift next) => m.shift a store terminal text top next
      | .ok .accept => ⟨{ a with accepted := true }, store, [.accept top], .ok true⟩
      | .ok .error => .broken a store [] (.errorAfterCheck top)
      | .ok (.reduce p) =>
        match m.reduceOnce a store p with
        | (a, store, .error f) => .broken a store [.reduce top p] f
        | (a, store, .ok ()) => .after (.reduce top p) (m.run terminal text fuel a store)

/-- Feeds a terminal. A terminal that cannot be taken, or one after the accepted
    end, leaves the automaton and the store alone. -/
def feed (m : Machine) (a : Automaton) (store : Store) (terminal : Symbol) (text : String) : Fed :=
  if a.accepted then ⟨a, store, [], .ok false⟩
  else
    match m.check a terminal with
    | .error f => .broken a store [] f
    | .ok false => ⟨a, store, [], .ok false⟩
    | .ok true => m.run terminal text (m.bound a.states.length) a store

end Machine

end LanguageWorkbench
