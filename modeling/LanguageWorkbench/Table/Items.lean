import LanguageWorkbench.Table.First

/-!
# Item sets

An item is a production with a dot in its right side: what stands before the dot
has been seen. An item set gives each of its items the terminals that may follow
once the item is complete, its lookaheads.

* `ItemSet.closure` adds the items that begin the nonterminals after dots. Their
  lookaheads are what can follow there, so the closure is the least set with
  `ItemSet.arrivals` inside.
* `ItemSet.advance` moves the dot over one symbol.
-/

namespace LanguageWorkbench

/-- A production with a dot in its right side. -/
structure Item where
  production : Nat
  dot : Nat
deriving DecidableEq, Repr

/-- Items in ascending order, by production and dot, with their lookaheads. -/
abbrev ItemSet := List (Item × NatSet)

namespace Item

/-- What follows the dot. -/
def rest (g : Lowered) (i : Item) : List Symbol := (g.rhsOf i.production).drop i.dot

/-- The symbol after the dot. -/
def next? (g : Lowered) (i : Item) : Option Symbol := (i.rest g).head?

/-- Whether one item comes before another. -/
def before (i j : Item) : Bool :=
  i.production < j.production || (i.production == j.production && i.dot < j.dot)

end Item

namespace ItemSet

/-- Adds lookaheads to an item, which is added if it is missing. -/
def insert (item : Item) (lookaheads : NatSet) : ItemSet → ItemSet
  | [] => [(item, lookaheads)]
  | (other, known) :: rest =>
    if item = other then (other, known.union lookaheads) :: rest
    else if item.before other then (item, lookaheads) :: (other, known) :: rest
    else (other, known) :: insert item lookaheads rest

/-- The productions of a nonterminal, by number. -/
def productionsOf (g : Lowered) (s : Symbol) : List Nat :=
  (List.range g.productions.size).filter fun p => (g.productions[p]?).any (·.lhs = s)

/-- The items that begin the nonterminal after the dot of an item, each with what
    may follow it there. -/
def arrivals (g : Lowered) (firsts : Firsts) (item : Item) (lookaheads : NatSet) :
    List (Item × NatSet) :=
  match item.rest g with
  | [] => []
  | s :: rest =>
    if g.isTerminal s then []
    else
      let follow := firsts.ofSequence lookaheads rest
      (productionsOf g s).map fun q => (⟨q, 0⟩, follow)

/-- The lookaheads of an item, none if the item is missing. -/
def lookaheads (items : ItemSet) (item : Item) : NatSet := (items.lookup item).getD .empty

/-- Adds an item that arrives with lookaheads. If that says something new, the item
    joins those that wait. -/
def arrive (closing : ItemSet × List Item) (arrival : Item × NatSet) : ItemSet × List Item :=
  let items := insert arrival.1 arrival.2 closing.1
  (items, if items = closing.1 then closing.2 else closing.2 ++ [arrival.1])

/-- Takes the items that wait, first come first served, and adds what arrives with
    each. An item that gets new lookaheads waits again. -/
def close (g : Lowered) (firsts : Firsts) : Nat → ItemSet → List Item → ItemSet
  | 0, items, _ => items
  | _ + 1, items, [] => items
  | fuel + 1, items, item :: waiting =>
    let (items, waiting) :=
      (arrivals g firsts item (items.lookaheads item)).foldl arrive (items, waiting)
    close g firsts fuel items waiting

/-- The closure of an item set. All its items wait in the beginning, and one more
    waits for each item or lookahead that is added. -/
def closure (g : Lowered) (firsts : Firsts) (kernel : ItemSet) : ItemSet :=
  close g firsts (kernel.length + g.productions.size * (g.numTerminals + 1) + 1) kernel
    (kernel.map Prod.fst)

/-- The symbols after dots, ascending, without `$end`. -/
def nextSymbols (g : Lowered) (items : ItemSet) : List Symbol :=
  let next := NatSet.ofList (items.filterMap fun (item, _) => item.next? g)
  (next.toList g.numSymbols).filter (· ≠ endSymbol)

/-- The items with the dot before a symbol, with the dot moved over it. -/
def advance (g : Lowered) (items : ItemSet) (s : Symbol) : ItemSet :=
  (items.filter fun (item, _) => item.next? g = some s).map fun (item, lookaheads) =>
    (⟨item.production, item.dot + 1⟩, lookaheads)

end ItemSet

end LanguageWorkbench
