import LanguageWorkbench.Table.Items

/-!
# The canonical collection

The closed item sets that are reached from the start of production 0 by moving
dots over symbols. Two sets are the same only if they agree on items and
lookaheads. They are numbered in the order in which they are found: breadth first,
and from each set in the order of the symbols.
-/

namespace LanguageWorkbench

/-- A set of the collection: its kernel, its closure, and the numbers of the sets
    that symbols lead to. -/
structure CollectionState where
  kernel : ItemSet
  items : ItemSet
  moves : List (Symbol × Nat)
deriving Repr

namespace Collection

/-- The number of a kernel among the known ones, to which it is added if it is
    new. -/
def intern (kernels : Array ItemSet) (kernel : ItemSet) : Nat × Array ItemSet :=
  match kernels.findIdx? (· == kernel) with
  | some n => (n, kernels)
  | none => (kernels.size, kernels.push kernel)

/-- Where each of the symbols leads from an item set. -/
def moves (g : Lowered) (items : ItemSet) (kernels : Array ItemSet) :
    List Symbol → List (Symbol × Nat) × Array ItemSet
  | [] => ([], kernels)
  | s :: rest =>
    let (n, kernels) := intern kernels (items.advance g s)
    let (found, kernels) := moves g items kernels rest
    ((s, n) :: found, kernels)

/-- The sets from number `n` on, where `kernels` are those found so far. -/
def explore (g : Lowered) (firsts : Firsts) :
    Nat → Nat → Array ItemSet → List CollectionState
  | 0, _, _ => []
  | fuel + 1, n, kernels =>
    match kernels[n]? with
    | none => []
    | some kernel =>
      let items := kernel.closure g firsts
      let (found, kernels) := moves g items kernels (items.nextSymbols g)
      ⟨kernel, items, found⟩ :: explore g firsts fuel (n + 1) kernels

/-- The kernel of the initial set. -/
def startKernel : ItemSet := [(⟨0, 0⟩, .empty)]

/-- How many item sets there can be: each item is missing, or it is there with a set
    of lookaheads. -/
def bound (g : Lowered) : Nat :=
  let items := g.productions.toList.foldl (fun n p => n + (p.rhs.length + 1)) 0
  Nat.pow 2 (items * (g.numTerminals + 1))

/-- The canonical collection of a grammar. -/
def ofLowered (g : Lowered) : List CollectionState :=
  explore g (.ofLowered g) (bound g + 1) 0 #[startKernel]

end Collection

end LanguageWorkbench
