import LanguageWorkbench.Schema

/-!
# Building trees from reductions

A shifted terminal becomes a leaf. A reduction becomes the tree of the rule its
production comes from: nothing goes back into the places of the absent optional
elements, and single values may stand for themselves.
-/

namespace LanguageWorkbench

/-- What the leaves and reductions of a lowered grammar build. -/
structure TreeBuilder where
  derivations : Array Derivation
  /-- The kind that each derivation names, if there is one. -/
  kinds : Array (Option Kind)
  /-- The kind of each terminal, if there is one. -/
  terminals : Array (Option Kind)
deriving Repr

namespace TreeBuilder

/-- The builder for a lowered grammar, with the kinds of a schema. -/
def ofLowered (g : Lowered) (s : Schema) : TreeBuilder where
  derivations := g.derivations
  kinds := g.derivations.map fun d => s.kind? d.name
  terminals := g.terminals.map s.kind?

/-- The leaf of a shifted terminal. -/
def leaf (b : TreeBuilder) (store : Store) (terminal : Symbol) (text : String) :
    Except Fault (Node × Store) :=
  match b.terminals[terminal]? with
  | none => .error (.outOfRange b.terminals.size terminal)
  | some none => .error (.terminalWithoutKind terminal)
  | some (some kind) => .ok (store.leaf kind text)

/-- Puts nothing into the given places, one after the other. Since the places
    ascend, each is a place of the final list. -/
def splice (name : String) (values : List Node) : List Nat → Except Fault (List Node)
  | [] => .ok values
  | slot :: rest =>
    if values.length < slot then .error (.slotOutOfRange name slot values.length)
    else splice name (values.take slot ++ .nothing :: values.drop slot) rest

/-- The only value that is not nothing. -/
def onlyLive? (values : List Node) : Option Node :=
  match values.filter (!·.isNothing) with
  | [n] => some n
  | _ => none

/-- The value of a reduction by production `p`. A single value with nothing omitted
    stands for itself, and so does the only live value where the derivation
    collapses. -/
def reduce (b : TreeBuilder) (store : Store) (p : Nat) (values : List Node) :
    Except Fault (Node × Store) := do
  let some d := b.derivations[p]? | throw (.outOfRange b.derivations.size p)
  match values, d.omitted with
  | [only], [] => return (only, store)
  | _, _ =>
    let arguments ← splice d.name values d.omitted
    match if d.collapse then onlyLive? arguments else none with
    | some only => return (only, store)
    | none =>
      match b.kinds[p]? with
      | some (some kind) => return store.tree kind arguments
      | _ => throw (.derivationWithoutKind d.name)

end TreeBuilder

end LanguageWorkbench
