/-!
# Syntax trees

A node is nothing, a leaf with a text, or a tree with children. Nothing stands for
an absent optional element. Leaves and trees carry an identity, which the store
that made them gives out, so two nodes can be equal in content and still be
different nodes.

* `Node.same` compares identities, `Node.equal` contents.
* `Node.leaves` lists the leaves with the kinds of the trees directly above them.
* `Node.visits` is a depth-first walk.
-/

namespace LanguageWorkbench

/-- The number of a kind of nodes. -/
abbrev Kind := Nat

/-- The identity of a node: the realm of the store that made it, and its serial
    number there. Stores with different realms never make the same identity. -/
structure NodeId where
  realm : Nat
  serial : Nat
deriving DecidableEq, Repr

/-- A syntax tree. A tree holds the number of leaves below it. -/
inductive Node where
  | nothing
  | leaf (id : NodeId) (kind : Kind) (text : String)
  | tree (id : NodeId) (kind : Kind) (tokens : Nat) (children : List Node)
deriving Repr, Inhabited

namespace Node

/-- Whether the node is nothing. -/
def isNothing : Node → Bool
  | nothing => true
  | _ => false

/-- The identity of a node; nothing has none. -/
def id? : Node → Option NodeId
  | nothing => none
  | leaf id .. | tree id .. => some id

/-- The kind of a node; nothing has none. -/
def kind? : Node → Option Kind
  | nothing => none
  | leaf _ kind _ | tree _ kind _ _ => some kind

/-- The number of leaves, as counted when the node was made. -/
def tokens : Node → Nat
  | nothing => 0
  | leaf .. => 1
  | tree _ _ tokens _ => tokens

/-- The number of leaves below nodes side by side. -/
def tokensOf : List Node → Nat
  | [] => 0
  | n :: rest => n.tokens + tokensOf rest

/-- The children of a tree. -/
def children : Node → List Node
  | tree _ _ _ children => children
  | _ => []

/-- The text of a leaf. -/
def text? : Node → Option String
  | leaf _ _ text => some text
  | _ => none

/-- Whether both are the same node, or both nothing. -/
def same (a b : Node) : Bool := a.id? = b.id?

/-! ## Contents -/

mutual

/-- Whether two nodes agree in everything but identity. -/
def equal : Node → Node → Bool
  | nothing, nothing => true
  | leaf _ k s, leaf _ l t => k = l && s = t
  | tree _ k m as, tree _ l n bs => k = l && m = n && equalAll as bs
  | _, _ => false

/-- Whether two lists agree node by node. -/
def equalAll : List Node → List Node → Bool
  | [], [] => true
  | a :: as, b :: bs => equal a b && equalAll as bs
  | _, _ => false

end

/-! ## Leaves -/

/-- A leaf seen from above: its kind, its text and the kind of the tree directly
    above it. -/
structure Leaf where
  kind : Kind
  text : String
  parent : Option Kind
deriving DecidableEq, Repr

mutual

/-- The leaves below a node whose parent has the given kind, left to right. -/
def leavesUnder (parent : Option Kind) : Node → List Leaf
  | nothing => []
  | leaf _ kind text => [⟨kind, text, parent⟩]
  | tree _ kind _ children => leavesOf (some kind) children

/-- The leaves below the children of a tree of the given kind. -/
def leavesOf (parent : Option Kind) : List Node → List Leaf
  | [] => []
  | n :: rest => leavesUnder parent n ++ leavesOf parent rest

end

/-- The leaves of a node, left to right. -/
def leaves (n : Node) : List Leaf := n.leavesUnder none

/-- The texts of the leaves, separated by single spaces. -/
def display (n : Node) : String := " ".intercalate (n.leaves.map (·.text))

/-! ## Walking -/

/-- One moment of a walk: a node is entered or left below a tree of some kind. -/
structure Visit where
  entering : Bool
  node : Node
  parent : Option Kind

mutual

/-- The walk of a node whose parent has the given kind. -/
def visitsUnder (parent : Option Kind) : Node → List Visit
  | nothing => [⟨true, nothing, parent⟩, ⟨false, nothing, parent⟩]
  | leaf id kind text =>
    [⟨true, leaf id kind text, parent⟩, ⟨false, leaf id kind text, parent⟩]
  | tree id kind tokens children =>
    ⟨true, tree id kind tokens children, parent⟩ ::
      (visitsOf (some kind) children ++ [⟨false, tree id kind tokens children, parent⟩])

/-- The walks of the children of a tree of the given kind. -/
def visitsOf (parent : Option Kind) : List Node → List Visit
  | [] => []
  | n :: rest => visitsUnder parent n ++ visitsOf parent rest

end

/-- The depth-first walk of a node, children left to right. Every node is entered
    before and left after its children. -/
def visits (n : Node) : List Visit := n.visitsUnder none

end Node

end LanguageWorkbench
