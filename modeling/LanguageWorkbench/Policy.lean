import LanguageWorkbench.Schema

/-!
# Printing trees

A tree is printed leaf by leaf. Between two leaves stands nothing, a space, or a
line break with the indentation of the blocks that are open. A policy says which
texts are glued to their neighbours, everywhere or below some kinds of trees, and
where the texts that structure blocks do not.

* `Policy.gap`: what stands before a leaf.
* `Policy.emit`: the printed form of a tree.
-/

namespace LanguageWorkbench

/-- Where texts are glued or do not structure blocks. A rule without a kind holds
    below any tree. -/
structure Policy where
  glueBefore : List (String × Option Kind)
  glueAfter : List (String × Option Kind)
  flat : List (String × Kind)
deriving DecidableEq, Repr

namespace Policy

/-- Nothing is glued. -/
def empty : Policy := ⟨[], [], []⟩

/-- Brackets, separators and member access are glued. -/
def default : Policy where
  glueBefore := [")", "[", "]", ",", ";", ".", "->"].map (·, none)
  glueAfter := ["(", "[", ".", "->"].map (·, none)
  flat := []

/-- Glues a text to what stands before it. -/
def addGlueBefore (p : Policy) (text : String) (parent : Option Kind) : Policy :=
  { p with glueBefore := (text, parent) :: p.glueBefore }

/-- Glues a text to what stands after it. -/
def addGlueAfter (p : Policy) (text : String) (parent : Option Kind) : Policy :=
  { p with glueAfter := (text, parent) :: p.glueAfter }

/-- Keeps a text on its line below a kind of trees. -/
def addFlat (p : Policy) (text : String) (parent : Kind) : Policy :=
  { p with flat := (text, parent) :: p.flat }

/-- Adds a spacing directive that holds below some kinds of trees. Glue that names
    no kind holds everywhere. -/
def addSpacing (p : Policy) (kind : SpacingKind) (text : String) (parents : List Kind) : Policy :=
  match kind with
  | .flat => parents.foldl (fun p parent => p.addFlat text parent) p
  | .glueBefore =>
    if parents.isEmpty then p.addGlueBefore text none
    else parents.foldl (fun p parent => p.addGlueBefore text (some parent)) p
  | .glueAfter =>
    if parents.isEmpty then p.addGlueAfter text none
    else parents.foldl (fun p parent => p.addGlueAfter text (some parent)) p

/-- The default policy with the spacing directives of a grammar. -/
def ofGrammar (g : Grammar) (s : Schema) : Policy :=
  g.spacing.foldl
    (fun p spacing =>
      p.addSpacing spacing.kind spacing.text
        (spacing.parents.flatMap fun id => s.concreteKinds (g.nameOf id)))
    default

/-! ## Reading a policy -/

/-- Whether a list of rules has one for a text below a tree. -/
def applies (rules : List (String × Option Kind)) (text : String) (parent : Option Kind) : Bool :=
  rules.contains (text, none) || (parent.isSome && rules.contains (text, parent))

/-- Whether a leaf is glued to what stands before it. -/
def gluesBefore (p : Policy) (l : Node.Leaf) : Bool := applies p.glueBefore l.text l.parent

/-- Whether a leaf is glued to what stands after it. -/
def gluesAfter (p : Policy) (l : Node.Leaf) : Bool := applies p.glueAfter l.text l.parent

/-- Whether a leaf is kept on its line. -/
def isFlat (p : Policy) (l : Node.Leaf) : Bool :=
  l.parent.any fun parent => p.flat.contains (l.text, parent)

/-- Whether a leaf structures blocks and has the given text. -/
def structures (p : Policy) (l : Node.Leaf) (text : String) : Bool := l.text = text && !p.isFlat l

/-- The text that opens a block. -/
def opener : String := "\x7b"

/-- The text that closes a block. -/
def closer : String := "\x7d"

/-! ## Printing -/

/-- What stands between two leaves. -/
inductive Gap where
  | none
  | space
  | newline
deriving DecidableEq, Repr

/-- What stands between a leaf and the one before it. Blocks and the ends of
    statements come first, and only then glue. -/
def gap (p : Policy) (prev l : Node.Leaf) : Gap :=
  if p.structures l closer then .newline
  else if p.structures prev ";" || p.structures prev opener then .newline
  else if p.structures prev closer then if l.text = ";" then .none else .newline
  else if p.structures l opener then .newline
  else if p.gluesAfter prev || p.gluesBefore l then .none
  else .space

/-- A gap as text, inside the given number of blocks. -/
def Gap.render (depth : Nat) : Gap → String
  | none => ""
  | space => " "
  | newline => "\n" ++ String.join (List.replicate depth "    ")

/-- The number of open blocks just before a leaf is printed. -/
def depthBefore (p : Policy) (depth : Nat) (l : Node.Leaf) : Nat :=
  if p.structures l closer then depth - 1 else depth

/-- The number of open blocks after a leaf. -/
def depthAfter (p : Policy) (depth : Nat) (l : Node.Leaf) : Nat :=
  let depth := p.depthBefore depth l
  if p.structures l opener then depth + 1 else depth

/-- The printed form of leaves that follow the leaf `prev`, if there is one, inside
    the given number of blocks. -/
def emitLeaves (p : Policy) : Nat → Option Node.Leaf → List Node.Leaf → String
  | _, _, [] => ""
  | depth, prev, l :: rest =>
    let before := match prev with
      | none => ""
      | some prev => (p.gap prev l).render (p.depthBefore depth l)
    before ++ l.text ++ p.emitLeaves (p.depthAfter depth l) (some l) rest

/-- The printed form of a node, which ends in a line break unless it is empty. -/
def emit (p : Policy) (n : Node) : String :=
  let text := p.emitLeaves 0 none n.leaves
  if text.isEmpty then "" else text ++ "\n"

end Policy

end LanguageWorkbench
