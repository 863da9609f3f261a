import LanguageWorkbench.Fault
import LanguageWorkbench.Node.Basic

/-!
# Node stores

A store makes nodes and hands back the node it has already made when asked for the
same content again. A leaf is found by its kind and text, a tree by its kind and
the identities of its children, so children must come from the same store.

* `Store.leaf`, `Store.tree`: the two ways to get a node, each with the store after
  it.
* `Store.checkedTree`: a tree over any nodes, whose leaves may be too many to count.
* `Store.fork`: a store with the same nodes that makes new ones apart.
-/

namespace LanguageWorkbench

/-- A store of nodes, newest first. -/
structure Store where
  /-- The realm of the identities of new nodes. -/
  realm : Nat
  leaves : List ((Kind × String) × Node)
  trees : List ((Kind × List (Option NodeId)) × Node)
deriving Repr

namespace Store

/-- The store without nodes that makes nodes of the given realm. -/
def empty (realm : Nat) : Store := ⟨realm, [], []⟩

/-- The number of nodes. -/
def size (s : Store) : Nat := s.leaves.length + s.trees.length

/-- The identity of the next new node. -/
def nextId (s : Store) : NodeId := ⟨s.realm, s.size⟩

/-- The leaf with a kind and text. -/
def leaf (s : Store) (kind : Kind) (text : String) : Node × Store :=
  match s.leaves.lookup (kind, text) with
  | some n => (n, s)
  | none =>
    let n := .leaf s.nextId kind text
    (n, { s with leaves := ((kind, text), n) :: s.leaves })

/-- The tree with a kind and children. A parser makes trees with no more leaves than it was
    fed tokens, which a machine word counts. -/
def tree (s : Store) (kind : Kind) (children : List Node) : Node × Store :=
  let key := (kind, children.map Node.id?)
  match s.trees.lookup key with
  | some n => (n, s)
  | none =>
    let n := .tree s.nextId kind (Node.tokensOf children) children
    (n, { s with trees := (key, n) :: s.trees })

/-- How far a machine word counts. -/
def wordLimit : Nat := 18446744073709551616

/-- Adds the numbers of leaves below nodes side by side to a sum, one after the other. -/
def addTokens (sum : Nat) : List Node → Except Fault Nat
  | [] => .ok sum
  | n :: rest =>
    if sum + n.tokens < wordLimit then addTokens (sum + n.tokens) rest else .error .sumTooLarge

/-- The tree with a kind and children that any caller may have put together. The leaves of a new
    tree are counted, and they may be too many, since a node can be its child several times. -/
def checkedTree (s : Store) (kind : Kind) (children : List Node) :
    Except Fault (Node × Store) :=
  let key := (kind, children.map Node.id?)
  match s.trees.lookup key with
  | some n => .ok (n, s)
  | none => do
    let tokens ← addTokens 0 children
    let n := .tree s.nextId kind tokens children
    return (n, { s with trees := (key, n) :: s.trees })

/-- A store with the same nodes. The two make new nodes in different realms, so
    they share only what was there before. -/
def fork (s : Store) (realm : Nat) : Store := { s with realm }

@[simp] theorem size_empty (realm : Nat) : (empty realm).size = 0 := rfl

/-! ## Trees of any nodes -/

theorem addTokens_eq {sum : Nat} (h : sum < wordLimit) (nodes : List Node) :
    addTokens sum nodes =
      if sum + Node.tokensOf nodes < wordLimit then .ok (sum + Node.tokensOf nodes)
      else .error .sumTooLarge := by
  induction nodes generalizing sum with
  | nil => rw [addTokens, Node.tokensOf, Nat.add_zero, if_pos h]
  | cons n rest ih =>
    rw [addTokens, Node.tokensOf, ← Nat.add_assoc]
    by_cases hn : sum + n.tokens < wordLimit
    · rw [if_pos hn, ih hn]
    · rw [if_neg hn, if_neg (by omega)]

example (id : NodeId) : addTokens (wordLimit - 1) [.leaf id 0 "x"] = .error .sumTooLarge := rfl

/-- A tree is handed back if it is there already, or if its leaves can be counted. -/
theorem checkedTree_eq (s : Store) (kind : Kind) (children : List Node) :
    s.checkedTree kind children =
      if (s.trees.lookup (kind, children.map Node.id?)).isSome = true ∨
        Node.tokensOf children < wordLimit
      then .ok (s.tree kind children) else .error .sumTooLarge := by
  unfold checkedTree tree
  dsimp only
  cases hfound : s.trees.lookup (kind, children.map Node.id?) with
  | some n => simp
  | none =>
    rw [addTokens_eq (by decide), Nat.zero_add]
    by_cases hcount : Node.tokensOf children < wordLimit
    · rw [if_pos hcount, if_pos (.inr hcount)]
      rfl
    · rw [if_neg hcount, if_neg (by simp [hcount])]
      rfl

theorem eq_tree_of_checkedTree {s s' : Store} {kind : Kind} {children : List Node} {n : Node}
    (h : s.checkedTree kind children = .ok (n, s')) : (n, s') = s.tree kind children := by
  rw [checkedTree_eq] at h
  split at h
  · exact (Except.ok.inj h).symm
  · cases h

end Store

end LanguageWorkbench
