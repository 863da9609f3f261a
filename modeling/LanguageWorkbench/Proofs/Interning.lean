import LanguageWorkbench.Proofs.Outcome
import LanguageWorkbench.Schema

/-!
# Nodes that checked constructors would build

A node is interned in a store if the store finds it and the checked constructors of a
schema allow it, at every position. Rebuilding such a node gives back the very node and
leaves the store alone.

Results:
* `Schema.rebuild`: building a node again, from the leaves up.
* `Store.Interned`: nodes that a store finds and a schema allows.
* `Store.Interned.rebuild_eq`: rebuilding an interned node changes nothing.
* `Store.Interns.leaf`, `Store.Interns.tree`: stores whose nodes are all interned.
-/

namespace LanguageWorkbench

/-! ## Rebuilding -/

namespace Schema

mutual

/-- Builds a node again by the checked constructors, from the leaves up. -/
def rebuild (s : Schema) : Node → Store → Except Fault (Node × Store)
  | .nothing, store => .ok (.nothing, store)
  | .leaf _ kind text, store => s.terminal store (s.nameOf kind) text
  | .tree _ kind _ children, store => do
    let (children, store) ← s.rebuildAll children store
    s.create store (s.nameOf kind) children

/-- Builds nodes again, left to right. -/
def rebuildAll (s : Schema) : List Node → Store → Except Fault (List Node × Store)
  | [], store => .ok ([], store)
  | n :: rest, store => do
    let (n, store) ← s.rebuild n store
    let (rest, store) ← s.rebuildAll rest store
    return (n :: rest, store)

end

end Schema

namespace Store

variable {s : Schema} {store store' store'' : Store}

/-- Nodes that a store finds and that the checked constructors of a schema allow. -/
inductive Interned (s : Schema) (store : Store) : Node → Prop
  | nothing : Interned s store .nothing
  | leaf {id : NodeId} {kind : Kind} {text : String} :
      store.leaves.lookup (kind, text) = some (.leaf id kind text) →
      (∀ store' : Store, s.terminal store' (s.nameOf kind) text = .ok (store'.leaf kind text)) →
      Interned s store (.leaf id kind text)
  | tree {id : NodeId} {kind : Kind} {tokens : Nat} {children : List Node} :
      (∀ child ∈ children, Interned s store child) →
      store.trees.lookup (kind, children.map Node.id?) = some (.tree id kind tokens children) →
      (∀ store' : Store, s.create store' (s.nameOf kind) children = store'.checkedTree kind children) →
      Interned s store (.tree id kind tokens children)

theorem Interned.rebuildAll_eq {nodes : List Node}
    (h : ∀ n ∈ nodes, s.rebuild n store = .ok (n, store)) :
    s.rebuildAll nodes store = .ok (nodes, store) := by
  induction nodes with
  | nil => rfl
  | cons n rest ih =>
    obtain ⟨hn, hrest⟩ := List.forall_mem_cons.1 h
    rw [Schema.rebuildAll, hn]
    exact bind_eq_ok_iff.2 ⟨(n, store), rfl, bind_eq_ok_iff.2 ⟨(rest, store), ih hrest, rfl⟩⟩

/-- Rebuilding an interned node gives back the node. -/
theorem Interned.rebuild_eq {n : Node} (h : Interned s store n) :
    s.rebuild n store = .ok (n, store) := by
  induction h with
  | nothing => rfl
  | leaf hfind hallowed =>
    rw [Schema.rebuild, hallowed]
    simp [Store.leaf, hfind]
  | tree _ hfind hallowed ih =>
    rw [Schema.rebuild, rebuildAll_eq ih]
    refine bind_eq_ok_iff.2 ⟨_, rfl, ?_⟩
    simp only [hallowed]
    simp [Store.checkedTree, hfind]

mutual

/-- Every position of an interned node is interned. -/
theorem Interned.of_mem_visitsUnder : ∀ {n : Node} {parent : Option Kind} {v : Node.Visit},
    Interned s store n → v ∈ n.visitsUnder parent → Interned s store v.node
  | .nothing, _, v, h, hv => by
    simp only [Node.visitsUnder, List.mem_cons, List.not_mem_nil, or_false] at hv
    rcases hv with rfl | rfl <;> exact h
  | .leaf .., _, v, h, hv => by
    simp only [Node.visitsUnder, List.mem_cons, List.not_mem_nil, or_false] at hv
    rcases hv with rfl | rfl <;> exact h
  | .tree id kind tokens children, _, v, h, hv => by
    simp only [Node.visitsUnder, List.mem_cons, List.mem_append, List.not_mem_nil, or_false] at hv
    rcases hv with rfl | hv | rfl
    · exact h
    · cases h with
      | tree hchildren _ _ => exact Interned.of_mem_visitsOf hchildren hv
    · exact h

theorem Interned.of_mem_visitsOf : ∀ {nodes : List Node} {parent : Option Kind} {v : Node.Visit},
    (∀ n ∈ nodes, Interned s store n) → v ∈ Node.visitsOf parent nodes → Interned s store v.node
  | [], _, v, _, hv => by simp [Node.visitsOf] at hv
  | n :: rest, _, v, h, hv => by
    obtain ⟨hn, hrest⟩ := List.forall_mem_cons.1 h
    rcases List.mem_append.1 hv with hv | hv
    · exact Interned.of_mem_visitsUnder hn hv
    · exact Interned.of_mem_visitsOf hrest hv

end

/-! ## Stores that grow -/

/-- The second store finds what the first does. -/
structure Extends (store store' : Store) : Prop where
  leaves : ∀ key n, store.leaves.lookup key = some n → store'.leaves.lookup key = some n
  trees : ∀ key n, store.trees.lookup key = some n → store'.trees.lookup key = some n

theorem Extends.refl (store : Store) : store.Extends store :=
  ⟨fun _ _ h => h, fun _ _ h => h⟩

theorem Extends.trans (h : store.Extends store') (h' : store'.Extends store'') :
    store.Extends store'' :=
  ⟨fun k n hk => h'.leaves k n (h.leaves k n hk), fun k n hk => h'.trees k n (h.trees k n hk)⟩

theorem Interned.mono {n : Node} (h : Interned s store n) (hext : store.Extends store') :
    Interned s store' n := by
  induction h with
  | nothing => exact .nothing
  | leaf hfind hallowed => exact .leaf (hext.leaves _ _ hfind) hallowed
  | tree _ hfind hallowed ih => exact .tree ih (hext.trees _ _ hfind) hallowed

/-- Everything that a store finds is interned and of the kind it was asked for. -/
structure Interns (s : Schema) (store : Store) : Prop where
  leaf : ∀ {kind : Kind} {text : String} {n : Node},
    store.leaves.lookup (kind, text) = some n → Interned s store n ∧ n.kind? = some kind
  tree : ∀ {kind : Kind} {ids : List (Option NodeId)} {n : Node},
    store.trees.lookup (kind, ids) = some n → Interned s store n ∧ n.kind? = some kind

theorem interns_empty (s : Schema) (realm : Nat) : Interns s (.empty realm) :=
  .mk (fun h => nomatch h) (fun h => nomatch h)

/-- A new entry is found, and so are the others. -/
theorem lookup_cons_of_none {α β : Type} [BEq α] [LawfulBEq α] {l : List (α × β)} {key : α}
    {v : β} (hnone : l.lookup key = none) {k : α} {w : β} :
    ((key, v) :: l).lookup k = some w ↔ k = key ∧ w = v ∨ l.lookup k = some w := by
  rw [List.lookup_cons]
  by_cases hk : k = key
  · subst hk
    simp [hnone, eq_comm]
  · have : (k == key) = false := beq_false_of_ne hk
    simp [this, hk]

theorem Interns.leaf_spec (h : Interns s store) (kind : Kind) (text : String)
    (hallowed : ∀ store' : Store,
      s.terminal store' (s.nameOf kind) text = .ok (store'.leaf kind text)) :
    Interns s (store.leaf kind text).2 ∧ store.Extends (store.leaf kind text).2 ∧
      Interned s (store.leaf kind text).2 (store.leaf kind text).1 ∧
      (store.leaf kind text).1.kind? = some kind := by
  unfold Store.leaf
  split
  · rename_i n hfind
    exact ⟨h, .refl store, h.leaf hfind⟩
  · rename_i hnone
    have hext : store.Extends { store with
        leaves := ((kind, text), .leaf store.nextId kind text) :: store.leaves } :=
      ⟨fun k n hk => (lookup_cons_of_none hnone).2 (.inr hk), fun k n hk => hk⟩
    have hnew : Interned s { store with
        leaves := ((kind, text), .leaf store.nextId kind text) :: store.leaves }
        (.leaf store.nextId kind text) :=
      .leaf ((lookup_cons_of_none hnone).2 (.inl ⟨rfl, rfl⟩)) hallowed
    refine ⟨⟨fun hfind => ?_, fun hfind => ?_⟩, hext, hnew, rfl⟩
    · rcases (lookup_cons_of_none hnone).1 hfind with ⟨hkey, rfl⟩ | hfind
      · exact ⟨hnew, by rw [(Prod.mk.inj hkey).1]; rfl⟩
      · exact ⟨(h.leaf hfind).1.mono hext, (h.leaf hfind).2⟩
    · exact ⟨(h.tree hfind).1.mono hext, (h.tree hfind).2⟩

theorem Interns.tree_spec (h : Interns s store) (kind : Kind) {children : List Node}
    (hchildren : ∀ child ∈ children, Interned s store child)
    (hallowed : ∀ store' : Store,
      s.create store' (s.nameOf kind) children = store'.checkedTree kind children) :
    Interns s (store.tree kind children).2 ∧ store.Extends (store.tree kind children).2 ∧
      Interned s (store.tree kind children).2 (store.tree kind children).1 ∧
      (store.tree kind children).1.kind? = some kind := by
  unfold Store.tree
  dsimp only
  split
  · rename_i n hfind
    exact ⟨h, .refl store, h.tree hfind⟩
  · rename_i hnone
    have hext : store.Extends { store with trees := ((kind, children.map Node.id?),
        .tree store.nextId kind (Node.tokensOf children) children) :: store.trees } :=
      ⟨fun k n hk => hk, fun k n hk => (lookup_cons_of_none hnone).2 (.inr hk)⟩
    have hnew : Interned s { store with trees := ((kind, children.map Node.id?),
        .tree store.nextId kind (Node.tokensOf children) children) :: store.trees }
        (.tree store.nextId kind (Node.tokensOf children) children) :=
      .tree (fun child hchild => (hchildren child hchild).mono hext)
        ((lookup_cons_of_none hnone).2 (.inl ⟨rfl, rfl⟩)) hallowed
    refine ⟨⟨fun hfind => ?_, fun hfind => ?_⟩, hext, hnew, rfl⟩
    · exact ⟨(h.leaf hfind).1.mono hext, (h.leaf hfind).2⟩
    · rcases (lookup_cons_of_none hnone).1 hfind with ⟨hkey, rfl⟩ | hfind
      · exact ⟨hnew, by rw [(Prod.mk.inj hkey).1]; rfl⟩
      · exact ⟨(h.tree hfind).1.mono hext, (h.tree hfind).2⟩

end Store

end LanguageWorkbench
