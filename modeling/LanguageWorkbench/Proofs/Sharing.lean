import LanguageWorkbench.Node.Store
import LanguageWorkbench.Proofs.Outcome
import Mathlib.Logic.Relation
import Mathlib.Tactic.Common

/-!
# What a store hands back

Asked for a leaf or a tree, a store may hand back a node that it made long ago. As long as
children are nodes of the store, it is the leaf or the tree that was asked for: no two
nodes of a store have the same identity, so the identities of the children tell which
children they are.

Results:
* `Store.Calls`: the stores that calls make of a store.
* `Store.Sound`: every entry holds what it was made for, and identities are unique.
* `Store.Sound.leaf_spec`, `Store.Sound.tree_spec`: the nodes that are handed back.
-/

namespace LanguageWorkbench

namespace Store

variable {s s' : Store} {n : Node}

/-! ## Nodes of a store -/

/-- The nodes that the store has made. -/
def nodes (s : Store) : List Node := s.leaves.map Prod.snd ++ s.trees.map Prod.snd

/-- The node is nothing, or the store has made it. -/
def Holds (s : Store) (n : Node) : Prop := n = .nothing ∨ n ∈ s.nodes

/-- One call: of a leaf, of a tree over nodes of the store, or for a store that makes new
    nodes in another realm. -/
inductive Call : Store → Store → Prop
  | leaf (s : Store) (kind : Kind) (text : String) : Call s (s.leaf kind text).2
  | tree {s : Store} {children : List Node} (kind : Kind) (h : ∀ c ∈ children, s.Holds c) :
      Call s (s.tree kind children).2
  | fork (s : Store) (realm : Nat) : Call s (s.fork realm)

/-- Any number of calls. -/
def Calls : Store → Store → Prop := Relation.ReflTransGen Call

theorem mem_nodes : n ∈ s.nodes ↔
    (∃ key, (key, n) ∈ s.leaves) ∨ ∃ key, (key, n) ∈ s.trees := by
  simp [nodes]

/-! ## Soundness -/

/-- Every entry holds what it was made for, over nodes of the store, and no two nodes have
    the same identity. -/
structure Sound (s : Store) : Prop where
  leaf : ∀ {kind : Kind} {text : String} {n : Node}, ((kind, text), n) ∈ s.leaves →
    ∃ id, n = .leaf id kind text
  tree : ∀ {kind : Kind} {ids : List (Option NodeId)} {n : Node}, ((kind, ids), n) ∈ s.trees →
    ∃ id children, n = .tree id kind (Node.tokensOf children) children ∧
      ids = children.map Node.id? ∧ ∀ c ∈ children, s.Holds c
  serial : ∀ n ∈ s.nodes, ∃ id, n.id? = some id ∧ id.serial < s.size
  unique : ∀ n ∈ s.nodes, ∀ n' ∈ s.nodes, n.id? = n'.id? → n = n'

theorem sound_empty (realm : Nat) : (empty realm).Sound where
  leaf h := absurd h List.not_mem_nil
  tree h := absurd h List.not_mem_nil
  serial _ h := absurd h List.not_mem_nil
  unique _ h := absurd h List.not_mem_nil

/-- Nodes of a store with the same identity are the same, and nothing has none. -/
theorem Sound.eq_of_id? (h : s.Sound) {n n' : Node} (hn : s.Holds n) (hn' : s.Holds n')
    (hid : n.id? = n'.id?) : n = n' := by
  rcases hn with rfl | hn
  · rcases hn' with rfl | hn'
    · rfl
    · obtain ⟨id, hsome, -⟩ := h.serial n' hn'
      rw [hsome] at hid
      cases hid
  · rcases hn' with rfl | hn'
    · obtain ⟨id, hsome, -⟩ := h.serial n hn
      rw [hsome] at hid
      cases hid
    · exact h.unique n hn n' hn' hid

theorem Sound.eq_of_map_id? (h : s.Sound) {ns ns' : List Node} (hns : ∀ n ∈ ns, s.Holds n)
    (hns' : ∀ n ∈ ns', s.Holds n) (hid : ns.map Node.id? = ns'.map Node.id?) : ns = ns' := by
  induction ns generalizing ns' with
  | nil => exact (List.map_eq_nil_iff.1 hid.symm).symm
  | cons n ns ih =>
    cases ns' with
    | nil => cases hid
    | cons n' ns' =>
      obtain ⟨hn, hns⟩ := List.forall_mem_cons.1 hns
      obtain ⟨hn', hns'⟩ := List.forall_mem_cons.1 hns'
      obtain ⟨hhead, htail⟩ := List.cons.inj hid
      rw [h.eq_of_id? hn hn' hhead, ih hns hns' htail]

/-! ## Growing -/

/-- A new node keeps identities unique. -/
theorem unique_of_next (h : s.Sound) (new : Node) (hnew : new.id? = some s.nextId)
    (hnodes : ∀ n, n ∈ s'.nodes ↔ n = new ∨ n ∈ s.nodes) (hsize : s'.size = s.size + 1) :
    (∀ n ∈ s'.nodes, ∃ id, n.id? = some id ∧ id.serial < s'.size) ∧
      ∀ n ∈ s'.nodes, ∀ n' ∈ s'.nodes, n.id? = n'.id? → n = n' := by
  have hother : ∀ n ∈ s.nodes, n.id? ≠ some s.nextId := by
    intro n hn heq
    obtain ⟨id, hid, hlt⟩ := h.serial n hn
    rw [hid, Option.some.injEq] at heq
    subst heq
    exact Nat.lt_irrefl _ hlt
  constructor
  · intro n hn
    rcases (hnodes n).1 hn with rfl | hn
    · exact ⟨_, hnew, by rw [hsize]; exact Nat.lt_succ_self _⟩
    · obtain ⟨id, hid, hlt⟩ := h.serial n hn
      exact ⟨id, hid, by omega⟩
  · intro n hn n' hn' hid
    rcases (hnodes n).1 hn with rfl | hn <;> rcases (hnodes n').1 hn' with rfl | hn'
    · rfl
    · exact absurd (hid.symm.trans hnew) (hother n' hn')
    · exact absurd (hid.trans hnew) (hother n hn)
    · exact h.unique n hn n' hn' hid

/-- The store hands back the leaf that was asked for. -/
theorem Sound.leaf_spec (h : s.Sound) (kind : Kind) (text : String) :
    (s.leaf kind text).2.Sound ∧ (∀ n, s.Holds n → (s.leaf kind text).2.Holds n) ∧
      (s.leaf kind text).2.Holds (s.leaf kind text).1 ∧
      ∃ id, (s.leaf kind text).1 = .leaf id kind text := by
  unfold Store.leaf
  split
  · rename_i n hfind
    have hmem := mem_of_lookup hfind
    exact ⟨h, fun _ hn => hn, .inr (mem_nodes.2 (.inl ⟨_, hmem⟩)), h.leaf hmem⟩
  · have hnodes : ∀ n, n ∈ nodes { s with
        leaves := ((kind, text), .leaf s.nextId kind text) :: s.leaves } ↔
          n = .leaf s.nextId kind text ∨ n ∈ s.nodes := by
      intro n
      simp [nodes]
    obtain ⟨hserial, hunique⟩ := unique_of_next h (.leaf s.nextId kind text) rfl hnodes
      (by simp only [size, List.length_cons]; omega)
    have hholds : ∀ n, s.Holds n → Holds { s with
        leaves := ((kind, text), .leaf s.nextId kind text) :: s.leaves } n :=
      fun n hn => hn.imp_right fun hn => (hnodes n).2 (.inr hn)
    refine ⟨⟨fun hmem => ?_, fun hmem => ?_, hserial, hunique⟩, hholds,
      .inr ((hnodes _).2 (.inl rfl)), _, rfl⟩
    · rcases List.mem_cons.1 hmem with heq | hmem
      · obtain ⟨hkey, rfl⟩ := Prod.mk.inj heq
        obtain ⟨rfl, rfl⟩ := Prod.mk.inj hkey
        exact ⟨_, rfl⟩
      · exact h.leaf hmem
    · obtain ⟨id, children, rfl, hids, hchildren⟩ := h.tree hmem
      exact ⟨id, children, rfl, hids, fun c hc => hholds c (hchildren c hc)⟩

/-- Over nodes of its own, the store hands back the tree that was asked for. -/
theorem Sound.tree_spec (h : s.Sound) (kind : Kind) {children : List Node}
    (hchildren : ∀ c ∈ children, s.Holds c) :
    (s.tree kind children).2.Sound ∧ (∀ n, s.Holds n → (s.tree kind children).2.Holds n) ∧
      (s.tree kind children).2.Holds (s.tree kind children).1 ∧
      ∃ id, (s.tree kind children).1 = .tree id kind (Node.tokensOf children) children := by
  unfold Store.tree
  dsimp only
  split
  · rename_i n hfind
    have hmem := mem_of_lookup hfind
    obtain ⟨id, children', rfl, hids, hchildren'⟩ := h.tree hmem
    obtain rfl := h.eq_of_map_id? hchildren hchildren' hids
    exact ⟨h, fun _ hn => hn, .inr (mem_nodes.2 (.inr ⟨_, hmem⟩)), id, rfl⟩
  · have hnodes : ∀ n, n ∈ nodes { s with trees := ((kind, children.map Node.id?),
        .tree s.nextId kind (Node.tokensOf children) children) :: s.trees } ↔
          n = .tree s.nextId kind (Node.tokensOf children) children ∨ n ∈ s.nodes := by
      intro n
      simp only [nodes, List.map_cons, List.mem_append, List.mem_cons]
      exact or_left_comm
    obtain ⟨hserial, hunique⟩ := unique_of_next h
      (.tree s.nextId kind (Node.tokensOf children) children) rfl hnodes
      (by simp only [size, List.length_cons]; omega)
    have hholds : ∀ n, s.Holds n → Holds { s with trees := ((kind, children.map Node.id?),
        .tree s.nextId kind (Node.tokensOf children) children) :: s.trees } n :=
      fun n hn => hn.imp_right fun hn => (hnodes n).2 (.inr hn)
    refine ⟨⟨fun hmem => h.leaf hmem, fun hmem => ?_, hserial, hunique⟩, hholds,
      .inr ((hnodes _).2 (.inl rfl)), _, rfl⟩
    rcases List.mem_cons.1 hmem with heq | hmem
    · obtain ⟨hkey, rfl⟩ := Prod.mk.inj heq
      obtain ⟨rfl, rfl⟩ := Prod.mk.inj hkey
      exact ⟨_, children, rfl, rfl, fun c hc => hholds c (hchildren c hc)⟩
    · obtain ⟨id, children', rfl, hids, hchildren'⟩ := h.tree hmem
      exact ⟨id, children', rfl, hids, fun c hc => hholds c (hchildren' c hc)⟩

theorem Sound.fork (h : s.Sound) (realm : Nat) : (s.fork realm).Sound :=
  ⟨h.leaf, h.tree, h.serial, h.unique⟩

/-- Calls keep a store sound, and it keeps its nodes. -/
theorem Calls.spec (hcalls : Calls s s') (h : s.Sound) :
    s'.Sound ∧ ∀ n, s.Holds n → s'.Holds n := by
  induction hcalls with
  | refl => exact ⟨h, fun _ hn => hn⟩
  | tail _ hcall ih =>
    obtain ⟨hsound, hholds⟩ := ih
    cases hcall with
    | leaf kind text =>
      obtain ⟨hsound', hholds', -⟩ := hsound.leaf_spec kind text
      exact ⟨hsound', fun n hn => hholds' n (hholds n hn)⟩
    | tree kind hchildren =>
      obtain ⟨hsound', hholds', -⟩ := hsound.tree_spec kind hchildren
      exact ⟨hsound', fun n hn => hholds' n (hholds n hn)⟩
    | fork realm => exact ⟨hsound.fork realm, hholds⟩

end Store

end LanguageWorkbench
