import LanguageWorkbench.Proofs.Sharing
import Mathlib.Data.List.Nodup
import Mathlib.Data.List.Pairwise

/-!
# One node for each content

A store has one entry for each key. Keys of trees hold identities of children, not what is in
them, so that two trees of the same content have the same key is shown from the leaves up.
Then nodes of a store that agree in content are the same node, and a new store has as many
nodes as it has handed back different ones.

Results:
* `Store.Answered`: calls on a new store, with the nodes that it handed back.
* `Store.Sound.eq_of_equal`: nodes of a store that agree in content are the same.
* `Store.exact_of_answered`: the nodes that are handed back, and how many there are.
-/

namespace LanguageWorkbench

/-! ## Contents -/

namespace Node

mutual

/-- Every node agrees with itself. -/
theorem equal_self : ∀ n : Node, n.equal n = true
  | .nothing => rfl
  | .leaf .. => by simp [equal]
  | .tree _ _ _ children => by simp [equal, equalAll_self children]

theorem equalAll_self : ∀ ns : List Node, equalAll ns ns = true
  | [] => rfl
  | n :: rest => by simp [equalAll, equal_self n, equalAll_self rest]

end

/-- The nodes of a list that differ in content, of nodes that agree the last. -/
def distinct (ns : List Node) : List Node := ns.pwFilter fun n n' => n.equal n' = false

variable {ns : List Node}

theorem nodup_distinct (ns : List Node) : (distinct ns).Nodup := by
  refine (List.pairwise_pwFilter ns).imp ?_
  rintro n _ h rfl
  rw [equal_self] at h
  cases h

/-- If nodes that agree in content are the same, every node is among the different ones. -/
theorem mem_distinct (h : ∀ n ∈ ns, ∀ n' ∈ ns, n.equal n' = true → n = n') {n : Node} :
    n ∈ distinct ns ↔ n ∈ ns := by
  refine ⟨fun hn => List.pwFilter_subset ns hn, fun hn => ?_⟩
  induction ns with
  | nil => exact hn
  | cons m ns ih =>
    have hrest : n ∈ ns → n ∈ distinct ns :=
      ih fun a ha b hb => h a (List.mem_cons_of_mem _ ha) b (List.mem_cons_of_mem _ hb)
    by_cases hall : ∀ m' ∈ distinct ns, m.equal m' = false
    · rw [distinct, List.pwFilter_cons_of_pos hall, List.mem_cons]
      exact (List.mem_cons.1 hn).imp_right hrest
    · rw [distinct, List.pwFilter_cons_of_neg hall]
      rcases List.mem_cons.1 hn with rfl | hn
      · -- the first node agrees with a later one
        push Not at hall
        obtain ⟨m', hm', heq⟩ := hall
        rw [ne_eq, Bool.not_eq_false] at heq
        have hmem := List.mem_cons_of_mem n (List.pwFilter_subset ns hm')
        rw [h n List.mem_cons_self m' hmem heq]
        exact hm'
      · exact hrest hn

end Node

namespace Store

variable {s : Store}

/-! ## Keys -/

/-- No two entries have the same key. -/
structure Keyed (s : Store) : Prop where
  leaves : (s.leaves.map Prod.fst).Nodup
  trees : (s.trees.map Prod.fst).Nodup

theorem keyed_empty (realm : Nat) : (empty realm).Keyed := ⟨List.nodup_nil, List.nodup_nil⟩

/-- An entry for a key that has none keeps the keys different. -/
theorem nodup_keys_cons {α β : Type} [BEq α] [LawfulBEq α] {l : List (α × β)} {key : α}
    (hnone : l.lookup key = none) (h : (l.map Prod.fst).Nodup) (v : β) :
    (((key, v) :: l).map Prod.fst).Nodup := by
  rw [List.map_cons, List.nodup_cons]
  refine ⟨fun hmem => ?_, h⟩
  obtain ⟨⟨_, v'⟩, he, rfl⟩ := List.mem_map.1 hmem
  exact not_mem_of_lookup hnone v' he

theorem Keyed.leaf (h : s.Keyed) (kind : Kind) (text : String) : (s.leaf kind text).2.Keyed := by
  unfold Store.leaf
  split
  · exact h
  · rename_i hnone
    exact ⟨nodup_keys_cons hnone h.leaves _, h.trees⟩

theorem Keyed.tree (h : s.Keyed) (kind : Kind) (children : List Node) :
    (s.tree kind children).2.Keyed := by
  unfold Store.tree
  dsimp only
  split
  · exact h
  · rename_i hnone
    exact ⟨h.leaves, nodup_keys_cons hnone h.trees _⟩

/-! ## Nodes and their entries -/

theorem Sound.mem_leaves (h : s.Sound) {id : NodeId} {kind : Kind} {text : String}
    (hn : s.Holds (.leaf id kind text)) : ((kind, text), .leaf id kind text) ∈ s.leaves := by
  obtain ⟨⟨kind', text'⟩, hmem⟩ | ⟨⟨kind', ids⟩, hmem⟩ := mem_nodes.1 (hn.resolve_left nofun)
  · obtain ⟨_, heq⟩ := h.leaf hmem
    cases heq
    exact hmem
  · obtain ⟨_, _, heq, -⟩ := h.tree hmem
    cases heq

theorem Sound.mem_trees (h : s.Sound) {id : NodeId} {kind : Kind} {tokens : Nat}
    {children : List Node} (hn : s.Holds (.tree id kind tokens children)) :
    ((kind, children.map Node.id?), .tree id kind tokens children) ∈ s.trees ∧
      ∀ c ∈ children, s.Holds c := by
  obtain ⟨⟨kind', text⟩, hmem⟩ | ⟨⟨kind', ids⟩, hmem⟩ := mem_nodes.1 (hn.resolve_left nofun)
  · obtain ⟨_, heq⟩ := h.leaf hmem
    cases heq
  · obtain ⟨_, _, heq, rfl, hchildren⟩ := h.tree hmem
    cases heq
    exact ⟨hmem, hchildren⟩

mutual

/-- Nodes of a store that agree in content are the same node. -/
theorem Sound.eq_of_equal (h : s.Sound) (hk : s.Keyed) : ∀ {n n' : Node}, s.Holds n →
    s.Holds n' → n.equal n' = true → n = n'
  | .nothing, .nothing, _, _, _ => rfl
  | .leaf id kind text, .leaf id' kind' text', hn, hn', heq => by
    simp only [Node.equal, Bool.and_eq_true, decide_eq_true_eq] at heq
    obtain ⟨rfl, rfl⟩ := heq
    exact (Prod.mk.inj
      (List.inj_on_of_nodup_map hk.leaves (h.mem_leaves hn) (h.mem_leaves hn') rfl)).2
  | .tree id kind tokens children, .tree id' kind' tokens' children', hn, hn', heq => by
    simp only [Node.equal, Bool.and_eq_true, decide_eq_true_eq] at heq
    obtain ⟨⟨rfl, rfl⟩, hall⟩ := heq
    obtain ⟨hmem, hchildren⟩ := h.mem_trees hn
    obtain ⟨hmem', hchildren'⟩ := h.mem_trees hn'
    -- the children are the same nodes, so their identities are the same key
    obtain rfl := Sound.eq_of_equalAll h hk hchildren hchildren' hall
    exact (Prod.mk.inj (List.inj_on_of_nodup_map hk.trees hmem hmem' rfl)).2
  | .nothing, .leaf .., _, _, heq | .nothing, .tree .., _, _, heq
  | .leaf .., .nothing, _, _, heq | .leaf .., .tree .., _, _, heq
  | .tree .., .nothing, _, _, heq | .tree .., .leaf .., _, _, heq => by cases heq

theorem Sound.eq_of_equalAll (h : s.Sound) (hk : s.Keyed) : ∀ {ns ns' : List Node},
    (∀ n ∈ ns, s.Holds n) → (∀ n ∈ ns', s.Holds n) → Node.equalAll ns ns' = true → ns = ns'
  | [], [], _, _, _ => rfl
  | n :: ns, n' :: ns', hns, hns', heq => by
    rw [Node.equalAll, Bool.and_eq_true] at heq
    obtain ⟨hn, hns⟩ := List.forall_mem_cons.1 hns
    obtain ⟨hn', hns'⟩ := List.forall_mem_cons.1 hns'
    rw [Sound.eq_of_equal h hk hn hn' heq.1, Sound.eq_of_equalAll h hk hns hns' heq.2]
  | [], _ :: _, _, _, heq | _ :: _, [], _, _, heq => by cases heq

end

/-- The same node has the same content, and the other way round. -/
theorem Sound.same_iff (h : s.Sound) (hk : s.Keyed) {n n' : Node} (hn : s.Holds n)
    (hn' : s.Holds n') : n.same n' = true ↔ n.equal n' = true := by
  rw [Node.same, decide_eq_true_eq]
  constructor
  · intro hid
    rw [h.eq_of_id? hn hn' hid]
    exact Node.equal_self n'
  · intro heq
    rw [h.eq_of_equal hk hn hn' heq]

/-- Every node has one entry only. -/
theorem Sound.nodup_nodes (h : s.Sound) (hk : s.Keyed) : s.nodes.Nodup := by
  rw [nodes, List.nodup_append]
  refine ⟨(hk.leaves.of_map _).map_on ?_, (hk.trees.of_map _).map_on ?_, ?_⟩
  · rintro ⟨⟨kind, text⟩, n⟩ he ⟨⟨kind', text'⟩, _⟩ he' rfl
    obtain ⟨_, rfl⟩ := h.leaf he
    obtain ⟨_, heq⟩ := h.leaf he'
    cases heq
    rfl
  · rintro ⟨⟨kind, ids⟩, n⟩ he ⟨⟨kind', ids'⟩, _⟩ he' rfl
    obtain ⟨_, _, hn, rfl, -⟩ := h.tree he
    obtain ⟨_, _, hn', rfl, -⟩ := h.tree he'
    obtain ⟨-, rfl, -, rfl⟩ := Node.tree.inj (hn.symm.trans hn')
    rfl
  · intro n hn n' hn' heq
    obtain ⟨⟨⟨kind, text⟩, _⟩, he, rfl⟩ := List.mem_map.1 hn
    obtain ⟨⟨⟨kind', ids⟩, _⟩, he', rfl⟩ := List.mem_map.1 hn'
    obtain ⟨_, hleaf⟩ := h.leaf he
    obtain ⟨_, _, htree, -⟩ := h.tree he'
    rw [hleaf, htree] at heq
    cases heq

/-! ## Calls and their answers -/

/-- What a store is asked for. -/
inductive Request where
  | leaf (kind : Kind) (text : String)
  | tree (kind : Kind) (children : List Node)

namespace Request

/-- The nodes that the answer is made of. -/
def children : Request → List Node
  | leaf .. => []
  | tree _ children => children

/-- The node has the kind that is asked for, and exactly the text or the children. -/
def IsMetBy : Request → Node → Prop
  | leaf kind text, n => ∃ id, n = .leaf id kind text
  | tree kind children, n => ∃ id, n = .tree id kind (Node.tokensOf children) children

end Request

/-- What the store hands back, with the store after it, unless there are too many leaves. -/
def ask (s : Store) : Request → Except Fault (Node × Store)
  | .leaf kind text => .ok (s.leaf kind text)
  | .tree kind children => s.checkedTree kind children

/-- Calls on a new store with the nodes that were handed back, the last call first, and the
    store after them. The children in a call are nothing or nodes handed back before. -/
inductive Answered (realm : Nat) : List (Request × Node) → Store → Prop
  | new : Answered realm [] (.empty realm)
  | ask {calls : List (Request × Node)} {s s' : Store} {n : Node} (r : Request)
      (h : Answered realm calls s)
      (hchildren : ∀ c ∈ r.children, c = .nothing ∨ c ∈ calls.map Prod.snd)
      (hask : s.ask r = .ok (n, s')) : Answered realm ((r, n) :: calls) s'

theorem Keyed.ask (h : s.Keyed) {r : Request} {n : Node} {s' : Store}
    (hask : s.ask r = .ok (n, s')) : s'.Keyed := by
  cases r with
  | leaf kind text =>
    obtain ⟨rfl, rfl⟩ := Prod.mk.inj (Except.ok.inj hask)
    exact h.leaf kind text
  | tree kind children =>
    obtain ⟨rfl, rfl⟩ := Prod.mk.inj (eq_tree_of_checkedTree hask)
    exact h.tree kind children

/-- The store hands back what was asked for. -/
theorem Sound.ask_spec (h : s.Sound) {r : Request} (hr : ∀ c ∈ r.children, s.Holds c) {n : Node}
    {s' : Store} (hask : s.ask r = .ok (n, s')) : s'.Sound ∧ r.IsMetBy n := by
  cases r with
  | leaf kind text =>
    obtain ⟨rfl, rfl⟩ := Prod.mk.inj (Except.ok.inj hask)
    obtain ⟨hsound, -, -, hmet⟩ := h.leaf_spec kind text
    exact ⟨hsound, hmet⟩
  | tree kind children =>
    obtain ⟨rfl, rfl⟩ := Prod.mk.inj (eq_tree_of_checkedTree hask)
    obtain ⟨hsound, -, -, hmet⟩ := h.tree_spec kind hr
    exact ⟨hsound, hmet⟩

/-- A call adds no node but the one that is handed back. -/
theorem mem_nodes_ask {r : Request} {n : Node} {s' : Store} (hask : s.ask r = .ok (n, s'))
    {m : Node} : m ∈ s'.nodes ↔ m = n ∨ m ∈ s.nodes := by
  -- a node that is found was there before
  have hfound : ∀ {n : Node}, n ∈ s.nodes → (m ∈ s.nodes ↔ m = n ∨ m ∈ s.nodes) := by
    intro n hn
    refine ⟨.inr, ?_⟩
    rintro (rfl | hm)
    · exact hn
    · exact hm
  cases r with
  | leaf kind text =>
    obtain ⟨rfl, rfl⟩ := Prod.mk.inj (Except.ok.inj hask)
    show m ∈ (s.leaf kind text).2.nodes ↔ m = (s.leaf kind text).1 ∨ _
    unfold Store.leaf
    split
    · rename_i n hn
      exact hfound (mem_nodes.2 (.inl ⟨_, mem_of_lookup hn⟩))
    · simp [nodes]
  | tree kind children =>
    obtain ⟨rfl, rfl⟩ := Prod.mk.inj (eq_tree_of_checkedTree hask)
    show m ∈ (s.tree kind children).2.nodes ↔ m = (s.tree kind children).1 ∨ _
    unfold Store.tree
    dsimp only
    split
    · rename_i n hn
      exact hfound (mem_nodes.2 (.inr ⟨_, mem_of_lookup hn⟩))
    · simp only [nodes, List.map_cons, List.mem_append, List.mem_cons]
      exact or_left_comm

/-- A call is answered if the node was handed back before, or if its leaves can be counted. -/
theorem Sound.exists_ask_iff (h : s.Sound) {r : Request} (hr : ∀ c ∈ r.children, s.Holds c) :
    (∃ answer, s.ask r = .ok answer) ↔
      (∃ n ∈ s.nodes, r.IsMetBy n) ∨ Node.tokensOf r.children < wordLimit := by
  cases r with
  | leaf kind text => exact ⟨fun _ => .inr (show 0 < wordLimit by decide), fun _ => ⟨_, rfl⟩⟩
  | tree kind children =>
    have hmet : (s.trees.lookup (kind, children.map Node.id?)).isSome = true ↔
        ∃ n ∈ s.nodes, (Request.tree kind children).IsMetBy n := by
      constructor
      · intro hsome
        obtain ⟨n, hn⟩ := Option.isSome_iff_exists.1 hsome
        have hmem := mem_of_lookup hn
        obtain ⟨id, children', rfl, hids, hchildren'⟩ := h.tree hmem
        obtain rfl := h.eq_of_map_id? hr hchildren' hids
        exact ⟨_, mem_nodes.2 (.inr ⟨_, hmem⟩), id, rfl⟩
      · rintro ⟨n, hn, id, rfl⟩
        obtain ⟨hmem, -⟩ := h.mem_trees (.inr hn)
        cases hlookup : s.trees.lookup (kind, children.map Node.id?) with
        | none => exact absurd hmem (not_mem_of_lookup hlookup _)
        | some n => rfl
    show (∃ answer, s.checkedTree kind children = .ok answer) ↔ _
    rw [← hmet, checkedTree_eq]
    constructor
    · rintro ⟨answer, hanswer⟩
      split at hanswer
      · assumption
      · cases hanswer
    · intro hcount
      exact ⟨_, if_pos hcount⟩

/-- What calls keep: a sound store with different keys, whose nodes are the answers. -/
theorem Answered.spec {realm : Nat} {calls : List (Request × Node)} (h : Answered realm calls s) :
    s.Sound ∧ s.Keyed ∧ (∀ n, n ∈ s.nodes ↔ n ∈ calls.map Prod.snd) ∧
      ∀ c ∈ calls, c.1.IsMetBy c.2 := by
  induction h with
  | new => exact ⟨sound_empty realm, keyed_empty realm, fun _ => Iff.rfl, by simp⟩
  | @ask calls s s' n r _ hchildren hask ih =>
    obtain ⟨hsound, hkeyed, hnodes, hmet⟩ := ih
    obtain ⟨hsound', hmet'⟩ := hsound.ask_spec
      (fun c hc => (hchildren c hc).imp_right (hnodes c).2) hask
    refine ⟨hsound', hkeyed.ask hask, fun m => ?_, List.forall_mem_cons.2 ⟨hmet', hmet⟩⟩
    rw [mem_nodes_ask hask, hnodes, List.map_cons, List.mem_cons]

/-! ## The main result -/

/-- A store hands back exactly what it is asked for. Two nodes that it handed back are the same
    node exactly if they agree in content, and it has as many nodes as it handed back nodes
    of different content. It answers all calls but those for a new tree whose leaves a machine
    word does not count. -/
theorem exact_of_answered {realm : Nat} {calls : List (Request × Node)}
    (h : Answered realm calls s) :
    (∀ c ∈ calls, c.1.IsMetBy c.2) ∧
      (∀ n ∈ calls.map Prod.snd, ∀ n' ∈ calls.map Prod.snd,
        (n.same n' = true ↔ n.equal n' = true)) ∧
      s.size = (Node.distinct (calls.map Prod.snd)).length ∧
      ∀ r : Request, (∀ c ∈ r.children, c = .nothing ∨ c ∈ calls.map Prod.snd) →
        ((∃ answer, s.ask r = .ok answer) ↔
          (∃ n ∈ calls.map Prod.snd, r.IsMetBy n) ∨ Node.tokensOf r.children < wordLimit) := by
  obtain ⟨hsound, hkeyed, hnodes, hmet⟩ := h.spec
  have hholds : ∀ n ∈ calls.map Prod.snd, s.Holds n := fun n hn => .inr ((hnodes n).2 hn)
  refine ⟨hmet, fun n hn n' hn' => hsound.same_iff hkeyed (hholds n hn) (hholds n' hn'), ?_,
    fun r hr => ?_⟩
  · have hsize : s.size = s.nodes.length := by
      rw [size, nodes, List.length_append, List.length_map, List.length_map]
    rw [hsize]
    refine List.Perm.length_eq ((List.perm_ext_iff_of_nodup (hsound.nodup_nodes hkeyed)
      (Node.nodup_distinct _)).2 fun n => ?_)
    rw [hnodes, Node.mem_distinct fun a ha b hb =>
      hsound.eq_of_equal hkeyed (hholds a ha) (hholds b hb)]
  · rw [hsound.exists_ask_iff fun c hc => (hr c hc).imp_right (hnodes c).2]
    simp only [hnodes]

/-- Calls for two leaves of one text, for a tree twice and for a tree over it. -/
def sampleCalls : List (Request × Node) :=
  let a := .leaf ⟨0, 0⟩ 0 "a"
  let b := .leaf ⟨0, 1⟩ 1 "a"
  let t := .tree ⟨0, 2⟩ 2 1 [a, .nothing]
  [(.tree 2 [t, b], .tree ⟨0, 3⟩ 2 2 [t, b]), (.tree 2 [a, .nothing], t),
    (.tree 2 [a, .nothing], t), (.leaf 1 "a", b), (.leaf 0 "a", a)]

/-- Four different nodes are handed back. -/
theorem size_of_sampleCalls : ∃ s, Answered 0 sampleCalls s ∧ s.size = 4 := by
  have hleaves : Answered 0 (sampleCalls.drop 3) _ :=
    .ask (.leaf 1 "a") (.ask (.leaf 0 "a") .new nofun rfl) nofun rfl
  have htree : Answered 0 (sampleCalls.drop 2) _ :=
    .ask (.tree 2 [.leaf ⟨0, 0⟩ 0 "a", .nothing]) hleaves
      (by simp [Request.children]) rfl
  have hagain : Answered 0 (sampleCalls.drop 1) _ :=
    .ask (.tree 2 [.leaf ⟨0, 0⟩ 0 "a", .nothing]) htree
      (by simp [Request.children]) rfl
  have hall : Answered 0 sampleCalls _ :=
    .ask (.tree 2 [.tree ⟨0, 2⟩ 2 1 [.leaf ⟨0, 0⟩ 0 "a", .nothing], .leaf ⟨0, 1⟩ 1 "a"]) hagain
      (by simp [Request.children]) rfl
  exact ⟨_, hall, (exact_of_answered hall).2.2.1.trans (by decide)⟩

end Store

end LanguageWorkbench
