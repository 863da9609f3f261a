import LanguageWorkbench.Proofs.Atomicity
import LanguageWorkbench.Proofs.Sharing

/-!
# No token is lost

A shift stacks one leaf. A reduction takes values off the stack and puts one back that has
their leaves in their order, whether it is a value among nothing else, the only one that
is not nothing, or a tree, be it new or one that the store has made before. So the stack
reads as what was shifted, over every table and with every derivation.

Results:
* `Node.Counted`: nodes that know how many leaves they have.
* `TreeBuilder.word_of_reduce`: a reduction keeps the leaves of the values.
* `Machine.History`: an automaton, its store, and the terminals that were shifted.
* `Machine.leaves_of_history`: the leaves on the stack are the terminals that were shifted.
-/

namespace LanguageWorkbench

/-! ## Leaves and counts -/

namespace Node

mutual

/-- The kinds and texts of the leaves, left to right. -/
def word : Node → List (Kind × String)
  | nothing => []
  | leaf _ kind text => [(kind, text)]
  | tree _ _ _ children => wordOf children

/-- The kinds and texts of the leaves of nodes side by side. -/
def wordOf : List Node → List (Kind × String)
  | [] => []
  | n :: rest => word n ++ wordOf rest

end

theorem wordOf_append (ns ns' : List Node) : wordOf (ns ++ ns') = wordOf ns ++ wordOf ns' := by
  induction ns with
  | nil => rfl
  | cons n ns ih => rw [List.cons_append, wordOf, wordOf, ih, List.append_assoc]

mutual

theorem map_leavesUnder (parent : Option Kind) :
    ∀ n : Node, (n.leavesUnder parent).map (fun l => (l.kind, l.text)) = n.word
  | .nothing => rfl
  | .leaf .. => rfl
  | .tree _ kind _ children => map_leavesOf (some kind) children

theorem map_leavesOf (parent : Option Kind) :
    ∀ ns : List Node, (leavesOf parent ns).map (fun l => (l.kind, l.text)) = wordOf ns
  | [] => rfl
  | n :: rest => by
    rw [leavesOf, List.map_append, map_leavesUnder parent n, map_leavesOf parent rest, wordOf]

end

theorem map_flatMap_leaves (ns : List Node) :
    (ns.flatMap leaves).map (fun l => (l.kind, l.text)) = wordOf ns := by
  induction ns with
  | nil => rfl
  | cons n ns ih =>
    rw [List.flatMap_cons, List.map_append, ih, wordOf, leaves, map_leavesUnder]

theorem length_leaves (n : Node) : n.leaves.length = n.word.length := by
  rw [← map_leavesUnder none n, List.length_map, leaves]

/-- At every position the number of tokens is the number of leaves. -/
def Counted (n : Node) : Prop := ∀ v ∈ n.visits, v.node.tokens = v.node.leaves.length

theorem mem_visitsOf {parent : Option Kind} {ns : List Node} {v : Visit} :
    v ∈ visitsOf parent ns ↔ ∃ n ∈ ns, v ∈ n.visitsUnder parent := by
  induction ns with
  | nil => simp [visitsOf]
  | cons n ns ih => simp [visitsOf, ih]

/-- A walk comes to the same nodes below any parent. -/
theorem exists_visit_node {parent : Option Kind} {n : Node} {v : Visit}
    (h : v ∈ n.visitsUnder parent) (parent' : Option Kind) :
    ∃ v' ∈ n.visitsUnder parent', v'.node = v.node := by
  cases n with
  | nothing | leaf =>
    refine ⟨_, List.mem_cons_self, ?_⟩
    simp only [visitsUnder, List.mem_cons, List.not_mem_nil, or_false] at h
    rcases h with rfl | rfl <;> rfl
  | tree id kind tokens children =>
    simp only [visitsUnder, List.mem_cons, List.mem_append, List.not_mem_nil, or_false] at h ⊢
    rcases h with rfl | h | rfl
    · exact ⟨_, .inl rfl, rfl⟩
    · exact ⟨v, .inr (.inl h), rfl⟩
    · exact ⟨_, .inl rfl, rfl⟩

theorem Counted.tokens_eq {n : Node} (h : n.Counted) : n.tokens = n.word.length := by
  rw [← length_leaves]
  obtain ⟨v, hv, rfl⟩ : ∃ v ∈ n.visits, v.node = n := by
    cases n <;> exact ⟨_, List.mem_cons_self, rfl⟩
  exact h v hv

theorem tokensOf_eq {ns : List Node} (h : ∀ n ∈ ns, n.Counted) :
    tokensOf ns = (wordOf ns).length := by
  induction ns with
  | nil => rfl
  | cons n ns ih =>
    obtain ⟨hn, hns⟩ := List.forall_mem_cons.1 h
    rw [tokensOf, wordOf, List.length_append, hn.tokens_eq, ih hns]

/-- A tree over counted nodes is counted. -/
theorem counted_tree {children : List Node} (h : ∀ c ∈ children, c.Counted) (id : NodeId)
    (kind : Kind) : (tree id kind (tokensOf children) children).Counted := by
  intro v hv
  have hself : (tree id kind (tokensOf children) children).tokens =
      (tree id kind (tokensOf children) children).leaves.length := by
    rw [length_leaves, tokens, word, tokensOf_eq h]
  simp only [visits, visitsUnder, List.mem_cons, List.mem_append, List.not_mem_nil,
    or_false] at hv
  rcases hv with rfl | hv | rfl
  · exact hself
  · obtain ⟨c, hc, hv⟩ := mem_visitsOf.1 hv
    obtain ⟨v', hv', heq⟩ := exists_visit_node hv none
    rw [← heq]
    exact h c hc v' hv'
  · exact hself

theorem counted_nothing : nothing.Counted := by
  intro v hv
  simp only [visits, visitsUnder, List.mem_cons, List.not_mem_nil, or_false] at hv
  rcases hv with rfl | rfl <;> rfl

theorem counted_leaf (id : NodeId) (kind : Kind) (text : String) : (leaf id kind text).Counted := by
  intro v hv
  simp only [visits, visitsUnder, List.mem_cons, List.not_mem_nil, or_false] at hv
  rcases hv with rfl | rfl <;> rfl

end Node

/-- All nodes of a store are counted. -/
theorem Store.Sound.counted {s : Store} (h : s.Sound) : ∀ n, s.Holds n → n.Counted
  | .nothing, _ => Node.counted_nothing
  | .leaf id kind text, _ => Node.counted_leaf id kind text
  | .tree id kind tokens children, hn => by
    rcases hn with hn | hn
    · cases hn
    · rcases Store.mem_nodes.1 hn with ⟨key, hmem⟩ | ⟨key, hmem⟩
      · obtain ⟨_, heq⟩ := h.leaf hmem
        cases heq
      · obtain ⟨_, _, heq, -, hchildren⟩ := h.tree hmem
        cases heq
        exact Node.counted_tree (fun c hc => h.counted c (hchildren c hc)) _ _
termination_by n => n

/-! ## Values of reductions -/

namespace TreeBuilder

variable {b : TreeBuilder} {store store' : Store} {n : Node}

theorem store_eq_of_leaf {x : Symbol} {text : String}
    (h : b.leaf store x text = .ok (n, store')) :
    ∃ kind, b.terminals[x]? = some (some kind) ∧ store.leaf kind text = (n, store') := by
  unfold leaf at h
  split at h
  · cases h
  · cases h
  · rename_i kind hkind
    exact ⟨kind, hkind, Except.ok.inj h⟩

/-- A terminal with a kind has the kind of its name. -/
theorem kind?_of_terminal {g : Lowered} {schema : Schema} {x : Symbol} {kind : Kind}
    (h : (ofLowered g schema).terminals[x]? = some (some kind)) :
    schema.kind? (g.nameOf x) = some kind := by
  simp only [ofLowered, Array.getElem?_map, Option.map_eq_some_iff] at h
  obtain ⟨name, hname, hkind⟩ := h
  have hlt : g.isTerminal x = true :=
    decide_eq_true (Array.getElem?_eq_some_iff.1 hname).1
  rw [Lowered.nameOf, if_pos hlt, hname, Option.getD_some, hkind]

/-- Nothing that is put between values has no leaves. -/
theorem wordOf_splice {name : String} : ∀ {slots : List Nat} {values arguments : List Node},
    splice name values slots = .ok arguments → Node.wordOf arguments = Node.wordOf values ∧
      ∀ c ∈ arguments, c = .nothing ∨ c ∈ values := by
  intro slots
  induction slots with
  | nil =>
    intro values arguments h
    cases h
    exact ⟨rfl, fun c hc => .inr hc⟩
  | cons slot slots ih =>
    intro values arguments h
    simp only [splice] at h
    split_ifs at h
    obtain ⟨hword, hmem⟩ := ih h
    refine ⟨?_, fun c hc => ?_⟩
    · rw [hword, Node.wordOf_append, Node.wordOf, Node.word, List.nil_append,
        ← Node.wordOf_append, List.take_append_drop]
    · rcases hmem c hc with hc | hc
      · exact .inl hc
      · rcases List.mem_append.1 hc with hc | hc
        · exact .inr (List.mem_of_mem_take hc)
        · exact (List.mem_cons.1 hc).imp_right List.mem_of_mem_drop

theorem wordOf_filter_isNothing (values : List Node) :
    Node.wordOf (values.filter (!·.isNothing)) = Node.wordOf values := by
  induction values with
  | nil => rfl
  | cons n values ih =>
    cases n with
    | nothing => exact ih
    | leaf | tree => exact congrArg (_ ++ ·) ih

theorem word_of_onlyLive? {values : List Node} (h : onlyLive? values = some n) :
    n.word = Node.wordOf values ∧ n ∈ values := by
  unfold onlyLive? at h
  split at h
  · rename_i only hfilter
    cases h
    have hmem : n ∈ values.filter (!·.isNothing) := hfilter ▸ List.mem_singleton_self n
    refine ⟨?_, (List.mem_filter.1 hmem).1⟩
    rw [← wordOf_filter_isNothing values, hfilter, Node.wordOf, Node.wordOf, List.append_nil]
  · cases h

/-- Whatever a reduction makes of values of the store, it has their leaves. -/
theorem word_of_reduce (hs : store.Sound) {p : Nat} {values : List Node}
    (hvalues : ∀ c ∈ values, store.Holds c) (h : b.reduce store p values = .ok (n, store')) :
    store'.Sound ∧ (∀ c, store.Holds c → store'.Holds c) ∧ store'.Holds n ∧
      n.word = Node.wordOf values := by
  unfold reduce at h
  cases hd : b.derivations[p]? with
  | none => rw [hd] at h; cases h
  | some d =>
    simp only [hd, bind, Except.bind, pure, Except.pure] at h
    split at h
    · rename_i only _
      cases h
      refine ⟨hs, fun c hc => hc, hvalues n (List.mem_singleton_self n), ?_⟩
      rw [Node.wordOf, Node.wordOf, List.append_nil]
    · split at h
      · cases h
      · rename_i arguments hsplice
        obtain ⟨hword, hmem⟩ := wordOf_splice hsplice
        have harguments : ∀ c ∈ arguments, store.Holds c := fun c hc =>
          (hmem c hc).elim .inl (hvalues c)
        split at h
        · rename_i only hlive
          cases h
          split_ifs at hlive with hcollapse
          obtain ⟨heq, honly⟩ := word_of_onlyLive? hlive
          exact ⟨hs, fun c hc => hc, harguments n honly, heq.trans hword⟩
        · split at h
          · rename_i kind _
            obtain ⟨hsound, hholds, hmade, id, heq⟩ := hs.tree_spec kind harguments
            have htree := Except.ok.inj h
            rw [htree] at hsound hholds hmade heq
            refine ⟨hsound, hholds, hmade, ?_⟩
            rw [show n = _ from heq, Node.word, hword]
          · cases h

end TreeBuilder

/-! ## Histories -/

namespace Machine

variable {m : Machine} {x : Symbol} {text : String} {w : List Terminal}

/-- What a feed that was not broken off adds to the terminals that were shifted. -/
def Fed.shifted (fed : Fed) (x : Symbol) (text : String) : List Terminal :=
  match fed.outcome, fed.moves.getLast? with
  | .ok true, some (.shift ..) => [(x, text)]
  | _, _ => []

/-- `m.History a store w`: feeding a new automaton, or one that was reset, has led to `a`,
    and the terminals `w` were shifted since. All feeds were on one store, which is `store`
    now, and none of them was broken off. Others may have called the store in between. -/
inductive History (m : Machine) : Automaton → Store → List Terminal → Prop
  | new {realm : Nat} {store : Store} (h : Store.Calls (.empty realm) store) :
      m.History .initial store []
  | reset {a : Automaton} {store : Store} {w : List Terminal} (h : m.History a store w) :
      m.History .initial store []
  | call {a : Automaton} {store store' : Store} {w : List Terminal} (h : m.History a store w)
      (hcall : store.Call store') : m.History a store' w
  | feed {a : Automaton} {store : Store} {w : List Terminal} {taken : Bool}
      (h : m.History a store w) (x : Symbol) (text : String)
      (hout : (m.feed a store x text).outcome = .ok taken) :
      m.History (m.feed a store x text).automaton (m.feed a store x text).store
        (w ++ (m.feed a store x text).shifted x text)

/-- The stack reads as the terminals: its values are nodes of the store, and their leaves
    have the kinds and texts of the terminals. -/
structure Tallies (m : Machine) (c : Automaton × Store) (w : List Terminal) : Prop where
  sound : c.2.Sound
  holds : ∀ n ∈ c.1.values, c.2.Holds n
  word : (Node.wordOf c.1.values.reverse).map (fun l => (some (some l.1), l.2)) =
    w.map fun x => (m.builder.terminals[x.1]?, x.2)

theorem Tallies.call {a : Automaton} {store store' : Store} (h : m.Tallies (a, store) w)
    (hcall : store.Call store') : m.Tallies (a, store') w := by
  obtain ⟨hsound, hholds⟩ := Store.Calls.spec (.single hcall) h.sound
  exact ⟨hsound, fun n hn => hholds n (h.holds n hn), h.word⟩

/-- Reductions take values and put back one with their leaves. -/
theorem Tallies.reduces {c c' : Automaton × Store} (h : m.Tallies c w)
    (hreduces : Relation.ReflTransGen (m.Reduces x) c c') : m.Tallies c' w := by
  induction hreduces with
  | refl => exact h
  | tail _ hstep ih =>
    obtain ⟨-, -, honce⟩ := hstep
    obtain ⟨production, state, rest, next, value, -, -, hreduce, -, -, rfl⟩ :=
      reduceOnce_eq_ok_iff.1 honce
    obtain ⟨hsound, hholds, hvalue, hword⟩ := TreeBuilder.word_of_reduce ih.sound
      (fun c hc => ih.holds c (List.mem_of_mem_take (List.mem_reverse.1 hc))) hreduce
    refine ⟨hsound, fun n hn => ?_, ?_⟩
    · rcases List.mem_cons.1 hn with rfl | hn
      · exact hvalue
      · exact hholds n (ih.holds n (List.mem_of_mem_drop hn))
    · rw [← ih.word, List.reverse_cons, Node.wordOf_append, Node.wordOf, Node.wordOf,
        List.append_nil, hword, ← Node.wordOf_append, ← List.reverse_append,
        List.take_append_drop]

/-- A feed that is not broken off stacks a leaf if it shifts, and keeps the leaves if not. -/
theorem Tallies.feed {a : Automaton} {store : Store} {taken : Bool}
    (h : m.Tallies (a, store) w) (hout : (m.feed a store x text).outcome = .ok taken) :
    m.Tallies ((m.feed a store x text).automaton, (m.feed a store x text).store)
      (w ++ (m.feed a store x text).shifted x text) := by
  cases taken with
  | false =>
    rw [feed_of_outcome_false hout]
    exact (List.append_nil w).symm ▸ h
  | true =>
    obtain ⟨-, fuel, hrun⟩ := run_of_feed hout
    rw [hrun] at hout ⊢
    obtain ⟨-, c, last, hreduces, hlast, hends⟩ := reductions_of_run hout
    have hc := h.reduces hreduces
    rw [Fed.shifted, hout, hlast]
    generalize (m.run x text fuel a store).automaton = a' at hends ⊢
    generalize (m.run x text fuel a store).store = store' at hends ⊢
    cases hends with
    | accept =>
      exact ⟨hc.sound, hc.holds, (List.append_nil w).symm ▸ hc.word⟩
    | @shift a store _ top next below value hs haction hleaf =>
      obtain ⟨kind, hkind, hmade⟩ := TreeBuilder.store_eq_of_leaf hleaf
      obtain ⟨hsound, hholds, hvalue, id, heq⟩ := hc.sound.leaf_spec kind text
      rw [hmade] at hsound hholds hvalue heq
      refine ⟨hsound, fun n hn => ?_, ?_⟩
      · rcases List.mem_cons.1 hn with rfl | hn
        · exact hvalue
        · exact hholds n (hc.holds n hn)
      · rw [List.reverse_cons, Node.wordOf_append, List.map_append, hc.word, List.map_append,
          show value = _ from heq]
        simp [Node.wordOf, Node.word, hkind]

theorem History.tallies {a : Automaton} {store : Store} (h : m.History a store w) :
    m.Tallies (a, store) w := by
  induction h with
  | new hcalls =>
    exact ⟨(Store.Calls.spec hcalls (Store.sound_empty _)).1, fun n hn => absurd hn List.not_mem_nil,
      rfl⟩
  | reset _ ih => exact ⟨ih.sound, fun n hn => absurd hn List.not_mem_nil, rfl⟩
  | call _ hcall ih => exact ih.call hcall
  | feed _ x text hout ih => exact ih.feed hout

/-! ## The main result -/

/-- Over any grammar, table and schema, the leaves of the stacked values are the terminals
    that were shifted, in their order and with their texts, and every node on the stack or
    inside of a value has as many tokens as there are leaves below it. -/
theorem leaves_of_history {g : Lowered} {t : Table} {schema : Schema} {a : Automaton}
    {store : Store} {w : List Terminal}
    (h : History ⟨g, t, .ofLowered g schema⟩ a store w) :
    (a.values.reverse.flatMap Node.leaves).map (fun l => (some l.kind, l.text)) =
        w.map (fun x => (schema.kind? (g.nameOf x.1), x.2)) ∧
      ∀ n ∈ a.values, ∀ v ∈ n.visits, v.node.tokens = v.node.leaves.length := by
  have htallies := h.tallies
  refine ⟨?_, fun n hn => htallies.sound.counted n (htallies.holds n hn)⟩
  have hword := htallies.word
  simp only at hword
  -- every terminal that was shifted has a kind, for it has a leaf
  have hkind : ∀ x ∈ w, ((TreeBuilder.ofLowered g schema).terminals[x.1]?).join =
      schema.kind? (g.nameOf x.1) := by
    intro x hx
    have hmem := List.mem_map_of_mem (f := fun x : Terminal =>
      ((TreeBuilder.ofLowered g schema).terminals[x.1]?, x.2)) hx
    rw [← hword] at hmem
    obtain ⟨l, -, hl⟩ := List.mem_map.1 hmem
    have hl := (Prod.mk.inj hl).1
    rw [← hl, Option.join_some]
    exact (TreeBuilder.kind?_of_terminal hl.symm).symm
  calc (a.values.reverse.flatMap Node.leaves).map (fun l => (some l.kind, l.text))
      = (Node.wordOf a.values.reverse).map (fun l => (some l.1, l.2)) := by
        rw [← Node.map_flatMap_leaves, List.map_map]
        rfl
    _ = (w.map fun x => ((TreeBuilder.ofLowered g schema).terminals[x.1]?, x.2)).map
          (fun y => (y.1.join, y.2)) := by
        rw [← hword, List.map_map]
        rfl
    _ = w.map (fun x => (schema.kind? (g.nameOf x.1), x.2)) := by
        rw [List.map_map]
        exact List.map_congr_left fun x hx => Prod.ext (hkind x hx) rfl

/-- Two times `x` with a `y` that is refused in between, and then the end: one tree is left,
    and it reads as what was shifted. -/
theorem leaves_of_history_eager :
    let m : Machine := ⟨.twice, .eager, .ofLowered .twice (.ofLowered .twice)⟩
    ∃ a store, m.History a store [(1, "x"), (1, "x")] ∧ a.accepted = true ∧ a.values.length = 1 ∧
      (a.values.reverse.flatMap Node.leaves).map (fun l => (some l.kind, l.text)) =
        [(some 0, "x"), (some 0, "x")] := by
  intro m
  let one := m.feed .initial (.empty 0) 1 "x"
  let two := m.feed one.automaton one.store 2 "y"
  let three := m.feed two.automaton two.store 1 "x"
  let four := m.feed three.automaton three.store endSymbol ""
  have hone : one.outcome = .ok true := by decide +kernel
  have htwo : two.outcome = .ok false := by decide +kernel
  have hthree : three.outcome = .ok true := by decide +kernel
  have hfour : four.outcome = .ok true := by decide +kernel
  have hnew : m.History .initial (.empty 0) [] := .new .refl
  have h := (((hnew.feed 1 "x" hone).feed 2 "y" htwo).feed 1 "x" hthree).feed endSymbol "" hfour
  have hshifted : [] ++ one.shifted 1 "x" ++ two.shifted 2 "y" ++ three.shifted 1 "x" ++
      four.shifted endSymbol "" = [(1, "x"), (1, "x")] := by decide +kernel
  rw [hshifted] at h
  refine ⟨four.automaton, four.store, h, by decide +kernel, by decide +kernel, ?_⟩
  rw [(leaves_of_history h).1]
  decide +kernel

end Machine

end LanguageWorkbench
