import LanguageWorkbench.Proofs.Feeding
import Mathlib.Logic.Equiv.Basic

/-!
# Realms do not matter

The realm of a store only tells its nodes from those of other stores. If realms are renamed
everywhere, every function on nodes, stores and automata gives the renamed results. So the
same terminals build the same tree in any realm, but for the identities of its nodes.

Results:
* `Node.rename`, `Store.rename`, `Automaton.rename`: renaming realms.
* `Node.rename_equal`: a renamed node has the same content.
* `Machine.feed_rename`, `Machine.feedAll_rename`: feeding commutes with renaming.
-/

namespace LanguageWorkbench

variable (τ : Equiv.Perm Nat)

/-! ## Nodes -/

/-- Renames the realm of an identity. -/
def NodeId.rename (id : NodeId) : NodeId := ⟨τ id.realm, id.serial⟩

theorem NodeId.rename_injective : Function.Injective (NodeId.rename τ) := by
  intro id id' h
  obtain ⟨hrealm, hserial⟩ := NodeId.mk.inj h
  cases id
  cases id'
  rw [NodeId.mk.injEq]
  exact ⟨τ.injective hrealm, hserial⟩

namespace Node

mutual

/-- Renames the realms of all identities in a node. -/
def rename : Node → Node
  | nothing => nothing
  | leaf id kind text => leaf (id.rename τ) kind text
  | tree id kind tokens children => tree (id.rename τ) kind tokens (renameAll children)

/-- Renames the realms in nodes side by side. -/
def renameAll : List Node → List Node
  | [] => []
  | n :: rest => rename n :: renameAll rest

end

theorem renameAll_eq_map (ns : List Node) : renameAll τ ns = ns.map (rename τ) := by
  induction ns with
  | nil => rfl
  | cons n ns ih => rw [renameAll, ih, List.map_cons]

@[simp] theorem isNothing_rename (n : Node) : (n.rename τ).isNothing = n.isNothing := by
  cases n <;> rfl

@[simp] theorem id?_rename (n : Node) : (n.rename τ).id? = n.id?.map (NodeId.rename τ) := by
  cases n <;> rfl

@[simp] theorem tokens_rename (n : Node) : (n.rename τ).tokens = n.tokens := by
  cases n <;> rfl

@[simp] theorem tokensOf_map_rename (ns : List Node) :
    tokensOf (ns.map (rename τ)) = tokensOf ns := by
  induction ns with
  | nil => rfl
  | cons n ns ih => rw [List.map_cons, tokensOf, tokensOf, tokens_rename, ih]

mutual

/-- A renamed node has the same content. -/
theorem rename_equal : ∀ n : Node, (n.rename τ).equal n = true
  | .nothing => rfl
  | .leaf .. => by simp [rename, equal]
  | .tree _ _ _ children => by simp [rename, equal, renameAll_equalAll children]

theorem renameAll_equalAll : ∀ ns : List Node, equalAll (renameAll τ ns) ns = true
  | [] => rfl
  | n :: rest => by simp [renameAll, equalAll, rename_equal n, renameAll_equalAll rest]

end

end Node

/-! ## Stores -/

namespace Store

/-- Renames the realms in what a tree is found by. -/
def treeKey (key : Kind × List (Option NodeId)) : Kind × List (Option NodeId) :=
  (key.1, key.2.map (Option.map (NodeId.rename τ)))

theorem treeKey_injective : Function.Injective (treeKey τ) := by
  intro key key' h
  obtain ⟨hkind, hids⟩ := Prod.mk.inj h
  exact Prod.ext hkind
    (List.map_injective_iff.2 (Option.map_injective (NodeId.rename_injective τ)) hids)

/-- Renames the realms in a store. -/
def rename (s : Store) : Store where
  realm := τ s.realm
  leaves := s.leaves.map fun e => (e.1, e.2.rename τ)
  trees := s.trees.map fun e => (treeKey τ e.1, e.2.rename τ)

theorem lookup_map {α β γ δ : Type} [BEq α] [LawfulBEq α] [BEq γ] [LawfulBEq γ] {f : α → γ}
    (hf : Function.Injective f) (g : β → δ) (l : List (α × β)) (key : α) :
    (l.map fun e => (f e.1, g e.2)).lookup (f key) = (l.lookup key).map g := by
  induction l with
  | nil => rfl
  | cons e l ih =>
    obtain ⟨key', value⟩ := e
    rw [List.map_cons, List.lookup_cons, List.lookup_cons, ih]
    by_cases hkey : key = key'
    · simp [hkey]
    · rw [beq_eq_false_iff_ne.2 hkey, beq_eq_false_iff_ne.2 (hf.ne hkey)]

/-- What a call of a store gives, renamed. -/
def renamed (r : Node × Store) : Node × Store := (r.1.rename τ, r.2.rename τ)

theorem leaf_rename (s : Store) (kind : Kind) (text : String) :
    (s.rename τ).leaf kind text = renamed τ (s.leaf kind text) := by
  have hlookup := lookup_map (f := id) Function.injective_id (Node.rename τ) s.leaves (kind, text)
  unfold leaf
  rw [show (s.rename τ).leaves.lookup (kind, text) = _ from hlookup]
  cases s.leaves.lookup (kind, text) with
  | some n => rfl
  | none => simp [renamed, rename, Node.rename, nextId, NodeId.rename, size]

theorem tree_rename (s : Store) (kind : Kind) (children : List Node) :
    (s.rename τ).tree kind (children.map (Node.rename τ)) = renamed τ (s.tree kind children) := by
  have hkey : (kind, (children.map (Node.rename τ)).map Node.id?) =
      treeKey τ (kind, children.map Node.id?) := by simp [treeKey]
  have hlookup := lookup_map (treeKey_injective τ) (Node.rename τ) s.trees
    (kind, children.map Node.id?)
  unfold tree
  simp only [hkey]
  rw [show (s.rename τ).trees.lookup _ = _ from hlookup]
  cases s.trees.lookup (kind, children.map Node.id?) with
  | some n => rfl
  | none => simp [renamed, rename, Node.rename, Node.renameAll_eq_map, nextId, NodeId.rename, size]

@[simp] theorem rename_empty (realm : Nat) : (empty realm).rename τ = empty (τ realm) := rfl

end Store

/-! ## Values of reductions -/

namespace TreeBuilder

variable (b : TreeBuilder)

theorem leaf_rename (store : Store) (x : Symbol) (text : String) :
    b.leaf (store.rename τ) x text = (b.leaf store x text).map (Store.renamed τ) := by
  unfold leaf
  cases b.terminals[x]? with
  | none => rfl
  | some kind =>
    cases kind with
    | none => rfl
    | some kind => exact congrArg Except.ok (Store.leaf_rename τ store kind text)

theorem splice_rename (name : String) (slots : List Nat) (values : List Node) :
    splice name (values.map (Node.rename τ)) slots =
      (splice name values slots).map (List.map (Node.rename τ)) := by
  induction slots generalizing values with
  | nil => rfl
  | cons slot slots ih =>
    unfold splice
    rw [List.length_map]
    split_ifs
    · rfl
    · rw [← ih, List.map_append, List.map_cons, List.map_take, List.map_drop, Node.rename]

theorem onlyLive?_rename (values : List Node) :
    onlyLive? (values.map (Node.rename τ)) = (onlyLive? values).map (Node.rename τ) := by
  unfold onlyLive?
  have hfilter : (values.map (Node.rename τ)).filter (!·.isNothing) =
      (values.filter (!·.isNothing)).map (Node.rename τ) := by
    rw [List.filter_map]
    congr 2
    funext n
    simp
  rw [hfilter]
  cases values.filter (!·.isNothing) with
  | nil => rfl
  | cons n rest =>
    cases rest <;> rfl

/-- The value of a reduction whose arguments have nothing in the absent places. -/
def assemble (store : Store) (p : Nat) (d : Derivation) (arguments : List Node) :
    Except Fault (Node × Store) :=
  match if d.collapse then onlyLive? arguments else none with
  | some only => .ok (only, store)
  | none =>
    match b.kinds[p]? with
    | some (some kind) => .ok (store.tree kind arguments)
    | _ => .error (.derivationWithoutKind d.name)

theorem assemble_rename (store : Store) (p : Nat) (d : Derivation) (arguments : List Node) :
    b.assemble (store.rename τ) p d (arguments.map (Node.rename τ)) =
      (b.assemble store p d arguments).map (Store.renamed τ) := by
  have hlive : (if d.collapse then onlyLive? (arguments.map (Node.rename τ)) else none) =
      (if d.collapse then onlyLive? arguments else none).map (Node.rename τ) := by
    split_ifs
    · exact onlyLive?_rename τ arguments
    · rfl
  unfold assemble
  rw [hlive]
  cases (if d.collapse then onlyLive? arguments else none) with
  | some only => rfl
  | none =>
    cases b.kinds[p]? with
    | none => rfl
    | some kind =>
      cases kind with
      | none => rfl
      | some kind => exact congrArg Except.ok (Store.tree_rename τ store kind arguments)

/-- Unless a single value stands for itself, the arguments are assembled. -/
theorem reduce_eq_assemble {d : Derivation} {p : Nat} {values : List Node}
    (hd : b.derivations[p]? = some d) (hmany : ∀ only, values = [only] → d.omitted ≠ [])
    (store : Store) :
    b.reduce store p values = (splice d.name values d.omitted).bind (b.assemble store p d) := by
  unfold reduce
  rw [hd]
  cases values with
  | nil => rfl
  | cons n rest =>
    cases rest with
    | cons => rfl
    | nil =>
      cases homitted : d.omitted with
      | nil => exact absurd homitted (hmany n rfl)
      | cons => simp only [homitted]; rfl

theorem reduce_rename (store : Store) (p : Nat) (values : List Node) :
    b.reduce (store.rename τ) p (values.map (Node.rename τ)) =
      (b.reduce store p values).map (Store.renamed τ) := by
  cases hd : b.derivations[p]? with
  | none =>
    unfold reduce
    rw [hd]
    rfl
  | some d =>
    by_cases hone : ∃ only, values = [only] ∧ d.omitted = []
    · obtain ⟨only, rfl, homitted⟩ := hone
      simp only [reduce, hd, homitted, List.map_cons, List.map_nil]
      rfl
    · have hmany : ∀ only, values = [only] → d.omitted ≠ [] :=
        fun only hvalues homitted => hone ⟨only, hvalues, homitted⟩
      have hmany' : ∀ only, values.map (Node.rename τ) = [only] → d.omitted ≠ [] := by
        intro only hvalues
        obtain ⟨n, rest, rfl, -, hrest⟩ := List.map_eq_cons_iff.1 hvalues
        exact hmany n (by rw [List.map_eq_nil_iff.1 hrest])
      rw [b.reduce_eq_assemble hd hmany, b.reduce_eq_assemble hd hmany', splice_rename]
      cases splice d.name values d.omitted with
      | error f => rfl
      | ok arguments => exact b.assemble_rename τ store p d arguments

end TreeBuilder

/-! ## Automata -/

/-- Renames the realms in the values of an automaton. -/
def Automaton.rename (a : Automaton) : Automaton := { a with values := a.values.map (Node.rename τ) }

theorem Automaton.result?_rename (a : Automaton) :
    (a.rename τ).result? = a.result?.map (Node.rename τ) := by
  unfold result?
  rw [show (a.rename τ).accepted = a.accepted from rfl]
  split_ifs
  · exact List.head?_map
  · rfl

namespace Machine

variable (m : Machine)

/-- Renames the realms in what is left of a run. -/
def Fed.rename (fed : Fed) : Fed :=
  { fed with automaton := fed.automaton.rename τ, store := fed.store.rename τ }

theorem shift_rename (a : Automaton) (store : Store) (x : Symbol) (text : String) (top next : Nat) :
    m.shift (a.rename τ) (store.rename τ) x text top next =
      (m.shift a store x text top next).rename τ := by
  unfold shift
  rw [TreeBuilder.leaf_rename]
  cases m.builder.leaf store x text <;> rfl

theorem reduceOnce_rename (a : Automaton) (store : Store) (p : Nat) :
    m.reduceOnce (a.rename τ) (store.rename τ) p =
      ((m.reduceOnce a store p).1.rename τ, (m.reduceOnce a store p).2.1.rename τ,
        (m.reduceOnce a store p).2.2) := by
  unfold reduceOnce
  cases m.production p with
  | error f => rfl
  | ok production =>
    simp only [Automaton.rename, List.length_map, ← List.map_take, ← List.map_drop,
      ← List.map_reverse, TreeBuilder.reduce_rename]
    split_ifs
    · rfl
    · cases m.builder.reduce store p (a.values.take production.rhs.length).reverse with
      | error f => rfl
      | ok r =>
        simp only [Except.map, Store.renamed]
        cases a.states.drop production.rhs.length with
        | nil => rfl
        | cons state rest =>
          simp only
          cases m.table.goto? state production.lhs with
          | error f => rfl
          | ok next => cases next <;> rfl

theorem run_rename (x : Symbol) (text : String) (fuel : Nat) (a : Automaton) (store : Store) :
    m.run x text fuel (a.rename τ) (store.rename τ) = (m.run x text fuel a store).rename τ := by
  induction fuel generalizing a store with
  | zero => rfl
  | succ fuel ih =>
    unfold run
    simp only [show (a.rename τ).states = a.states from rfl]
    cases a.states with
    | nil => rfl
    | cons top below =>
      simp only
      cases m.table.action top x with
      | error f => rfl
      | ok action =>
        cases action with
        | shift next => exact m.shift_rename τ a store x text top next
        | accept => rfl
        | error => rfl
        | reduce p =>
          simp only [reduceOnce_rename]
          obtain ⟨a', store', result⟩ := m.reduceOnce a store p
          cases result with
          | error f => rfl
          | ok _ =>
            simp only [ih]
            rfl

theorem feed_rename (a : Automaton) (store : Store) (x : Symbol) (text : String) :
    m.feed (a.rename τ) (store.rename τ) x text = (m.feed a store x text).rename τ := by
  unfold feed
  rw [show m.check (a.rename τ) x = m.check a x from rfl, run_rename,
    show (a.rename τ).accepted = a.accepted from rfl]
  split_ifs
  · rfl
  · cases m.check a x with
    | error f => rfl
    | ok taken => cases taken <;> rfl

/-- Feeding commutes with renaming. -/
theorem feedAll_rename (a : Automaton) (store : Store) (w : List Terminal) :
    m.feedAll (a.rename τ) (store.rename τ) w =
      (m.feedAll a store w).map fun c => (c.1.rename τ, c.2.rename τ) := by
  induction w generalizing a store with
  | nil => rfl
  | cons x w ih =>
    simp only [feedAll, feed_rename]
    rw [show ((m.feed a store x.1 x.2).rename τ).outcome = (m.feed a store x.1 x.2).outcome from rfl]
    cases (m.feed a store x.1 x.2).outcome with
    | error f => rfl
    | ok taken =>
      cases taken with
      | false => rfl
      | true => exact ih _ _

end Machine

end LanguageWorkbench
