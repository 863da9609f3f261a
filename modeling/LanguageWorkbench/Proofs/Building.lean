import LanguageWorkbench.Proofs.Acceptance
import LanguageWorkbench.Proofs.Ambiguity
import LanguageWorkbench.Proofs.Constructing

/-!
# Folded trees are built as allowed

Without collapse the builder of a grammar makes every node as the checked constructors
would: a leaf of a term, a tree over values of the bits of a sequence, or a tree over a
list and its child. The value of a symbol is a value of the rule of the symbol.

Results:
* `Grammar.Spelled`: terminals whose texts are those of their terms.
* `Grammar.Valued`, `Grammar.Built`: interned values of the rule of a symbol, and making one.
* `Grammar.LowersTo.reduce_spec`: what one reduction makes of such values.
* `Grammar.LowersTo.fold_spec`: what a whole parse tree becomes.
-/

namespace LanguageWorkbench.Grammar

variable {g : Grammar} {symbols : SymbolMap} {l : Lowered} {store store' : Store}

/-- Only atoms have texts other than their names. -/
def Spelled (g : Grammar) (symbols : SymbolMap) (x : Terminal) : Prop :=
  ∀ id rule kind pattern, symbols.lookup id = some x.1 → g.rule? id = some rule →
    rule.shape = .term kind pattern → kind ≠ .atom → x.2 = rule.name

/-- A node of a store that the checked constructors allow, as a value of a symbol. -/
def Valued (g : Grammar) (symbols : SymbolMap) (store : Store) (n : Node) (s : Symbol) : Prop :=
  Store.Interned (.ofGrammar g) store n ∧
    ∀ id, symbols.lookup id = some s → (Schema.ofGrammar g).isValue g n id = true

theorem Valued.mono {n : Node} {s : Symbol} (h : g.Valued symbols store n s)
    (hext : store.Extends store') : g.Valued symbols store' n s :=
  ⟨h.1.mono hext, h.2⟩

/-- What making a node leaves: a larger store of allowed nodes, and the node among them as
    a value of a rule. -/
structure Built (g : Grammar) (store : Store) (n : Node) (store' : Store) (id : RuleId) :
    Prop where
  interns : Store.Interns (.ofGrammar g) store'
  grown : store.Extends store'
  interned : Store.Interned (.ofGrammar g) store' n
  value : (Schema.ofGrammar g).isValue g n id = true

/-- A value that a rule offers is a value of the rule. -/
theorem Built.offered {n : Node} {id child : RuleId} (h : g.Built store n store' child)
    {shape : Shape} (hshape : g.shape? id = some shape) (hchild : child ∈ Schema.offers shape) :
    g.Built store n store' id :=
  ⟨h.interns, h.grown, h.interned, Schema.isValue_of_offers hshape hchild h.value⟩

theorem Built.valued {n : Node} {id : RuleId} {s : Symbol} (h : g.Built store n store' id)
    (hl : g.LowersTo symbols l) (hid : symbols.lookup id = some s) :
    g.Valued symbols store' n s := by
  refine ⟨h.interned, fun id' hid' => ?_⟩
  obtain rfl := hl.numbers.lookup_inj hid hid'
  exact h.value

/-- A term has a leaf for each text that it allows. -/
theorem LowersTo.leaf_spec (h : g.LowersTo symbols l) (hd : g.Distinct) {x : Terminal}
    (hterm : l.isTerminal x.1 = true) {id : RuleId} (hid : symbols.lookup id = some x.1)
    (hspelled : g.Spelled symbols x) (hi : Store.Interns (.ofGrammar g) store) {n : Node}
    (hleaf : (TreeBuilder.ofLowered l (.ofGrammar g)).leaf store x.1 x.2 = .ok (n, store')) :
    g.Built store n store' id := by
  have hlt : x.1 < l.numTerminals := of_decide_eq_true hterm
  obtain ⟨rule, hrule, hname, ⟨hshape, -⟩ | ⟨-, hgt, -⟩⟩ := h.numbers.of_lookup hid
  · obtain ⟨termKind, pattern, hshape⟩ : ∃ termKind pattern, rule.shape = .term termKind pattern := by
      cases hs : rule.shape with
      | term termKind pattern => exact ⟨termKind, pattern, rfl⟩
      | _ => rw [hs] at hshape; cases hshape
    have hconcrete : rule.shape.isConcrete = true := by rw [hshape]; rfl
    obtain ⟨kind, hkind⟩ := Schema.exists_isKind hd hrule hconcrete
    rw [Lowered.names_getElem?_terminal hlt] at hname
    obtain ⟨rfl, rfl⟩ : (store.leaf kind x.2).1 = n ∧ (store.leaf kind x.2).2 = store' := by
      simpa [TreeBuilder.leaf, TreeBuilder.ofLowered, hname, nameOf, hrule, hkind.byName,
        Prod.ext_iff] using hleaf
    obtain ⟨hinterns, hext, hinterned, hk⟩ := hi.leaf_spec kind x.2 fun σ =>
      hkind.terminal_eq hrule hshape (hspelled id rule termKind pattern hid hrule hshape) σ
    exact ⟨hinterns, hext, hinterned, hkind.isValue hrule hconcrete hk⟩
  · exact absurd (Nat.lt_trans hgt hlt) (Nat.lt_irrefl _)

/-- The values of the symbols of a choice become a tree of the kind of the rule `built`,
    whose bits the choice is of. -/
theorem tree_spec (hd : g.Distinct) {built : RuleId} {bits : List RuleId}
    (hshape : (∃ anonymous, g.shape? built = some (.sequence bits anonymous)) ∨
      ∃ child, g.shape? built = some (.plus child) ∧ bits = [built, child])
    (hlen : 2 ≤ bits.length) {choice : List (Option Symbol)}
    (hchosen : Chosen g symbols false bits choice) {values : List Node}
    (hvalues : List.Forall₂ (g.Valued symbols store) values (presentSymbols choice))
    (hi : Store.Interns (.ofGrammar g) store) {p : Nat}
    (hderivation : l.derivations[p]? = some (g.derivationOf built choice))
    (hcollapse : g.collapse = []) {n : Node}
    (hreduce : (TreeBuilder.ofLowered l (.ofGrammar g)).reduce store p values = .ok (n, store')) :
    g.Built store n store' built := by
  obtain ⟨rule, hrule, hconcrete, hshape⟩ : ∃ rule, g.rule? built = some rule ∧
      rule.shape.isConcrete = true ∧ ((∃ anonymous, rule.shape = .sequence bits anonymous) ∨
        ∃ child, rule.shape = .plus child ∧ bits = [built, child]) := by
    rcases hshape with ⟨anonymous, hshape⟩ | ⟨child, hshape, hbits⟩
    · obtain ⟨rule, hrule, hs⟩ := Option.map_eq_some_iff.1 hshape
      exact ⟨rule, hrule, by rw [hs]; rfl, .inl ⟨anonymous, hs⟩⟩
    · obtain ⟨rule, hrule, hs⟩ := Option.map_eq_some_iff.1 hshape
      exact ⟨rule, hrule, by rw [hs]; rfl, .inr ⟨child, hs, hbits⟩⟩
  obtain ⟨kind, hkind⟩ := Schema.exists_isKind hd hrule hconcrete
  have hlen' := hvalues.length_eq
  have hbits := hchosen.values (s := .ofGrammar g) (hvalues.imp fun _ _ hv => hv.2)
  have hfill := TreeBuilder.length_fill hlen'
  rw [← hbits.length_eq, hfill] at hlen
  have hbuilt : (TreeBuilder.ofLowered l (.ofGrammar g)).kinds[p]? = some (some kind) := by
    simp [TreeBuilder.ofLowered, hderivation, derivationOf, nameOf, hrule, hkind.byName]
  -- without collapsing a reduction of several bits always makes a tree
  rw [TreeBuilder.reduce_tree hderivation rfl (by simp [derivationOf, hcollapse]) hbuilt hlen hlen',
    Except.ok.injEq] at hreduce
  obtain ⟨hinterns, hext, hinterned, hk⟩ := hi.tree_spec kind
    (fun child hchild => by
      rcases TreeBuilder.mem_fill hchild with rfl | hmem
      · exact .nothing
      · obtain ⟨s, -, hv⟩ := exists_of_forall₂ hvalues hmem
        exact hv.1)
    fun σ => hkind.create_eq hrule hshape (hfill ▸ hlen) hbits σ
  rw [hreduce] at hinterns hext hinterned hk
  exact ⟨hinterns, hext, hinterned, hkind.isValue hrule hconcrete hk⟩

/-- The value of a choice of one bit that is present stands for itself. -/
theorem single_spec {bit built : RuleId} {s : Symbol} (hr : Reads g symbols false bit (some s))
    {values : List Node}
    (hvalues : List.Forall₂ (g.Valued symbols store) values (presentSymbols [some s]))
    (hi : Store.Interns (.ofGrammar g) store) {p : Nat}
    (hderivation : l.derivations[p]? = some (g.derivationOf built [some s])) {n : Node}
    (hreduce : (TreeBuilder.ofLowered l (.ofGrammar g)).reduce store p values = .ok (n, store')) :
    g.Built store n store' bit := by
  rw [presentSymbols_some, presentSymbols_nil] at hvalues
  cases hvalues with
  | @cons value _ _ _ hvalue hnil =>
    cases hnil
    rw [TreeBuilder.reduce_single (s := s) hderivation rfl] at hreduce
    cases hreduce
    refine ⟨hi, .refl _, hvalue.1, hr.isValue (fun h => nomatch h) ?_⟩
    rintro s' y hs hy
    exact hvalue.2 y (by rw [hy, hs])

/-- A reduction by a production of a rule makes a value of the rule. -/
theorem LowersTo.reduce_spec (h : g.LowersTo symbols l) (hg : g.Sound) (hc : g.check = .ok ())
    (hd : g.Distinct) (hcollapse : g.collapse = []) {p : Nat} {production : Production}
    (hp : l.productions[p]? = some production) {id : RuleId}
    (hid : symbols.lookup id = some production.lhs)
    (hplus : ∀ child, g.shape? id = some (.plus child) → ¬ Reads g symbols false child none)
    {values : List Node}
    (hvalues : List.Forall₂ (g.Valued symbols store) values production.rhs)
    (hi : Store.Interns (.ofGrammar g) store) {n : Node}
    (hreduce : (TreeBuilder.ofLowered l (.ofGrammar g)).reduce store p values = .ok (n, store')) :
    g.Built store n store' id := by
  obtain ⟨built, choice, hrhs, hderivation, hstands⟩ := h.stands hg hc hp hid
  rw [hrhs] at hvalues
  cases hstands with
  | sequence hshape hlong hchosen =>
    exact tree_spec hd (.inl ⟨_, hshape⟩) hlong hchosen hvalues hi hderivation hcollapse hreduce
  | line hshape hbit hinner hlong hchosen =>
    have hline :=
      tree_spec hd (.inl ⟨_, hinner⟩) hlong hchosen hvalues hi hderivation hcollapse hreduce
    exact hline.offered hshape hbit
  | branch hshape hbit hr =>
    exact (single_spec hr hvalues hi hderivation hreduce).offered hshape hbit
  | @element child r hshape hr =>
    cases r with
    | none => exact absurd hr (hplus child hshape)
    | some s =>
      exact (single_spec hr hvalues hi hderivation hreduce).offered hshape
        (List.mem_singleton_self _)
  | longer hshape _ hchosen =>
    exact tree_spec hd (.inr ⟨_, hshape, rfl⟩) (Nat.le_refl 2) hchosen hvalues hi hderivation
      hcollapse hreduce

/-- If the child of a list may be absent, the list is its own right side. -/
theorem LowersTo.loop_of_reads_none (h : g.LowersTo symbols l) {id child : RuleId}
    (hshape : g.shape? id = some (.plus child)) {s : Symbol} (hid : symbols.lookup id = some s)
    (hnone : Reads g symbols false child none) : ⟨s, [s]⟩ ∈ l.productions := by
  obtain ⟨rule, hrule, hshape⟩ := Option.map_eq_some_iff.1 hshape
  obtain ⟨lhs, found, hlhs, hfound, hmem⟩ := h.served hrule (id, [id, child], id)
    (by simp [contributions, hshape])
  obtain rfl := Option.some.inj (hid.symm.trans hlhs)
  refine hmem [some s, none] ((mem_choices_iff hfound).2 (.cons ?_ (.cons hnone .nil)))
  exact .rule hrule (.inr (by rw [hshape]; rfl)) hid

mutual

/-- The fold of a parse tree that is the only one for its word is a value of its symbol. -/
theorem LowersTo.fold_spec (h : g.LowersTo symbols l) (hg : g.Sound) (hc : g.check = .ok ())
    (hd : g.Distinct) (hcollapse : g.collapse = []) : ∀ {t : ParseTree} {s : Symbol}
    {w : List Terminal} {store store' : Store} {n : Node}, l.Grows t s w → l.Sole [t] [s] w →
      ∀ {id : RuleId}, symbols.lookup id = some s → (∀ x ∈ w, g.Spelled symbols x) →
      Store.Interns (.ofGrammar g) store →
      (TreeBuilder.ofLowered l (.ofGrammar g)).fold t store = .ok (n, store') →
      g.Built store n store' id
  | _, _, _, _, _, _, .leaf hterm, _, _, hid, hw, hi, hfold =>
    h.leaf_spec hd hterm hid (hw _ List.mem_cons_self) hi hfold
  | _, _, _, _, _, _, .node hp hs, hsole, _, hid, hw, hi, hfold => by
    obtain ⟨values, store₁, hall, hreduce⟩ := TreeBuilder.fold_node_eq_ok_iff.1 hfold
    obtain ⟨d, -, rule, id', hrule, hb⟩ := h.brings (h.ne_zero_of_lookup hp hid) hp
    obtain ⟨hinterns, hext, hvalues⟩ :=
      h.foldAll_spec hg hc hd hcollapse hs (hsole.children hp) (fun s hmem => hb.rhs hmem) hw hi hall
    have hbuilt := h.reduce_spec hg hc hd hcollapse hp hid (fun child hshape hnone =>
      hsole.not_loop (.node hp hs) (h.loop_of_reads_none hshape hid hnone)) hvalues hinterns hreduce
    exact ⟨hbuilt.interns, hext.trans hbuilt.grown, hbuilt.interned, hbuilt.value⟩

theorem LowersTo.foldAll_spec (h : g.LowersTo symbols l) (hg : g.Sound) (hc : g.check = .ok ())
    (hd : g.Distinct) (hcollapse : g.collapse = []) : ∀ {ts : List ParseTree} {ss : List Symbol}
    {w : List Terminal} {store store' : Store} {values : List Node}, l.GrowsAll ts ss w →
      l.Sole ts ss w → (∀ s ∈ ss, ∃ id, symbols.lookup id = some s) →
      (∀ x ∈ w, g.Spelled symbols x) → Store.Interns (.ofGrammar g) store →
      (TreeBuilder.ofLowered l (.ofGrammar g)).foldAll ts store = .ok (values, store') →
      Store.Interns (.ofGrammar g) store' ∧ store.Extends store' ∧
        List.Forall₂ (g.Valued symbols store') values ss
  | _, _, _, _, _, _, .nil, _, _, _, hi, hall => by
    cases hall
    exact ⟨hi, .refl _, .nil⟩
  | _, _, _, _, _, _, .cons ht hts, hsole, hss, hw, hi, hall => by
    obtain ⟨value, store₁, rest, hfold, hrest, rfl⟩ := TreeBuilder.foldAll_cons_eq_ok_iff.1 hall
    obtain ⟨id, hid⟩ := hss _ List.mem_cons_self
    have hbuilt := h.fold_spec hg hc hd hcollapse ht (hsole.head hts) hid
      (fun x hx => hw x (List.mem_append_left _ hx)) hi hfold
    obtain ⟨hinterns, hext, hvalues⟩ := h.foldAll_spec hg hc hd hcollapse hts (hsole.tail ht)
      (fun s hs => hss s (List.mem_cons_of_mem _ hs))
      (fun x hx => hw x (List.mem_append_right _ hx)) hbuilt.interns hrest
    exact ⟨hinterns, hbuilt.grown.trans hext, .cons ((hbuilt.valued h hid).mono hext) hvalues⟩

end

end LanguageWorkbench.Grammar
