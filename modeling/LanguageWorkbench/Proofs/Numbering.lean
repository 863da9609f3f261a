import LanguageWorkbench.Lowered.OfGrammar
import LanguageWorkbench.Proofs.Outcome
import LanguageWorkbench.Proofs.Table

/-!
# Symbols and their names

A lowered grammar is built so that no two symbols share a name. So a name leads to one
symbol, and a rule that has a symbol is the only one that does.

Results:
* `Lowered.symbol?_eq_some_iff`: the symbol with a name.
* `Grammar.Numbers`: which symbols the rules of a grammar have.
* `Grammar.numbers_of_symbols`: `Grammar.symbols` numbers the rules.
-/

namespace LanguageWorkbench

/-! ## Names of symbols -/

namespace Lowered

/-- All names of symbols, those of the terminals first. -/
def names (g : Lowered) : List String := g.terminals.toList ++ g.nonterminals.toList

variable {g g' : Lowered} {name : String}

theorem length_names : g.names.length = g.numSymbols := by
  simp [names, numSymbols]

theorem symbol?_eq_findIdx? : g.symbol? name = g.names.findIdx? (· == name) := by
  unfold symbol? names
  rw [List.findIdx?_append]
  cases g.terminals.toList.findIdx? (· == name) with
  | some i => rfl
  | none => simp [numTerminals, Nat.add_comm]

theorem isSome_symbol?_iff : (g.symbol? name).isSome = true ↔ name ∈ g.names := by
  rw [symbol?_eq_findIdx?, List.findIdx?_isSome, List.any_eq_true]
  constructor
  · rintro ⟨x, hx, he⟩
    exact beq_iff_eq.1 he ▸ hx
  · intro h
    exact ⟨name, h, beq_self_eq_true name⟩

/-- The symbol with a name is the only place where the name stands. -/
theorem symbol?_eq_some_iff (h : g.names.Nodup) {s : Symbol} :
    g.symbol? name = some s ↔ g.names[s]? = some name := by
  rw [symbol?_eq_findIdx?, List.findIdx?_eq_some_iff_getElem]
  constructor
  · rintro ⟨hs, he, -⟩
    rw [List.getElem?_eq_getElem hs, beq_iff_eq.1 he]
  · intro hs
    obtain ⟨hlt, rfl⟩ := List.getElem?_eq_some_iff.1 hs
    refine ⟨hlt, beq_self_eq_true _, fun j hj he => ?_⟩
    have := (h.getElem_inj_iff).1 (beq_iff_eq.1 he)
    omega

theorem names_getElem?_terminal {s : Symbol} (h : s < g.numTerminals) :
    g.names[s]? = g.terminals[s]? := by
  rw [names, List.getElem?_append_left (by simpa [numTerminals] using h),
    Array.getElem?_toList]

theorem names_getElem?_nonterminal (k : Nat) :
    g.names[g.numTerminals + k]? = g.nonterminals[k]? := by
  rw [names, List.getElem?_append_right (by simp [numTerminals]), Array.getElem?_toList]
  simp [numTerminals]

theorem nameOf_eq (s : Symbol) : g.nameOf s = (g.names[s]?).getD "" := by
  unfold nameOf isTerminal
  by_cases hs : s < g.numTerminals
  · rw [if_pos (decide_eq_true hs), names_getElem?_terminal hs]
  · rw [if_neg (by simpa using hs)]
    obtain ⟨k, rfl⟩ : ∃ k : Nat, s = g.numTerminals + k :=
      ⟨s - g.numTerminals, (Nat.add_sub_of_le (Nat.le_of_not_lt hs)).symm⟩
    rw [names_getElem?_nonterminal, Nat.add_sub_cancel_left]

theorem lt_of_symbol? {s : Symbol} (h : g.symbol? name = some s) : s < g.numSymbols := by
  rw [symbol?_eq_findIdx?, List.findIdx?_eq_some_iff_getElem] at h
  exact length_names (g := g) ▸ h.1

/-! ## Adding symbols -/

theorem addTerminal_eq_ok_iff : g.addTerminal name = .ok g' ↔
    name ∉ g.names ∧ g' = { g with terminals := g.terminals.push name } := by
  rw [← isSome_symbol?_iff]
  unfold addTerminal
  split_ifs with h <;> simp [h, eq_comm]

theorem addNonterminal_eq_ok_iff : g.addNonterminal name = .ok g' ↔
    name ∉ g.names ∧ g' = { g with nonterminals := g.nonterminals.push name } := by
  rw [← isSome_symbol?_iff]
  unfold addNonterminal
  split_ifs with h <;> simp [h, eq_comm]

theorem nodup_of_addTerminal (hg : g.names.Nodup) (h : g.addTerminal name = .ok g') :
    g'.names.Nodup := by
  obtain ⟨hnot, rfl⟩ := addTerminal_eq_ok_iff.1 h
  have : (name :: g.names).Nodup := List.nodup_cons.2 ⟨hnot, hg⟩
  refine this.perm ?_
  simp only [names, Array.toList_push, List.append_assoc, List.singleton_append]
  exact List.perm_middle.symm

theorem nodup_of_addNonterminal (hg : g.names.Nodup) (h : g.addNonterminal name = .ok g') :
    g'.names.Nodup := by
  obtain ⟨hnot, rfl⟩ := addNonterminal_eq_ok_iff.1 h
  have : (name :: g.names).Nodup := List.nodup_cons.2 ⟨hnot, hg⟩
  refine this.perm ?_
  simp only [names, Array.toList_push, ← List.append_assoc]
  exact (List.perm_append_singleton _ _).symm

end Lowered

namespace Grammar

/-- The rules that have nonterminals, with their numbers. -/
def nonterminalRules (g : Grammar) : List (Rule × RuleId) :=
  g.numbered.filter fun r => hasNonterminal r.1.shape

theorem addTerms_spec {rules : List (Rule × RuleId)} {l l' : Lowered} {m m' : SymbolMap}
    (h : addTerms l m rules = .ok (l', m')) (hl : l.names.Nodup) :
    l'.names.Nodup ∧
      l' = { l with terminals := l.terminals ++ (rules.map (·.1.name)).toArray } ∧
      m' = ((rules.map Prod.snd).zipIdx l.terminals.size).reverse ++ m := by
  induction rules generalizing l m with
  | nil =>
    cases h
    exact ⟨hl, by simp, by simp⟩
  | cons r rules ih =>
    obtain ⟨rule, id⟩ := r
    obtain ⟨l₁, h₁, h⟩ := bind_eq_ok_iff.1 h
    obtain ⟨hn, hl', hm'⟩ := ih h (Lowered.nodup_of_addTerminal hl h₁)
    obtain ⟨-, rfl⟩ := Lowered.addTerminal_eq_ok_iff.1 h₁
    refine ⟨hn, ?_, ?_⟩
    · rw [hl']
      simp
    · rw [hm']
      simp

theorem addNonterminals_spec {rules : List (Rule × RuleId)} {l l' : Lowered} {m m' : SymbolMap}
    (h : addNonterminals l m rules = .ok (l', m')) (hl : l.names.Nodup) :
    l'.names.Nodup ∧
      l' = { l with nonterminals := l.nonterminals ++
        ((rules.filter fun r => hasNonterminal r.1.shape).map (·.1.name)).toArray } ∧
      m' = (((rules.filter fun r => hasNonterminal r.1.shape).map Prod.snd).zipIdx
        l.numSymbols).reverse ++ m := by
  induction rules generalizing l m with
  | nil =>
    cases h
    exact ⟨hl, by simp, by simp⟩
  | cons r rules ih =>
    obtain ⟨rule, id⟩ := r
    unfold addNonterminals at h
    split_ifs at h with hshape
    · obtain ⟨l₁, h₁, h⟩ := bind_eq_ok_iff.1 h
      obtain ⟨hn, hl', hm'⟩ := ih h (Lowered.nodup_of_addNonterminal hl h₁)
      obtain ⟨-, rfl⟩ := Lowered.addNonterminal_eq_ok_iff.1 h₁
      refine ⟨hn, ?_, ?_⟩
      · rw [hl']
        simp [hshape]
      · rw [hm']
        simp [hshape, Lowered.numSymbols, Nat.add_assoc]
    · simpa [hshape] using ih h hl

/-! ## Symbols of rules -/

/-- A lowered grammar and the symbols in it of the rules: terms have the terminals but
    `$end`, and named sequences, alternatives and lists the nonterminals but `$accept`. -/
structure Numbers (g : Grammar) (lowered : Lowered) (symbols : SymbolMap) : Prop where
  nodup : lowered.names.Nodup
  terminals : lowered.terminals.toList = "$end" :: g.terms.map (·.1.name)
  nonterminals : lowered.nonterminals.toList = "$accept" :: g.nonterminalRules.map (·.1.name)
  symbols : symbols = ((g.nonterminalRules.map Prod.snd).zipIdx (g.terms.length + 2)).reverse ++
    ((g.terms.map Prod.snd).zipIdx 1).reverse

theorem numbers_of_symbols {g : Grammar} {lowered : Lowered} {symbols : SymbolMap}
    (h : g.symbols = .ok (lowered, symbols)) :
    g.Numbers lowered symbols ∧ lowered.productions = #[] ∧ lowered.derivations = #[] := by
  obtain ⟨l₁, h₁, h⟩ := bind_eq_ok_iff.1 h
  obtain ⟨⟨l₂, m₂⟩, h₂, h⟩ := bind_eq_ok_iff.1 h
  obtain ⟨l₃, h₃, h⟩ := bind_eq_ok_iff.1 h
  have hempty : Lowered.empty.names.Nodup := List.nodup_nil
  have hn₁ := Lowered.nodup_of_addTerminal hempty h₁
  obtain ⟨hn₂, hl₂, hm₂⟩ := addTerms_spec h₂ hn₁
  obtain ⟨hn, hl, hm⟩ := addNonterminals_spec h (Lowered.nodup_of_addNonterminal hn₂ h₃)
  obtain ⟨-, hl₃⟩ := Lowered.addNonterminal_eq_ok_iff.1 h₃
  obtain ⟨-, hl₁⟩ := Lowered.addTerminal_eq_ok_iff.1 h₁
  subst hl₁ hl₂ hm₂
  have hsize : l₃.numSymbols = g.terms.length + 2 := by
    simp [hl₃, Lowered.empty, Lowered.numSymbols]
  rw [hsize] at hm
  subst hl₃
  refine ⟨⟨hn, ?_, ?_, ?_⟩, ?_, ?_⟩
  · rw [hl]; simp [Lowered.empty]
  · rw [hl]; simp [Lowered.empty, nonterminalRules]
  · rw [hm]; simp [Lowered.empty, nonterminalRules]
  · rw [hl]; rfl
  · rw [hl]; rfl

/-! ## Looking up symbols -/

variable {g : Grammar} {lowered : Lowered} {symbols : SymbolMap} {id : RuleId} {s : Nat}

theorem mem_numbered {rule : Rule} : (rule, id) ∈ g.numbered ↔ g.rule? id = some rule := by
  simp [numbered, rule?, List.mk_mem_zipIdx_iff_getElem?]

theorem mem_terms {rule : Rule} :
    (rule, id) ∈ g.terms ↔ g.rule? id = some rule ∧ rule.shape.isTerm = true := by
  simp [terms, mem_numbered]

theorem mem_nonterminalRules {rule : Rule} : (rule, id) ∈ g.nonterminalRules ↔
    g.rule? id = some rule ∧ hasNonterminal rule.shape = true := by
  simp [nonterminalRules, mem_numbered]

theorem not_hasNonterminal_of_isTerm {shape : Shape} (h : shape.isTerm = true) :
    hasNonterminal shape = false := by
  cases shape <;> first | rfl | cases h

theorem nodup_numbered : (g.numbered.map Prod.snd).Nodup := by
  rw [numbered, List.zipIdx_map_snd]
  exact List.nodup_range'

namespace Numbers

theorem numTerminals_eq (h : g.Numbers lowered symbols) :
    lowered.numTerminals = g.terms.length + 1 := by
  rw [Lowered.numTerminals, ← Array.length_toList, h.terminals]
  simp

theorem numSymbols_eq (h : g.Numbers lowered symbols) :
    lowered.numSymbols = g.terms.length + g.nonterminalRules.length + 2 := by
  rw [← Lowered.length_names, Lowered.names, h.terminals, h.nonterminals]
  simp
  omega

theorem nodup_keys (h : g.Numbers lowered symbols) : (symbols.map Prod.fst).Nodup := by
  have hsub : ∀ keep : Rule × RuleId → Bool,
      ((g.numbered.filter keep).map Prod.snd).Nodup := fun keep =>
    nodup_numbered.sublist (List.filter_sublist.map Prod.snd)
  rw [h.symbols, List.map_append, List.map_reverse, List.map_reverse, List.zipIdx_map_fst,
    List.zipIdx_map_fst, List.nodup_append]
  refine ⟨List.nodup_reverse.2 (hsub _), List.nodup_reverse.2 (hsub _), ?_⟩
  rintro id hid _ hid' rfl
  -- no rule is a term and has a nonterminal
  simp only [List.mem_reverse, List.mem_map, Prod.exists, exists_eq_right] at hid hid'
  obtain ⟨rule, hrule⟩ := hid
  obtain ⟨rule', hrule'⟩ := hid'
  obtain ⟨hr, hshape⟩ := mem_nonterminalRules.1 hrule
  obtain ⟨hr', hshape'⟩ := mem_terms.1 hrule'
  obtain rfl := Option.some.inj (hr.symm.trans hr')
  rw [not_hasNonterminal_of_isTerm hshape'] at hshape
  cases hshape

theorem lookup_iff (h : g.Numbers lowered symbols) : symbols.lookup id = some s ↔
    (g.terms.length + 2 ≤ s ∧ (g.nonterminalRules[s - (g.terms.length + 2)]?).map Prod.snd = some id) ∨
      (1 ≤ s ∧ (g.terms[s - 1]?).map Prod.snd = some id) := by
  rw [lookup_eq_some_iff_mem h.nodup_keys, h.symbols, List.mem_append, List.mem_reverse,
    List.mem_reverse, List.mk_mem_zipIdx_iff_le_and_getElem?_sub,
    List.mk_mem_zipIdx_iff_le_and_getElem?_sub, List.getElem?_map, List.getElem?_map]

/-- The rule whose symbol it is has the name of the symbol. -/
theorem of_lookup (h : g.Numbers lowered symbols) (hs : symbols.lookup id = some s) :
    ∃ rule, g.rule? id = some rule ∧ lowered.names[s]? = some rule.name ∧
      (rule.shape.isTerm = true ∧ endSymbol < s ∧ s < lowered.numTerminals ∨
        hasNonterminal rule.shape = true ∧ lowered.accept < s ∧ s < lowered.numSymbols) := by
  have hT := h.numTerminals_eq
  have hN := h.numSymbols_eq
  rcases h.lookup_iff.1 hs with ⟨hle, hs⟩ | ⟨hle, hs⟩
  all_goals
    obtain ⟨⟨rule, _⟩, hget, rfl⟩ := Option.map_eq_some_iff.1 hs
    have hmem := List.mem_of_getElem? hget
    have hlt := (List.getElem?_eq_some_iff.1 hget).1
  · obtain ⟨hr, hshape⟩ := mem_nonterminalRules.1 hmem
    refine ⟨rule, hr, ?_, .inr ⟨hshape, ?_, by omega⟩⟩
    · obtain ⟨k, rfl⟩ : ∃ k : Nat, s = lowered.numTerminals + (k + 1) :=
        ⟨s - (g.terms.length + 2), by omega⟩
      rw [Lowered.names_getElem?_nonterminal, ← Array.getElem?_toList, h.nonterminals,
        List.getElem?_cons_succ, List.getElem?_map]
      rw [show lowered.numTerminals + (k + 1) - (g.terms.length + 2) = k by omega] at hget
      rw [hget]
      rfl
    · show lowered.numTerminals < s
      omega
  · obtain ⟨hr, hshape⟩ := mem_terms.1 hmem
    refine ⟨rule, hr, ?_, .inl ⟨hshape, hle, by omega⟩⟩
    have hs : s < lowered.numTerminals := by omega
    rw [Lowered.names_getElem?_terminal hs, ← Array.getElem?_toList, h.terminals]
    obtain ⟨k, rfl⟩ : ∃ k : Nat, s = k + 1 := ⟨s - 1, by omega⟩
    rw [List.getElem?_cons_succ, List.getElem?_map]
    rw [Nat.add_sub_cancel] at hget
    rw [hget]
    rfl

theorem exists_lookup (h : g.Numbers lowered symbols) {rule : Rule} (hr : g.rule? id = some rule)
    (hshape : rule.shape.isTerm = true ∨ hasNonterminal rule.shape = true) :
    ∃ s, symbols.lookup id = some s := by
  rcases hshape with hshape | hshape
  · obtain ⟨k, hk⟩ := List.mem_iff_getElem?.1 (mem_terms.2 ⟨hr, hshape⟩)
    exact ⟨k + 1, h.lookup_iff.2 (.inr ⟨Nat.le_add_left 1 k, by simp [hk]⟩)⟩
  · obtain ⟨k, hk⟩ := List.mem_iff_getElem?.1 (mem_nonterminalRules.2 ⟨hr, hshape⟩)
    refine ⟨g.terms.length + 2 + k, h.lookup_iff.2 (.inl ⟨Nat.le_add_right _ _, ?_⟩)⟩
    rw [Nat.add_sub_cancel_left, hk]
    rfl

theorem exists_term (h : g.Numbers lowered symbols) (hs : lowered.isTerminal s = true)
    (hne : s ≠ endSymbol) : ∃ id, symbols.lookup id = some s := by
  have hT := h.numTerminals_eq
  have hlt : s < lowered.numTerminals := of_decide_eq_true hs
  obtain ⟨k, rfl⟩ : ∃ k : Nat, s = k + 1 := Nat.exists_eq_succ_of_ne_zero hne
  have hk : k < g.terms.length := by omega
  exact ⟨(g.terms[k]).2, h.lookup_iff.2 (.inr ⟨Nat.le_add_left 1 k, by simp [hk]⟩)⟩

/-- No two rules have the same symbol. -/
theorem lookup_inj (h : g.Numbers lowered symbols) {id' : RuleId}
    (hs : symbols.lookup id = some s) (hs' : symbols.lookup id' = some s) : id = id' := by
  have hlt : ∀ {i : RuleId}, (g.terms[s - 1]?).map Prod.snd = some i → s - 1 < g.terms.length := by
    intro i hi
    obtain ⟨r, hr, -⟩ := Option.map_eq_some_iff.1 hi
    exact (List.getElem?_eq_some_iff.1 hr).1
  rcases h.lookup_iff.1 hs with ⟨hle, hs⟩ | ⟨hle, hs⟩ <;>
    rcases h.lookup_iff.1 hs' with ⟨hle', hs'⟩ | ⟨hle', hs'⟩
  · exact Option.some.inj (hs.symm.trans hs')
  · have := hlt hs'
    omega
  · have := hlt hs
    omega
  · exact Option.some.inj (hs.symm.trans hs')

/-- The symbol of a rule is the symbol with the name of the rule. -/
theorem symbol?_nameOf (h : g.Numbers lowered symbols) (hs : symbols.lookup id = some s) :
    lowered.symbol? (g.nameOf id) = some s := by
  obtain ⟨rule, hr, hname, -⟩ := h.of_lookup hs
  rw [Lowered.symbol?_eq_some_iff h.nodup, hname]
  simp [nameOf, hr]

theorem nameOf_eq (h : g.Numbers lowered symbols) (hs : symbols.lookup id = some s) :
    lowered.nameOf s = g.nameOf id := by
  obtain ⟨rule, hr, hname, -⟩ := h.of_lookup hs
  simp [Lowered.nameOf_eq, hname, nameOf, hr]

/-- The symbols but `$end` and `$accept` have the names of rules. -/
theorem exists_of_symbol? (h : g.Numbers lowered symbols) {name : String}
    (hs : lowered.symbol? name = some s) (hend : name ≠ "$end") (haccept : name ≠ "$accept") :
    ∃ id rule, g.rule? id = some rule ∧ rule.name = name ∧
      (rule.shape.isTerm = true ∨ hasNonterminal rule.shape = true) := by
  have hmem := List.mem_of_getElem? ((Lowered.symbol?_eq_some_iff h.nodup).1 hs)
  rw [Lowered.names, h.terminals, h.nonterminals, List.mem_append, List.mem_cons, List.mem_cons,
    or_iff_right hend, or_iff_right haccept, List.mem_map, List.mem_map] at hmem
  rcases hmem with ⟨⟨rule, id⟩, hmem, hname⟩ | ⟨⟨rule, id⟩, hmem, hname⟩
  · obtain ⟨hr, hshape⟩ := mem_terms.1 hmem
    exact ⟨id, rule, hr, hname, .inl hshape⟩
  · obtain ⟨hr, hshape⟩ := mem_nonterminalRules.1 hmem
    exact ⟨id, rule, hr, hname, .inr hshape⟩

end Numbers

end Grammar

end LanguageWorkbench
