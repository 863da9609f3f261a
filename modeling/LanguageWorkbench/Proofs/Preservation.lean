import LanguageWorkbench.Proofs.TreeGrowth

/-!
# Lowering preserves languages

The symbol of a rule derives exactly the words that the rule matches.

Results:
* `Lowered.derives_iff_matches`: the two languages are the same, and the first production
  starts with the symbol of the start rule.
-/

namespace LanguageWorkbench

namespace Grammar

variable {g : Grammar} {symbols : SymbolMap} {l : Lowered}

theorem LowersTo.derives_iff (h : g.LowersTo symbols l) (hg : g.Sound)
    (hc : g.check = .ok ()) {id : RuleId} {rule : Rule} (hrule : g.rule? id = some rule)
    (hkind : rule.shape.isTerm = true ∨ hasNonterminal rule.shape = true) {s : Symbol}
    (hs : symbols.lookup id = some s) {w : List Symbol}
    (hw : ∀ x ∈ w, l.isTerminal x = true) :
    l.Derives [s] w ↔ g.Matches id (w.map l.nameOf) := by
  have htexts : ∀ x ∈ w.map fun x => (x, ""), l.isTerminal x.1 = true := by simpa using hw
  have hspell : l.spell (w.map fun x => (x, "")) = w.map l.nameOf := by
    simp [Lowered.spell, Function.comp_def]
  have hword : (w.map fun x => ((x, "") : Terminal)).map Prod.fst = w := by
    simp [Function.comp_def]
  rw [← hword, Lowered.derives_iff_grows htexts, hword, ← hspell]
  constructor
  · rintro ⟨tree, htree⟩
    exact h.matches_of_grows hg hc htree id hs
  · intro hm
    rcases h.grown_of_matches hg hm _ htexts rfl with ⟨s', tree, hr, htree⟩ |
      ⟨k, y, inner, hleads, hinner, -⟩
    · obtain ⟨_, hs', hlookup⟩ := (hr false).exists_symbol hrule hkind
      obtain rfl := Option.some.inj hs'
      obtain rfl := Option.some.inj (hs.symm.trans hlookup)
      exact ⟨tree, htree⟩
    · -- a rule with a symbol is no alias, and no anonymous sequence
      have hshape := shape?_of_rule? hrule rfl
      cases hleads with
      | refl _ =>
        rw [hshape, Option.some.injEq] at hinner
        rw [hinner] at hkind
        rcases hkind with hkind | hkind <;> cases hkind
      | step hnext _ =>
        rw [aliasTarget?_eq_some_iff, hshape, Option.some.injEq] at hnext
        rw [hnext] at hkind
        rcases hkind with hkind | hkind <;> cases hkind

end Grammar

/-- Lowering preserves the language of every rule that has a symbol, and the symbol that
    the first production starts with is that of the start rule behind aliases and
    options. -/
theorem Lowered.derives_iff_matches {text : String} {g : Grammar} {l : Lowered}
    (hload : Grammar.load text = .ok g) (hl : (Lowered.ofGrammar g).result = .ok l) :
    (∀ id rule, g.rule? id = some rule →
      rule.shape.isTerm = true ∨ Grammar.hasNonterminal rule.shape = true →
      ∃ s, l.symbol? rule.name = some s ∧ ∀ w : List Symbol, (∀ x ∈ w, l.isTerminal x = true) →
        (l.Derives [s] w ↔ g.Matches id (w.map l.nameOf))) ∧
    ∃ y s, g.StripsTo g.start y ∧ l.symbol? (g.nameOf y) = some s ∧
      l.productions[0]? = some ⟨l.accept, [s, endSymbol]⟩ := by
  obtain ⟨symbols, h⟩ := Grammar.lowersTo_of_ofGrammar hl
  have hg := Grammar.sound_of_load hload
  have hc := Grammar.check_of_load hload
  constructor
  · intro id rule hrule hkind
    obtain ⟨s, hs⟩ := h.numbers.exists_lookup hrule hkind
    refine ⟨s, ?_, fun w hw => h.derives_iff hg hc hrule hkind hs hw⟩
    have := h.numbers.symbol?_nameOf hs
    rwa [Grammar.nameOf, hrule] at this
  · obtain ⟨y, s, hy, hs, hzero⟩ := h.start
    exact ⟨y, s, Grammar.stripsTo_of_startRule hy, h.numbers.symbol?_nameOf hs, hzero⟩

/-- A grammar of sums: the first summand has no plus sign, and the others have one. -/
def Grammar.sums : String :=
  "language sums\natom LIT [0-9]+\nsymbol '+' plus\nstart sum\nsum:\n    sum? '+'= LIT\n"

theorem Lowered.derives_iff_matches_sums : ∃ g l, Grammar.load Grammar.sums = .ok g ∧
    (Lowered.ofGrammar g).result = .ok l ∧ ∃ id rule s, g.rule? id = some rule ∧
      l.symbol? rule.name = some s ∧ (l.Derives [s] [1] ↔ g.Matches id ["LIT"]) := by
  have hok : ((Grammar.load Grammar.sums).toOption.bind fun g =>
      (Lowered.ofGrammar g).result.toOption.map fun l =>
        decide ((g.rule? 2).map (·.shape) = some (.sequence [3, 4, 0] false)) &&
          l.isTerminal 1 && decide (l.nameOf 1 = "LIT")) = some true := by
    decide +kernel
  cases hload : Grammar.load Grammar.sums with
  | error f => rw [hload] at hok; cases hok
  | ok g =>
    cases hl : (Lowered.ofGrammar g).result with
    | error f => simp [hload, hl, Except.toOption] at hok
    | ok l =>
      simp only [hload, hl, Except.toOption, Option.bind_some, Option.map_some,
        Option.some.injEq, Bool.and_eq_true, decide_eq_true_eq] at hok
      obtain ⟨⟨hshape, hterm⟩, hname⟩ := hok
      obtain ⟨rule, hrule, hshape⟩ := Option.map_eq_some_iff.1 hshape
      obtain ⟨s, hs, hiff⟩ := (derives_iff_matches hload hl).1 2 rule hrule
        (.inr (by rw [hshape]; rfl))
      refine ⟨g, l, rfl, hl, 2, rule, s, hrule, hs, ?_⟩
      have := hiff [1] (by simpa using hterm)
      rwa [List.map_singleton, hname] at this

end LanguageWorkbench
