import LanguageWorkbench.Proofs.Choices

/-!
# Productions of lowered grammars

What `Lowered.ofGrammar` leaves when it succeeds: the first production ends the start
symbol, and the others are those that the choices of the rules bring, each with the
derivation of such a choice.

Results:
* `Grammar.Brings`: a production and a derivation that some choice of some rule brings.
* `Grammar.LowersTo`: the productions are those that choices bring.
* `Grammar.lowersTo_of_ofGrammar`: `Lowered.ofGrammar` lowers to such a grammar.
-/

namespace LanguageWorkbench

/-! ## Adding productions -/

/-- The second grammar is the first with more productions, whose derivations stand in
    a relation to them. -/
structure Lowered.Gains (P : Production → Derivation → Prop) (l l' : Lowered) : Prop where
  terminals : l'.terminals = l.terminals
  nonterminals : l'.nonterminals = l.nonterminals
  more : ∃ more : List (Production × Derivation),
    l'.productions = l.productions ++ (more.map Prod.fst).toArray ∧
      l'.derivations = l.derivations ++ (more.map Prod.snd).toArray ∧ ∀ e ∈ more, P e.1 e.2

namespace Lowered.Gains

variable {P : Production → Derivation → Prop} {l l' l'' : Lowered}

theorem refl (l : Lowered) : l.Gains P l := ⟨rfl, rfl, [], by simp, by simp, by simp⟩

theorem trans (h : l.Gains P l') (h' : l'.Gains P l'') : l.Gains P l'' := by
  obtain ⟨ht, hn, more, hp, hd, hP⟩ := h
  obtain ⟨ht', hn', more', hp', hd', hP'⟩ := h'
  refine ⟨ht'.trans ht, hn'.trans hn, more ++ more', ?_, ?_, ?_⟩
  · rw [hp', hp]
    simp
  · rw [hd', hd]
    simp
  · intro e he
    exact (List.mem_append.1 he).elim (hP e) (hP' e)

theorem mem (h : l.Gains P l') {p : Production} (hp : p ∈ l.productions) : p ∈ l'.productions := by
  obtain ⟨-, -, more, hprod, -⟩ := h
  rw [hprod]
  exact Array.mem_append_left _ hp

theorem size_eq (h : l.Gains P l') (hsize : l.derivations.size = l.productions.size) :
    l'.derivations.size = l'.productions.size := by
  obtain ⟨-, -, more, hp, hd, -⟩ := h
  simp [hp, hd, hsize]

/-- What is new stands in the relation. -/
theorem getElem? (h : l.Gains P l') (hsize : l.derivations.size = l.productions.size) {n : Nat}
    (hn : l.productions.size ≤ n) {p : Production} (hp : l'.productions[n]? = some p) :
    ∃ d, l'.derivations[n]? = some d ∧ P p d := by
  obtain ⟨-, -, more, hprod, hder, hP⟩ := h
  rw [hprod, Array.getElem?_append_right hn] at hp
  simp only [List.getElem?_toArray, List.getElem?_map] at hp
  obtain ⟨e, he, rfl⟩ := Option.map_eq_some_iff.1 hp
  refine ⟨e.2, ?_, hP e (List.mem_of_getElem? he)⟩
  rw [hder, Array.getElem?_append_right (hsize ▸ hn), hsize]
  simp [he]

/-- What was there stays. -/
theorem getElem?_of_lt (h : l.Gains P l') {n : Nat} {p : Production}
    (hp : l.productions[n]? = some p) : l'.productions[n]? = some p := by
  obtain ⟨-, -, more, hprod, -⟩ := h
  rw [hprod, Array.getElem?_append_left (Array.getElem?_eq_some_iff.1 hp).1, hp]

end Lowered.Gains

namespace Grammar

variable {g : Grammar} {symbols : SymbolMap}

/-- The derivation for a choice, where the node of the rule `built` is built. -/
def derivationOf (g : Grammar) (built : RuleId) (choice : List (Option Symbol)) : Derivation :=
  ⟨g.nameOf built, some built, absentPlaces 0 choice, g.collapse.contains built⟩

theorem addUnlessKnown_spec {P : Production → Derivation → Prop} {l l' : Lowered} {p : Production}
    {d : Derivation} (h : (g.addUnlessKnown l p d).result = .ok l') (hP : P p d) :
    l.Gains P l' ∧ p ∈ l'.productions := by
  unfold addUnlessKnown at h
  split at h
  · rename_i known hknown
    obtain ⟨hlt, he, -⟩ := List.findIdx?_eq_some_iff_getElem.1 hknown
    obtain ⟨-, -, h⟩ := Noted.result_bind_eq_ok_iff.1 h
    cases h
    refine ⟨⟨rfl, rfl, [], by simp, by simp, by simp⟩, ?_⟩
    rw [← Array.mem_toList_iff]
    exact beq_iff_eq.1 he ▸ List.getElem_mem hlt
  · obtain ⟨-, -, h⟩ := Noted.result_bind_eq_ok_iff.1 h
    cases h
    refine ⟨⟨rfl, rfl, [(p, d)], by simp [Lowered.addProduction], by simp [Lowered.addProduction],
      by simpa using hP⟩, ?_⟩
    simp [Lowered.addProduction]

theorem addChoices_spec {P : Production → Derivation → Prop} {lhs : Symbol} {built : RuleId}
    {found : List (List (Option Symbol))} {l l' : Lowered}
    (h : (g.addChoices lhs built l found).result = .ok l')
    (hP : ∀ choice ∈ found, P ⟨lhs, presentSymbols choice⟩ (g.derivationOf built choice)) :
    l.Gains P l' ∧ ∀ choice ∈ found, ⟨lhs, presentSymbols choice⟩ ∈ l'.productions := by
  induction found generalizing l with
  | nil =>
    cases h
    exact ⟨.refl _, by simp⟩
  | cons choice rest ih =>
    obtain ⟨l₁, h₁, h⟩ := Noted.result_bind_eq_ok_iff.1 h
    obtain ⟨hgains, hmem⟩ := addUnlessKnown_spec h₁ (hP choice (List.mem_cons_self ..))
    obtain ⟨hgains', hmem'⟩ := ih h fun c hc => hP c (List.mem_cons_of_mem _ hc)
    refine ⟨hgains.trans hgains', fun c hc => ?_⟩
    rcases List.mem_cons.1 hc with rfl | hc
    · exact hgains'.mem hmem
    · exact hmem' c hc

/-- What the contributions `cs` bring: a production for some choice of the bits of one
    of them, and the derivation for it. -/
def BroughtBy (g : Grammar) (symbols : SymbolMap) (cs : List (RuleId × List RuleId × RuleId))
    (p : Production) (d : Derivation) : Prop :=
  ∃ c ∈ cs, ∃ lhs found, symbols.lookup c.1 = some lhs ∧
    g.choices symbols false (g.inlineBits c.2.1) = .ok found ∧
    ∃ choice ∈ found, p = ⟨lhs, presentSymbols choice⟩ ∧ d = g.derivationOf c.2.2 choice

/-- All choices of the contributions `cs` are productions. -/
def Served (g : Grammar) (symbols : SymbolMap) (cs : List (RuleId × List RuleId × RuleId))
    (l : Lowered) : Prop :=
  ∀ c ∈ cs, ∃ lhs found, symbols.lookup c.1 = some lhs ∧
    g.choices symbols false (g.inlineBits c.2.1) = .ok found ∧
    ∀ choice ∈ found, ⟨lhs, presentSymbols choice⟩ ∈ l.productions

theorem BroughtBy.mono {cs cs' : List (RuleId × List RuleId × RuleId)} {p : Production}
    {d : Derivation} (hsub : ∀ c ∈ cs, c ∈ cs') (h : g.BroughtBy symbols cs p d) :
    g.BroughtBy symbols cs' p d := by
  obtain ⟨c, hc, h⟩ := h
  exact ⟨c, hsub c hc, h⟩

theorem Served.mono {cs : List (RuleId × List RuleId × RuleId)} {l l' : Lowered}
    {P : Production → Derivation → Prop} (h : g.Served symbols cs l) (hl : l.Gains P l') :
    g.Served symbols cs l' := by
  intro c hc
  obtain ⟨lhs, found, hlhs, hfound, hmem⟩ := h c hc
  exact ⟨lhs, found, hlhs, hfound, fun choice hchoice => hl.mem (hmem choice hchoice)⟩

theorem addContributions_spec {P : Production → Derivation → Prop}
    {cs : List (RuleId × List RuleId × RuleId)} {l l' : Lowered}
    (h : (g.addContributions symbols l cs).result = .ok l')
    (hP : ∀ p d, g.BroughtBy symbols cs p d → P p d) :
    l.Gains P l' ∧ g.Served symbols cs l' := by
  induction cs generalizing l with
  | nil =>
    cases h
    exact ⟨.refl _, fun _ hc => absurd hc List.not_mem_nil⟩
  | cons c cs ih =>
    obtain ⟨id, bits, built⟩ := c
    obtain ⟨found, hfound, h⟩ := Noted.result_bind_eq_ok_iff.1 h
    rw [Noted.result_ofResult] at hfound
    cases hlhs : symbols.lookup id with
    | none =>
      rw [hlhs] at h
      cases h
    | some lhs =>
      rw [hlhs] at h
      obtain ⟨l₁, h₁, h⟩ := Noted.result_bind_eq_ok_iff.1 h
      obtain ⟨hgains, hmem⟩ := addChoices_spec h₁ fun choice hchoice => hP _ _
        ⟨_, List.mem_cons_self .., lhs, found, hlhs, hfound, choice, hchoice, rfl, rfl⟩
      obtain ⟨hgains', hserved⟩ := ih h fun p d hb =>
        hP p d (hb.mono fun _ hc => List.mem_cons_of_mem _ hc)
      refine ⟨hgains.trans hgains', fun c hc => ?_⟩
      rcases List.mem_cons.1 hc with rfl | hc
      · exact ⟨lhs, found, hlhs, hfound, fun choice hc => hgains'.mem (hmem choice hc)⟩
      · exact hserved c hc

/-- A production and a derivation that some choice of some rule brings. -/
def Brings (g : Grammar) (symbols : SymbolMap) (p : Production) (d : Derivation) : Prop :=
  ∃ rule id, g.rule? id = some rule ∧ g.BroughtBy symbols (contributions rule id) p d

theorem addRules_spec {rules : List (Rule × RuleId)} {l l' : Lowered}
    (h : (g.addRules symbols l rules).result = .ok l') (hrules : ∀ r ∈ rules, r ∈ g.numbered) :
    l.Gains (g.Brings symbols) l' ∧
      ∀ r ∈ rules, g.Served symbols (contributions r.1 r.2) l' ∧
        ∀ child, r.1.shape ≠ .separator child ∧ r.1.shape ≠ .delimiter child := by
  induction rules generalizing l with
  | nil =>
    cases h
    exact ⟨.refl _, fun _ hr => absurd hr List.not_mem_nil⟩
  | cons r rules ih =>
    obtain ⟨rule, id⟩ := r
    have hrule : g.rule? id = some rule := mem_numbered.1 (hrules _ (List.mem_cons_self ..))
    have hstep : ∃ l₁, (g.addContributions symbols l (contributions rule id)).result = .ok l₁ ∧
        (g.addRules symbols l₁ rules).result = .ok l' ∧
        ∀ child, rule.shape ≠ .separator child ∧ rule.shape ≠ .delimiter child := by
      unfold addRules at h
      split at h
      · cases h
      · cases h
      · rename_i hsep hdelim
        obtain ⟨l₁, h₁, h⟩ := Noted.result_bind_eq_ok_iff.1 h
        exact ⟨l₁, h₁, h, fun child => ⟨hsep child, hdelim child⟩⟩
    obtain ⟨l₁, h₁, h, hshape⟩ := hstep
    obtain ⟨hgains, hserved⟩ := addContributions_spec (P := g.Brings symbols) h₁
      fun p d hb => ⟨rule, id, hrule, hb⟩
    obtain ⟨hgains', hall⟩ := ih h fun r hr => hrules r (List.mem_cons_of_mem _ hr)
    refine ⟨hgains.trans hgains', fun r hr => ?_⟩
    rcases List.mem_cons.1 hr with rfl | hr
    · exact ⟨hserved.mono hgains', hshape⟩
    · exact hall r hr

/-- A lowered grammar with what the rules of a grammar bring. -/
structure LowersTo (g : Grammar) (symbols : SymbolMap) (l : Lowered) : Prop where
  numbers : g.Numbers l symbols
  start : ∃ id s, (g.startRule (g.size + 1) g.start).result = .ok id ∧
    symbols.lookup id = some s ∧ l.productions[0]? = some ⟨l.accept, [s, endSymbol]⟩
  size_eq : l.derivations.size = l.productions.size
  brings : ∀ {n : Nat} {p : Production}, n ≠ 0 → l.productions[n]? = some p →
    ∃ d, l.derivations[n]? = some d ∧ g.Brings symbols p d
  served : ∀ {id : RuleId} {rule : Rule}, g.rule? id = some rule →
    g.Served symbols (contributions rule id) l
  repeats : ∀ {id : RuleId} {rule : Rule}, g.rule? id = some rule → ∀ child,
    rule.shape ≠ .separator child ∧ rule.shape ≠ .delimiter child

theorem Numbers.congr {l l' : Lowered} (h : g.Numbers l symbols)
    (ht : l'.terminals = l.terminals) (hn : l'.nonterminals = l.nonterminals) :
    g.Numbers l' symbols := by
  obtain ⟨hnodup, hterminals, hnonterminals, hsymbols⟩ := h
  have hnames : l'.names = l.names := by rw [Lowered.names, Lowered.names, ht, hn]
  exact ⟨hnames ▸ hnodup, ht ▸ hterminals, hn ▸ hnonterminals, hsymbols⟩

/-- The first production and those that the rules bring are a lowered grammar. -/
theorem lowersTo_of_addRules {l₀ l : Lowered} {start : RuleId} {s : Symbol}
    (h₀ : g.symbols = .ok (l₀, symbols))
    (hstart : (g.startRule (g.size + 1) g.start).result = .ok start)
    (hs : symbols.lookup start = some s)
    (h : (g.addRules symbols (l₀.addProduction ⟨l₀.accept, [s, endSymbol]⟩ (.plain "$accept"))
      g.numbered).result = .ok l) : g.LowersTo symbols l := by
  obtain ⟨hnumbers, hproductions, hderivations⟩ := numbers_of_symbols h₀
  obtain ⟨hgains, hserved⟩ := addRules_spec h fun _ hr => hr
  have hzero : (l₀.addProduction ⟨l₀.accept, [s, endSymbol]⟩ (.plain "$accept")).productions =
      #[⟨l₀.accept, [s, endSymbol]⟩] := by
    simp [Lowered.addProduction, hproductions]
  have hsize : (l₀.addProduction ⟨l₀.accept, [s, endSymbol]⟩ (.plain "$accept")).derivations.size =
      (l₀.addProduction ⟨l₀.accept, [s, endSymbol]⟩ (.plain "$accept")).productions.size := by
    simp [Lowered.addProduction, hproductions, hderivations]
  have haccept : l.accept = l₀.accept := by
    simp [Lowered.accept, Lowered.numTerminals, hgains.terminals, Lowered.addProduction]
  refine ⟨hnumbers.congr hgains.terminals hgains.nonterminals, ⟨start, s, hstart, hs, ?_⟩,
    hgains.size_eq hsize, ?_, ?_, ?_⟩
  · rw [haccept]
    exact hgains.getElem?_of_lt (by rw [hzero]; rfl)
  · intro n p hn hp
    refine hgains.getElem? hsize ?_ hp
    rw [hzero]
    exact Nat.one_le_iff_ne_zero.2 hn
  · intro id rule hrule
    exact (hserved _ (mem_numbered.2 hrule)).1
  · intro id rule hrule
    exact (hserved _ (mem_numbered.2 hrule)).2

/-- A lowered grammar is its symbols and its first production, with what the rules add. -/
theorem exists_addRules_of_ofGrammar {l : Lowered} (h : (Lowered.ofGrammar g).result = .ok l) :
    ∃ l₀ symbols start s, g.symbols = .ok (l₀, symbols) ∧
      (g.startRule (g.size + 1) g.start).result = .ok start ∧ symbols.lookup start = some s ∧
      (g.addRules symbols (l₀.addProduction ⟨l₀.accept, [s, endSymbol]⟩ (.plain "$accept"))
        g.numbered).result = .ok l := by
  unfold Lowered.ofGrammar at h
  obtain ⟨⟨l₀, symbols⟩, h₀, h⟩ := Noted.result_bind_eq_ok_iff.1 h
  rw [Noted.result_ofResult, mapError_eq_ok_iff] at h₀
  obtain ⟨start, hstart, h⟩ := Noted.result_bind_eq_ok_iff.1 h
  cases hs : symbols.lookup start with
  | none =>
    simp only [hs] at h
    cases h
  | some s =>
    simp only [hs] at h
    obtain ⟨l₁, h₁, h⟩ := Noted.result_bind_eq_ok_iff.1 h
    obtain ⟨-, -, h⟩ := Noted.result_bind_eq_ok_iff.1 h
    cases h
    exact ⟨l₀, symbols, start, s, h₀, hstart, hs, h₁⟩

theorem lowersTo_of_ofGrammar {l : Lowered} (h : (Lowered.ofGrammar g).result = .ok l) :
    ∃ symbols, g.LowersTo symbols l := by
  obtain ⟨l₀, symbols, start, s, h₀, hstart, hs, h⟩ := exists_addRules_of_ofGrammar h
  exact ⟨symbols, lowersTo_of_addRules h₀ hstart hs h⟩

/-! ## Well-formed results -/

theorem rule_of_contributions {rule : Rule} {id : RuleId} {c : RuleId × List RuleId × RuleId}
    (h : c ∈ contributions rule id) : c.1 = id ∧ hasNonterminal rule.shape = true := by
  cases hshape : rule.shape with
  | sequence bits anonymous => cases anonymous <;> simp_all [contributions, hasNonterminal]
  | alternative bits =>
    simp only [contributions, hshape, List.mem_map] at h
    obtain ⟨bit, -, rfl⟩ := h
    exact ⟨rfl, rfl⟩
  | plus child =>
    simp only [contributions, hshape, List.mem_cons, List.not_mem_nil, or_false] at h
    rcases h with rfl | rfl <;> exact ⟨rfl, rfl⟩
  | _ => simp [contributions, hshape] at h

/-- A production that a rule brings belongs to the symbol of that rule. -/
theorem BroughtBy.lhs {rule : Rule} {id : RuleId} {p : Production} {d : Derivation}
    (h : g.BroughtBy symbols (contributions rule id) p d) :
    symbols.lookup id = some p.lhs ∧ hasNonterminal rule.shape = true := by
  obtain ⟨c, hc, lhs, found, hlhs, -, choice, -, rfl, -⟩ := h
  obtain ⟨rfl, hshape⟩ := rule_of_contributions hc
  exact ⟨hlhs, hshape⟩

theorem BroughtBy.rhs {cs : List (RuleId × List RuleId × RuleId)} {p : Production}
    {d : Derivation} (h : g.BroughtBy symbols cs p d) {s : Symbol} (hs : s ∈ p.rhs) :
    ∃ id, symbols.lookup id = some s := by
  obtain ⟨c, hc, lhs, found, hlhs, hfound, choice, hchoice, rfl, -⟩ := h
  exact ((mem_choices_iff hfound).1 hchoice).lookup hs

/-- Symbols of rules are neither `$end` nor `$accept`. -/
theorem Numbers.ne_of_lookup {l : Lowered} (h : g.Numbers l symbols) {id : RuleId} {s : Symbol}
    (hs : symbols.lookup id = some s) : s < l.numSymbols ∧ s ≠ endSymbol ∧ s ≠ l.accept := by
  have hT := h.numTerminals_eq
  have hN := h.numSymbols_eq
  obtain ⟨rule, -, -, ⟨-, hpos, hlt⟩ | ⟨-, hpos, hlt⟩⟩ := h.of_lookup hs
  · refine ⟨Nat.lt_of_lt_of_le hlt (by omega), Nat.ne_of_gt hpos, Nat.ne_of_lt hlt⟩
  · exact ⟨hlt, Nat.ne_of_gt (Nat.lt_of_le_of_lt (Nat.zero_le _) hpos), Nat.ne_of_gt hpos⟩

theorem LowersTo.wellFormed {l : Lowered} (h : g.LowersTo symbols l) : l.WellFormed := by
  have hT := h.numbers.numTerminals_eq
  have hN := h.numbers.numSymbols_eq
  obtain ⟨start, s, -, hs, hzero⟩ := h.start
  -- all productions but the first are brought by rules
  have hlhs : ∀ {n : Nat} {p : Production}, l.productions[n]? = some p → n ≠ 0 →
      l.accept < p.lhs ∧ p.lhs < l.numSymbols := by
    intro n p hp hn
    obtain ⟨d, -, rule, id, hrule, hb⟩ := h.brings hn hp
    obtain ⟨hlookup, hshape⟩ := hb.lhs
    obtain ⟨rule', hrule', -, ⟨hterm, -⟩ | ⟨-, hlt⟩⟩ := h.numbers.of_lookup hlookup
    · obtain rfl := Option.some.inj (hrule.symm.trans hrule')
      rw [not_hasNonterminal_of_isTerm hterm] at hshape
      cases hshape
    · exact hlt
  have hrhs : ∀ {n : Nat} {p : Production}, l.productions[n]? = some p → n ≠ 0 →
      ∀ s ∈ p.rhs, s < l.numSymbols ∧ s ≠ endSymbol ∧ s ≠ l.accept := by
    intro n p hp hn s hs
    obtain ⟨d, -, rule, id, -, hb⟩ := h.brings hn hp
    obtain ⟨id', hs'⟩ := hb.rhs hs
    exact h.numbers.ne_of_lookup hs'
  refine ⟨⟨s, hzero⟩, ?_, ?_, ?_, ?_, ?_⟩
  · rw [hT]
    exact Nat.succ_pos _
  · intro n p hp
    by_cases hn : n = 0
    · subst hn
      obtain rfl := Option.some.inj (hzero.symm.trans hp)
      exact ⟨Nat.le_refl _, by show l.numTerminals < _; omega⟩
    · exact ⟨Nat.le_of_lt (hlhs hp hn).1, (hlhs hp hn).2⟩
  · intro n p hp s' hs'
    by_cases hn : n = 0
    · subst hn
      obtain rfl := Option.some.inj (hzero.symm.trans hp)
      rcases List.mem_cons.1 hs' with rfl | hs'
      · exact (h.numbers.ne_of_lookup hs).1
      · rw [List.mem_singleton.1 hs']
        show 0 < l.numSymbols
        omega
    · exact (hrhs hp hn s' hs').1
  · intro n p hp hn
    exact Nat.ne_of_gt (hlhs hp hn).1
  · intro n p hp hn s' hs'
    exact (hrhs hp hn s' hs').2

end Grammar

end LanguageWorkbench
