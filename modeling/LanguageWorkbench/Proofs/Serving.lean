import LanguageWorkbench.Proofs.Feeding
import LanguageWorkbench.Proofs.Productions

/-!
# Tree builders serve their tables

Every terminal that a table shifts has a kind, and every reduction it makes has a value:
the places of absent bits fit between the values, and where a node is built its kind is
there.

Results:
* `TreeBuilder.splice_absentPlaces`: splicing puts nothing where a choice was absent.
* `Machine.serves_of_ready`: a builder that is ready for a grammar serves its table.
* `Grammar.LowersTo.ready`: so is the builder of a checked grammar.
* `Lowered.Made`: the lowered grammars there are, whose symbols follow the rules.
-/

namespace LanguageWorkbench

/-! ## Kinds -/

namespace Schema

theorem exists_kind? {s : Schema} {info : KindInfo} (h : info ∈ s.kinds) :
    ∃ kind, s.kind? info.name = some kind := by
  have hsome : (s.kinds.toList.zipIdx.reverse.find? (·.1.name == info.name)).isSome = true := by
    rw [List.find?_isSome]
    obtain ⟨n, hn⟩ := List.mem_iff_getElem?.1 (Array.mem_toList_iff.2 h)
    exact ⟨(info, n), List.mem_reverse.2 (List.mk_mem_zipIdx_iff_getElem?.2 hn),
      beq_self_eq_true _⟩
  obtain ⟨e, he⟩ := Option.isSome_iff_exists.1 hsome
  exact ⟨e.2, by rw [kind?, he]; rfl⟩

/-- Rules whose values are nodes of their own have kinds. -/
theorem exists_kind?_of_concrete {g : Grammar} {id : RuleId} {rule : Rule}
    (h : g.rule? id = some rule) (hshape : rule.shape.isConcrete = true) :
    ∃ kind, (ofGrammar g).kind? (g.nameOf id) = some kind := by
  have hmem : ⟨rule.name, rule.tag.dash, some id, rule.shape.isTerm⟩ ∈ (ofGrammar g).kinds := by
    rw [ofGrammar, List.mem_toArray]
    exact List.mem_map.2 ⟨(rule, id), List.mem_filter.2 ⟨Grammar.mem_numbered.2 h, hshape⟩, rfl⟩
  obtain ⟨kind, hkind⟩ := exists_kind? hmem
  exact ⟨kind, by simpa [Grammar.nameOf, h] using hkind⟩

theorem mem_addNames {kinds : Array KindInfo} {names : List String} :
    (∀ info ∈ kinds, info ∈ addNames kinds names) ∧
      ∀ name ∈ names, ∃ info ∈ addNames kinds names, info.name = name := by
  induction names generalizing kinds with
  | nil => exact ⟨fun _ h => h, by simp⟩
  | cons n rest ih =>
    unfold addNames
    split_ifs with h
    · refine ⟨ih.1, fun name hname => ?_⟩
      rcases List.mem_cons.1 hname with rfl | hname
      · obtain ⟨info, hinfo, hn⟩ := Array.any_eq_true'.1 h
        exact ⟨info, ih.1 info hinfo, of_decide_eq_true hn⟩
      · exact ih.2 name hname
    · refine ⟨fun info hinfo => ih.1 info (Array.mem_push_of_mem _ hinfo), fun name hname => ?_⟩
      rcases List.mem_cons.1 hname with rfl | hname
      · exact ⟨_, ih.1 _ Array.mem_push_self, rfl⟩
      · exact ih.2 name hname

end Schema

/-! ## Values with places of absent bits -/

namespace TreeBuilder

open Grammar (absentPlaces presentSymbols)

/-- The values of a choice with nothing in the places of absent bits. -/
def fill : List (Option Symbol) → List Node → List Node
  | [], values => values
  | none :: rest, values => .nothing :: fill rest values
  | some _ :: rest, [] => fill rest []
  | some _ :: rest, value :: values => value :: fill rest values

theorem splice_append (name : String) {choice : List (Option Symbol)} {values : List Node}
    (h : values.length = (presentSymbols choice).length) (done : List Node) :
    splice name (done ++ values) (absentPlaces done.length choice) =
      .ok (done ++ fill choice values) := by
  induction choice generalizing done values with
  | nil => rfl
  | cons r choice ih =>
    cases r with
    | none =>
      simp only [absentPlaces, splice, List.length_append, Nat.not_lt.2 (Nat.le_add_right ..),
        if_false, List.take_left, List.drop_left]
      have := ih h (done ++ [.nothing])
      simpa [fill] using this
    | some s =>
      cases values with
      | nil => simp at h
      | cons value values =>
        have := ih (show values.length = (presentSymbols choice).length by simpa using h)
          (done ++ [value])
        simpa [fill, absentPlaces] using this

/-- Splicing puts nothing in the places of absent bits. -/
theorem splice_absentPlaces (name : String) {choice : List (Option Symbol)} {values : List Node}
    (h : values.length = (presentSymbols choice).length) :
    splice name values (absentPlaces 0 choice) = .ok (fill choice values) :=
  splice_append name h []

/-- The builder has what it takes to reduce by a production: single values stand for
    themselves, and other values are spliced into a node of a kind. -/
def Reduces (b : TreeBuilder) (p : Nat) (production : Production) : Prop :=
  ∃ d choice, b.derivations[p]? = some d ∧ d.omitted = absentPlaces 0 choice ∧
    (presentSymbols choice).length = production.rhs.length ∧
    (choice.length = 1 ∧ production.rhs.length = 1 ∨ ∃ kind, b.kinds[p]? = some (some kind))

theorem Reduces.exists_value {b : TreeBuilder} {p : Nat} {production : Production}
    (h : b.Reduces p production) (store : Store) {values : List Node}
    (hlen : values.length = production.rhs.length) : ∃ r, b.reduce store p values = .ok r := by
  obtain ⟨d, choice, hd, homitted, hpresent, hkind⟩ := h
  have hsplice := splice_absentPlaces d.name (hlen.trans hpresent.symm)
  rw [← homitted] at hsplice
  rcases hkind with ⟨hchoice, hone⟩ | ⟨kind, hkind⟩
  · -- one value for a choice of one bit leaves no place absent
    obtain ⟨value, rfl⟩ := List.length_eq_one_iff.1 (hlen.trans hone)
    obtain ⟨r, rfl⟩ := List.length_eq_one_iff.1 hchoice
    cases r with
    | none => simp [hone] at hpresent
    | some s => exact ⟨(value, store), by simp [reduce, hd, homitted, absentPlaces]; rfl⟩
  · simp only [reduce, hd]
    split
    · exact ⟨_, rfl⟩
    · rw [hsplice]
      simp only [hkind, bind, Except.bind]
      split <;> exact ⟨_, rfl⟩

/-- The builder has a kind for each terminal but `$end`, and can reduce by each
    production but the first. -/
structure Ready (b : TreeBuilder) (g : Lowered) : Prop where
  leaf : ∀ {x : Nat}, g.isTerminal x = true → x ≠ endSymbol →
    ∃ kind, b.terminals[x]? = some (some kind)
  reduce : ∀ {p : Nat} {production : Production}, p ≠ 0 →
    g.productions[p]? = some production → b.Reduces p production

end TreeBuilder

/-- A table shifts no `$end` and reduces by no first production. -/
theorem Machine.serves_of_ready {g : Lowered} {t : Table} {b : TreeBuilder} (hg : g.WellFormed)
    (ht : (Table.build g).result = .ok t) (hb : b.Ready g) : Machine.Serves ⟨g, t, b⟩ := by
  constructor
  · intro n next x store text haction
    obtain ⟨hx, htarget⟩ := (Table.action_shift_iff hg ht).1 haction
    obtain ⟨kind, hkind⟩ := hb.leaf hx (Collection.ne_of_target? hg htarget)
    exact ⟨store.leaf kind text, by simp [TreeBuilder.leaf, hkind]⟩
  · intro n p x production store values haction hp hlen
    exact (hb.reduce ((Table.action_reduce_iff hg ht).1 haction).1 hp).exists_value store hlen

/-! ## Lowered grammars of grammars -/

namespace Grammar

variable {g : Grammar} {symbols : SymbolMap} {l : Lowered}

/-- The value of a choice is that of its only bit, or a node of a rule with nodes. -/
theorem Stands.single_or_concrete {id built : RuleId} {choice : List (Option Symbol)}
    (h : g.Stands symbols id built choice) :
    choice.length = 1 ∧ (presentSymbols choice).length = 1 ∨
      ∃ rule, g.rule? built = some rule ∧ rule.shape.isConcrete = true := by
  have hconcrete : ∀ {id : RuleId} {shape : Shape}, g.shape? id = some shape →
      shape.isConcrete = true → ∃ rule, g.rule? id = some rule ∧ rule.shape.isConcrete = true := by
    intro id shape hshape hc
    obtain ⟨rule, hrule, rfl⟩ := Option.map_eq_some_iff.1 hshape
    exact ⟨rule, hrule, hc⟩
  cases h with
  | sequence hshape _ _ => exact .inr (hconcrete hshape rfl)
  | line _ _ hinner _ _ => exact .inr (hconcrete hinner rfl)
  | branch _ _ _ => exact .inl ⟨rfl, rfl⟩
  | element hshape _ => exact .inr (hconcrete hshape rfl)
  | longer hshape _ _ => exact .inr (hconcrete hshape rfl)

/-- The builder of a checked grammar is ready for its lowered grammar. -/
theorem LowersTo.ready (h : g.LowersTo symbols l) (hg : g.Sound) (hc : g.check = .ok ()) :
    (TreeBuilder.ofLowered l (.ofGrammar g)).Ready l := by
  constructor
  · intro x hx hne
    obtain ⟨id, hs⟩ := h.numbers.exists_term hx hne
    have hlt : x < l.numTerminals := of_decide_eq_true hx
    obtain ⟨rule, hrule, hname, ⟨hterm, -⟩ | ⟨-, hgt, -⟩⟩ := h.numbers.of_lookup hs
    · have hconcrete : rule.shape.isConcrete = true := by
        cases hshape : rule.shape <;> simp_all [Shape.isTerm, Shape.isConcrete]
      obtain ⟨kind, hkind⟩ := Schema.exists_kind?_of_concrete hrule hconcrete
      rw [Lowered.names_getElem?_terminal hlt] at hname
      refine ⟨kind, ?_⟩
      simp [TreeBuilder.ofLowered, hname, ← hkind, nameOf, hrule]
    · exact absurd (Nat.lt_trans hgt hlt) (Nat.lt_irrefl _)
  · intro p production hp hproduction
    obtain ⟨id, built, choice, -, hrhs, hd, hstands⟩ := h.exists_stands hg hc hp hproduction
    refine ⟨_, choice, hd, rfl, by rw [hrhs], ?_⟩
    rcases hstands.single_or_concrete with ⟨hchoice, hone⟩ | ⟨rule, hrule, hconcrete⟩
    · exact .inl ⟨hchoice, hrhs ▸ hone⟩
    · obtain ⟨kind, hkind⟩ := Schema.exists_kind?_of_concrete hrule hconcrete
      exact .inr ⟨kind, by simp [TreeBuilder.ofLowered, hd, derivationOf, hkind]⟩

end Grammar

/-! ## Lowered grammars by their parts -/

namespace Lowered

variable {l : Lowered}

theorem addTerminals_spec {names : List String} {l l' : Lowered}
    (h : names.foldlM addTerminal l = .ok l') :
    l' = { l with terminals := l.terminals ++ names.toArray } := by
  induction names generalizing l with
  | nil => cases h; simp
  | cons n names ih =>
    rw [List.foldlM_cons] at h
    obtain ⟨l₁, h₁, h⟩ := bind_eq_ok_iff.1 h
    obtain ⟨-, rfl⟩ := addTerminal_eq_ok_iff.1 h₁
    rw [ih h]
    simp

theorem addNonterminalNames_spec {names : List String} {l l' : Lowered}
    (h : names.foldlM addNonterminal l = .ok l') :
    l' = { l with nonterminals := l.nonterminals ++ names.toArray } := by
  induction names generalizing l with
  | nil => cases h; simp
  | cons n names ih =>
    rw [List.foldlM_cons] at h
    obtain ⟨l₁, h₁, h⟩ := bind_eq_ok_iff.1 h
    obtain ⟨-, rfl⟩ := addNonterminal_eq_ok_iff.1 h₁
    rw [ih h]
    simp

theorem addProductions_spec {all : List (Production × Derivation)} {l l' : Lowered}
    (h : l.addProductions all = .ok l') :
    (∀ e ∈ all, l.isTerminal e.1.lhs = false) ∧
      l' = { l with productions := l.productions ++ (all.map Prod.fst).toArray
                    derivations := l.derivations ++ (all.map Prod.snd).toArray } := by
  induction all generalizing l with
  | nil => cases h; simp
  | cons e all ih =>
    obtain ⟨p, d⟩ := e
    simp only [addProductions] at h
    split_ifs at h with hterm
    obtain ⟨hall, rfl⟩ := ih h
    refine ⟨?_, by simp [addProduction]⟩
    intro e he
    rcases List.mem_cons.1 he with rfl | he
    · simpa using hterm
    · exact hall e he

theorem findSymbol_eq_ok_iff {name : String} {s : Symbol} :
    l.findSymbol name = .ok s ↔ l.symbol? name = some s := by
  unfold findSymbol
  split <;> simp_all

theorem checkStart_spec (h : l.checkStart = .ok ()) :
    ∃ s rest, l.productions.toList = ⟨l.accept, [s, endSymbol]⟩ :: rest ∧
      ∀ p ∈ rest, p.lhs ≠ l.accept ∧ endSymbol ∉ p.rhs ∧ l.accept ∉ p.rhs := by
  unfold checkStart at h
  split at h
  · cases h
  · rename_i start rest hproductions
    split_ifs at h with hstart
    · obtain ⟨_, h, -⟩ := bind_eq_ok_iff.1 h
      obtain ⟨hlhs, hlen, hend⟩ := hstart
      obtain ⟨s, e, hrhs⟩ := List.length_eq_two.1 hlen
      obtain rfl : e = endSymbol := by simpa [hrhs] using hend
      refine ⟨s, rest, ?_, forall_of_forIn ?_ h⟩
      · rw [hproductions, ← hlhs, ← hrhs]
      · intro p step hstep
        by_cases haccept : p.lhs = l.accept
        · rw [if_pos haccept] at hstep
          cases hstep
        · rw [if_neg haccept] at hstep
          by_cases hmisplaced : endSymbol ∈ p.rhs ∨ l.accept ∈ p.rhs
          · rw [if_pos hmisplaced] at hstep
            cases hstep
          · rw [if_neg hmisplaced] at hstep
            cases hstep
            exact ⟨rfl, haccept, not_or.1 hmisplaced⟩
    · cases h

/-- The derivations of productions, given or named after the left sides. -/
def derivationsFor (l : Lowered) (derivations : Option (List Derivation))
    (productions : List Production) : List Derivation :=
  derivations.getD (productions.map fun p => .plain (l.nameOf p.lhs))

/-- The steps by which a lowered grammar is made of its parts. -/
theorem ofParts_cases {terminals nonterminals : List String}
    {productions : List (String × List String)} {derivations : Option (List Derivation)}
    (h : ofParts terminals nonterminals productions derivations = .ok l) :
    terminals ≠ [] ∧ l.checkStart = .ok () ∧ ∃ l₁ l₂ found,
      terminals.foldlM addTerminal empty = .ok l₁ ∧
      nonterminals.foldlM addNonterminal l₁ = .ok l₂ ∧
      productions.mapM (fun p => do
        return Production.mk (← l₂.findSymbol p.1) (← p.2.mapM l₂.findSymbol)) = .ok found ∧
      (l₂.derivationsFor derivations found).length = found.length ∧
      l₂.addProductions (found.zip (l₂.derivationsFor derivations found)) = .ok l := by
  unfold ofParts at h
  by_cases hend : terminals.head? ≠ some "$end"
  · rw [if_pos hend] at h
    cases h
  rw [if_neg hend] at h
  by_cases haccept : nonterminals.head? ≠ some "$accept"
  · simp only [if_pos haccept] at h
    cases h
  simp only [if_neg haccept] at h
  obtain ⟨l₁, h₁, h⟩ := bind_eq_ok_iff.1 h
  obtain ⟨l₂, h₂, h⟩ := bind_eq_ok_iff.1 h
  obtain ⟨found, hfound, h⟩ := bind_eq_ok_iff.1 h
  by_cases hcount : (l₂.derivationsFor derivations found).length ≠ found.length
  · unfold derivationsFor at hcount
    simp only [if_pos hcount] at h
    cases h
  have hlen := Decidable.not_not.1 hcount
  unfold derivationsFor at hcount
  simp only [if_neg hcount] at h
  obtain ⟨l₃, h₃, h⟩ := bind_eq_ok_iff.1 h
  obtain ⟨_, hstart, h⟩ := bind_eq_ok_iff.1 h
  cases h
  refine ⟨?_, hstart, l₁, l₂, found, h₁, h₂, hfound, hlen, h₃⟩
  rintro rfl
  simp at hend

/-- The symbols of a production that is found by its names are in range. -/
theorem lt_of_findSymbols {name : String} {names : List String} {p : Production}
    (h : (do return Production.mk (← l.findSymbol name) (← names.mapM l.findSymbol)) = .ok p) :
    p.lhs < l.numSymbols ∧ ∀ s ∈ p.rhs, s < l.numSymbols := by
  obtain ⟨lhs, hlhs, h⟩ := bind_eq_ok_iff.1 h
  obtain ⟨rhs, hrhs, h⟩ := bind_eq_ok_iff.1 h
  cases h
  refine ⟨lt_of_symbol? (findSymbol_eq_ok_iff.1 hlhs), fun s hs => ?_⟩
  obtain ⟨name, -, hname⟩ := exists_of_forall₂ (mapM_eq_ok_iff.1 hrhs).flip hs
  exact lt_of_symbol? (findSymbol_eq_ok_iff.1 hname)

/-- What a lowered grammar by its parts is made of: all its symbols are in range, and
    every production has its derivation. -/
theorem ofParts_spec {terminals nonterminals : List String}
    {productions : List (String × List String)} {derivations : Option (List Derivation)}
    (h : ofParts terminals nonterminals productions derivations = .ok l) :
    0 < l.numTerminals ∧ l.checkStart = .ok () ∧
      l.derivations.toList = l.derivationsFor derivations l.productions.toList ∧
      ∀ p ∈ l.productions.toList, l.isTerminal p.lhs = false ∧ p.lhs < l.numSymbols ∧
        ∀ s ∈ p.rhs, s < l.numSymbols := by
  obtain ⟨hne, hstart, l₁, l₂, found, h₁, h₂, hfound, hcount, h₃⟩ := ofParts_cases h
  have hl₁ := addTerminals_spec h₁
  have hl₂ := addNonterminalNames_spec h₂
  obtain ⟨hterm, hl⟩ := addProductions_spec h₃
  have hnone : l₂.productions = #[] ∧ l₂.derivations = #[] := by simp [hl₂, hl₁, empty]
  have hproductions : l.productions.toList = found := by
    rw [hl]
    simp [hnone.1, List.map_fst_zip (Nat.le_of_eq hcount.symm)]
  have hderivations : l.derivations.toList = l₂.derivationsFor derivations found := by
    rw [hl]
    simp [hnone.2, List.map_snd_zip (Nat.le_of_eq hcount)]
  have hsame : ∀ s, l.nameOf s = l₂.nameOf s := fun s => by rw [hl]; rfl
  have hsize : l.numSymbols = l₂.numSymbols := by rw [hl]; rfl
  have hlen : l.numTerminals = terminals.length := by
    simp [hl, hl₂, hl₁, numTerminals, empty]
  refine ⟨?_, hstart, ?_, ?_⟩
  · rw [hlen]
    exact List.length_pos_iff.2 hne
  · simp [hproductions, hderivations, derivationsFor, hsame]
  · intro p hp
    rw [hproductions] at hp
    obtain ⟨k, hlt, hk⟩ := List.getElem_of_mem hp
    have hmem : (p, (l₂.derivationsFor derivations found)[k]) ∈
        found.zip (l₂.derivationsFor derivations found) := by
      rw [List.mem_iff_getElem?]
      refine ⟨k, List.getElem?_zip_eq_some.2 ⟨?_, List.getElem?_eq_getElem _⟩⟩
      rw [List.getElem?_eq_getElem hlt, hk]
    obtain ⟨named, -, hnamed⟩ := exists_of_forall₂ (mapM_eq_ok_iff.1 hfound).flip hp
    rw [hsize]
    exact ⟨by rw [hl]; exact hterm _ hmem, lt_of_findSymbols hnamed⟩

theorem wellFormed_of_ofParts {terminals nonterminals : List String}
    {productions : List (String × List String)} {derivations : Option (List Derivation)}
    (h : ofParts terminals nonterminals productions derivations = .ok l) : l.WellFormed := by
  obtain ⟨hpos, hcheck, -, hall⟩ := ofParts_spec h
  obtain ⟨s, rest, hproductions, hrest⟩ := checkStart_spec hcheck
  have hmem : ∀ {n : Nat} {p : Production}, l.productions[n]? = some p →
      p ∈ l.productions.toList := fun hp => Array.mem_toList_iff.2 (Array.mem_of_getElem? hp)
  have htail : ∀ {n : Nat} {p : Production}, l.productions[n]? = some p → n ≠ 0 → p ∈ rest := by
    intro n p hp hn
    obtain ⟨n, rfl⟩ := Nat.exists_eq_succ_of_ne_zero hn
    rw [← Array.getElem?_toList, hproductions, List.getElem?_cons_succ] at hp
    exact List.mem_of_getElem? hp
  refine ⟨⟨s, ?_⟩, hpos, ?_, ?_, ?_, ?_⟩
  · rw [← Array.getElem?_toList, hproductions]
    rfl
  · intro n p hp
    obtain ⟨hterm, hlt, -⟩ := hall p (hmem hp)
    exact ⟨Nat.le_of_not_lt (of_decide_eq_false hterm), hlt⟩
  · intro n p hp
    exact (hall p (hmem hp)).2.2
  · intro n p hp hn
    exact (hrest p (htail hp hn)).1
  · intro n p hp hn s hs
    obtain ⟨-, hend, haccept⟩ := hrest p (htail hp hn)
    exact ⟨fun he => hend (he ▸ hs), fun he => haccept (he ▸ hs)⟩

/-- A lowered grammar that was lowered from rules or given by its parts. -/
def Made (l : Lowered) : Prop :=
  (∃ grammar, (Lowered.ofGrammar grammar).result = .ok l) ∨
    ∃ terminals nonterminals productions derivations,
      ofParts terminals nonterminals productions derivations = .ok l

theorem Made.wellFormed (h : l.Made) : l.WellFormed := by
  rcases h with ⟨grammar, h⟩ | ⟨terminals, nonterminals, productions, derivations, h⟩
  · obtain ⟨symbols, hlowers⟩ := Grammar.lowersTo_of_ofGrammar h
    exact hlowers.wellFormed
  · exact wellFormed_of_ofParts h

/-- What does not come first is among the rest. -/
theorem mem_drop_one {α : Type} {xs : List α} {n : Nat} {x : α} (hn : n ≠ 0)
    (h : xs[n]? = some x) : x ∈ xs.drop 1 := by
  obtain ⟨k, rfl⟩ := Nat.exists_eq_succ_of_ne_zero hn
  refine List.mem_of_getElem? (i := k) ?_
  rw [List.getElem?_drop, Nat.add_comm]
  exact h

/-- The builder that knows only names is ready for its grammar. -/
theorem ready_of_ofParts {terminals nonterminals : List String}
    {productions : List (String × List String)}
    (h : ofParts terminals nonterminals productions none = .ok l) :
    (TreeBuilder.ofLowered l (.ofLowered l)).Ready l := by
  obtain ⟨-, -, hderivations, -⟩ := ofParts_spec h
  constructor
  · intro x hx hne
    have hlt : x < l.terminals.size := of_decide_eq_true hx
    have hget : l.terminals[x]? = some l.terminals[x] := Array.getElem?_eq_getElem hlt
    have hmem : ⟨l.terminals[x], l.terminals[x], none, true⟩ ∈ (Schema.ofLowered l).kinds := by
      refine Schema.mem_addNames.1 _ (List.mem_toArray.2 (List.mem_append_left _ ?_))
      refine List.mem_map.2 ⟨l.terminals[x], ?_, rfl⟩
      exact mem_drop_one hne (Array.getElem?_toList.trans hget)
    obtain ⟨kind, hkind⟩ := Schema.exists_kind? hmem
    exact ⟨kind, by simp [TreeBuilder.ofLowered, hget, ← hkind]⟩
  · intro p production hp hproduction
    have hd : l.derivations[p]? = some (.plain (l.nameOf production.lhs)) := by
      rw [← Array.getElem?_toList, hderivations, derivationsFor, Option.getD_none,
        List.getElem?_map, Array.getElem?_toList, hproduction]
      rfl
    have hname : l.nameOf production.lhs ∈ (l.derivations.toList.drop 1).map (·.name) := by
      refine List.mem_map.2 ⟨.plain (l.nameOf production.lhs), ?_, rfl⟩
      exact mem_drop_one hp (Array.getElem?_toList.trans hd)
    obtain ⟨info, hinfo, hsame⟩ := Schema.mem_addNames.2 _ hname
    obtain ⟨kind, hkind⟩ := Schema.exists_kind? (s := Schema.ofLowered l) hinfo
    refine ⟨_, production.rhs.map some, hd, ?_, ?_, .inr ⟨kind, ?_⟩⟩
    · generalize 0 = place
      induction production.rhs generalizing place with
      | nil => rfl
      | cons s ss ih => exact ih _
    · simp [Grammar.presentSymbols]
    · rw [hsame] at hkind
      simp [TreeBuilder.ofLowered, hd, ← hkind, Derivation.plain]

end Lowered

end LanguageWorkbench
