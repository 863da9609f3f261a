import LanguageWorkbench.Proofs.Dependents
import LanguageWorkbench.Proofs.Flawless
import LanguageWorkbench.Proofs.Lowering

/-!
# Lowering without faults

Lowering follows aliases, options and dependents. Where no rule reaches itself through
aliases and options these links end, for nothing but a sequence leads to a dependent. Behind
them stand rules with symbols, for lines are opened where alternatives lead to them, and the
symbols have names of their own. So a loaded grammar is lowered, or it is refused with an
error.

Results:
* `Grammar.Loopless`: no rule reaches itself through aliases and options.
* `Grammar.link_induction`: more links than there are rules never follow each other.
* `Grammar.flawless_choices`: the choices of bits that are no lines.
* `Grammar.exists_symbols`: the symbols of a grammar that was read.
* `Grammar.flawless_ofGrammar`: lowering a grammar.
-/

namespace LanguageWorkbench

theorem forIn_eq_ok {ε α : Type} {f : α → Unit → Except ε (ForInStep Unit)} {l : List α}
    (h : ∀ a ∈ l, f a () = .ok (.yield ())) : forIn l () f = .ok () := by
  induction l with
  | nil => rfl
  | cons a l ih =>
    obtain ⟨ha, hl⟩ := List.forall_mem_cons.1 h
    rw [List.forIn_cons, ha]
    exact ih hl

/-- A well-formed grammar passes the check of its first production. -/
theorem Lowered.WellFormed.checkStart_eq {l : Lowered} (h : l.WellFormed) :
    l.checkStart = .ok () := by
  obtain ⟨s, hs⟩ := h.start
  rw [← Array.getElem?_toList] at hs
  unfold checkStart
  cases hlist : l.productions.toList with
  | nil =>
    rw [hlist] at hs
    cases hs
  | cons start rest =>
    rw [hlist] at hs
    cases hs
    have hrest : ∀ p ∈ rest, p.lhs ≠ l.accept ∧ endSymbol ∉ p.rhs ∧ l.accept ∉ p.rhs := by
      intro p hp
      obtain ⟨k, hk⟩ := List.mem_iff_getElem?.1 hp
      have hget : l.productions[k + 1]? = some p := by
        rw [← Array.getElem?_toList, hlist]
        exact hk
      have hne := h.rhs_ne hget (Nat.succ_ne_zero k)
      exact ⟨h.lhs_ne_accept hget (Nat.succ_ne_zero k), fun hmem => (hne _ hmem).1 rfl,
        fun hmem => (hne _ hmem).2 rfl⟩
    dsimp only
    rw [if_pos ⟨rfl, rfl, rfl⟩]
    refine bind_eq_ok_iff.2 ⟨(), forIn_eq_ok fun p hp => ?_, rfl⟩
    obtain ⟨hlhs, hend, haccept⟩ := hrest p hp
    rw [if_neg hlhs, if_neg (not_or.2 ⟨hend, haccept⟩)]
    rfl

namespace Grammar

open Shape (Plain)

/-! ## Links -/

/-- The rule is an alias or an option, and this is its child. -/
def Links (g : Grammar) (id child : RuleId) : Prop :=
  g.shape? id = some (.aliasOf child) ∨ g.shape? id = some (.option child)

/-- No rule reaches itself through aliases and options. -/
def Loopless (g : Grammar) : Prop := ∀ id, ¬ Relation.TransGen g.Links id id

/-- The rule is an alias, an option or a dependent, and this is its child. -/
def Follows (g : Grammar) (id child : RuleId) : Prop :=
  g.Links id child ∨ g.shape? id = some (.dependent child)

variable {text : String} {g : Grammar} {id child : RuleId} {symbols : SymbolMap} {l : Lowered}

/-- Links that go down in some measure come to no rule again. -/
theorem loopless_of_rank (rank : RuleId → Nat)
    (h : ∀ id child, g.Links id child → rank child < rank id) : g.Loopless := by
  have hlt : ∀ {i j : RuleId}, Relation.TransGen g.Links i j → rank j < rank i := by
    intro i j hij
    induction hij with
    | single hlink => exact h _ _ hlink
    | tail _ hlink ih => exact Nat.lt_trans (h _ _ hlink) ih
  exact fun id hid => Nat.lt_irrefl _ (hlt hid)

theorem Follows.lt (h : g.Follows id child) : id < g.size := by
  have hshape : ∃ shape, g.shape? id = some shape := by
    rcases h with (h | h) | h <;> exact ⟨_, h⟩
  obtain ⟨shape, hshape⟩ := hshape
  obtain ⟨r, hr, -⟩ := Option.map_eq_some_iff.1 hshape
  exact (Array.getElem?_eq_some_iff.1 hr).1

theorem Follows.plain (h : g.Follows id child) (hload : load text = .ok g) :
    Plain g.shape? child := by
  rcases h with (h | h) | h <;>
    exact plain_of_load hload h (fun _ _ => Shape.noConfusion) (List.mem_singleton_self _)

/-- A chain that does not begin with a dependent has none. -/
theorem links_of_follows (hload : load text = .ok g) {i j : RuleId}
    (h : Relation.TransGen g.Follows i j) (hi : ∀ child, g.shape? i ≠ some (.dependent child)) :
    Relation.TransGen g.Links i j := by
  induction h using Relation.TransGen.head_induction_on with
  | single hij => exact .single (hij.resolve_right (hi _))
  | head hik _ ih =>
    obtain ⟨shape, hshape, hplain⟩ := hik.plain hload
    refine .head (hik.resolve_right (hi _)) (ih fun child hchild => ?_)
    exact hplain child (Option.some.inj (hshape.symm.trans hchild))

theorem not_follows_self (hload : load text = .ok g) (hloop : g.Loopless) (id : RuleId) :
    ¬ Relation.TransGen g.Follows id id := by
  intro h
  obtain ⟨c, hc⟩ : ∃ c, g.Follows c id := by
    cases h with
    | single h => exact ⟨_, h⟩
    | tail _ h => exact ⟨_, h⟩
  obtain ⟨shape, hshape, hplain⟩ := hc.plain hload
  refine hloop id (links_of_follows hload h fun child hchild => ?_)
  exact hplain child (Option.some.inj (hshape.symm.trans hchild))

/-- What holds of a rule with fuel left if it holds of its child with less holds of every
    rule with more fuel than there are rules. -/
theorem link_induction (hload : load text = .ok g) (hloop : g.Loopless)
    {P : Nat → RuleId → Prop}
    (step : ∀ fuel id, (∀ child, g.Follows id child → P fuel child) → P (fuel + 1) id)
    (id : RuleId) : P (g.size + 1) id := by
  -- the rules met before are different from each other, and all lead to this one
  have hall : ∀ (fuel : Nat) (seen : List RuleId) (id : RuleId), seen.Nodup →
      (∀ x ∈ seen, Relation.TransGen g.Follows x id) → g.size < fuel + seen.length → P fuel id := by
    intro fuel
    induction fuel with
    | zero =>
      intro seen id hnodup hseen hlength
      have hsub : seen ⊆ List.range g.size := by
        intro x hx
        obtain ⟨c, hc, -⟩ := Relation.TransGen.head'_iff.1 (hseen x hx)
        exact List.mem_range.2 hc.lt
      have hle := (hnodup.subperm hsub).length_le
      rw [List.length_range] at hle
      omega
    | succ fuel ih =>
      intro seen id hnodup hseen hlength
      refine step fuel id fun child hchild => ih (id :: seen) child ?_ ?_ ?_
      · exact List.nodup_cons.2 ⟨fun hid => not_follows_self hload hloop id (hseen id hid), hnodup⟩
      · refine List.forall_mem_cons.2 ⟨.single hchild, fun x hx => (hseen x hx).tail hchild⟩
      · rw [List.length_cons]
        omega
  exact hall _ [] id List.nodup_nil (fun _ hx => nomatch hx) (by simp)

/-! ## Choices -/

theorem Follows.whole (h : g.Follows id child) (hread : read text = .ok g) : g.Whole child := by
  have hshape : ∃ r, g.rule? id = some r ∧ child ∈ r.shape.children ∧
      ∀ bits, r.shape ≠ .alternative bits := by
    rcases h with (h | h) | h <;>
    · obtain ⟨r, hr, hshape⟩ := Option.map_eq_some_iff.1 h
      exact ⟨r, hr, by rw [hshape]; exact List.mem_singleton_self _,
        fun bits hbits => Shape.noConfusion (hshape.symm.trans hbits)⟩
  obtain ⟨r, hr, hchild, hno⟩ := hshape
  exact (whole_or_alternative_of_read hread hr hchild).resolve_right fun ⟨bits, hbits⟩ =>
    hno bits hbits

/-- The readings of a rule that is no line are refused with errors only. -/
theorem not_mem_readings (hload : load text = .ok g) (hloop : g.Loopless)
    (hnum : g.Numbers l symbols) (hid : g.Whole id) (afterAbsent : Bool) (f : Fault) :
    .refused (.fault f) ∉ g.readings symbols afterAbsent (g.size + 1) id := by
  have hread := read_of_load hload
  refine link_induction hload hloop (P := fun fuel id => g.Whole id →
    .refused (.fault f) ∉ g.readings symbols afterAbsent fuel id) (fun fuel id ih hid hf => ?_)
      id hid
  have hchild : ∀ child, g.Follows id child →
      .refused (.fault f) ∉ g.readings symbols afterAbsent fuel child :=
    fun child hfollows => ih child hfollows (hfollows.whole hread)
  obtain ⟨r, hr, hline⟩ := hid
  have hshape : g.shape? id = some r.shape := by rw [shape?, hr]; rfl
  -- a rule with a symbol is read as that
  have hsymbol : r.shape.isTerm = true ∨ hasNonterminal r.shape = true →
      ∃ s, symbols.lookup id = some s := hnum.exists_lookup hr
  simp only [readings, hshape] at hf
  cases hcase : r.shape with
  | term kind pattern =>
    rw [hcase] at hf
    obtain ⟨s, hs⟩ := hsymbol (by rw [hcase]; exact .inl rfl)
    simp [hs] at hf
  | sequence bits anonymous =>
    rw [hcase] at hf
    cases anonymous with
    | true => exact hline ⟨bits, hcase⟩
    | false =>
      obtain ⟨s, hs⟩ := hsymbol (by rw [hcase]; exact .inr rfl)
      simp [hs] at hf
  | alternative bits =>
    rw [hcase] at hf
    obtain ⟨s, hs⟩ := hsymbol (by rw [hcase]; exact .inr rfl)
    simp [hs] at hf
  | plus child =>
    rw [hcase] at hf
    obtain ⟨s, hs⟩ := hsymbol (by rw [hcase]; exact .inr rfl)
    simp [hs] at hf
  | option child =>
    rw [hcase] at hf hshape
    rcases List.mem_cons.1 hf with hf | hf
    · cases hf
    · exact hchild child (.inl (.inr hshape)) hf
  | aliasOf child =>
    rw [hcase] at hf hshape
    exact hchild child (.inl (.inl hshape)) hf
  | dependent child =>
    rw [hcase] at hf hshape
    dsimp only at hf
    split at hf
    · simp at hf
    · exact hchild child (.inr hshape) hf
  | separator child =>
    rw [hcase] at hf
    simp [Failure.grammar] at hf
  | delimiter child =>
    rw [hcase] at hf
    simp [Failure.grammar] at hf

/-- Bits that are no lines have choices, or they are refused with an error. -/
theorem flawless_choices (hload : load text = .ok g) (hloop : g.Loopless)
    (hnum : g.Numbers l symbols) {bits : List RuleId} (hbits : ∀ bit ∈ bits, g.Whole bit)
    (afterAbsent : Bool) : Flawless (g.choices symbols afterAbsent bits) := by
  induction bits generalizing afterAbsent with
  | nil => exact Flawless.ok _
  | cons bit bits ih =>
    obtain ⟨hbit, hbits⟩ := List.forall_mem_cons.1 hbits
    refine Flawless.bind (Flawless.mapM fun reading hreading => ?_) fun _ _ => Flawless.ok _
    cases reading with
    | absent => exact (ih hbits true).bind fun _ _ => Flawless.ok _
    | present s => exact (ih hbits false).bind fun _ _ => Flawless.ok _
    | refused f =>
      cases f with
      | error e => exact Flawless.error e
      | fault f => exact absurd hreading (not_mem_readings hload hloop hnum hbit afterAbsent f)

/-- The bits of a contribution are no lines, or there is only one. -/
theorem whole_or_singleton_of_mem_contributions (hread : read text = .ok g) {r : Rule}
    (hr : g.rule? id = some r) {c : RuleId × List RuleId × RuleId} (hc : c ∈ contributions r id) :
    (∀ bit ∈ c.2.1, g.Whole bit) ∨ ∃ bit ∈ r.shape.children, c.2.1 = [bit] := by
  have hchild : ∀ child ∈ r.shape.children, (∀ bits, r.shape ≠ .alternative bits) →
      g.Whole child := fun child hchild hno =>
    (whole_or_alternative_of_read hread hr hchild).resolve_right fun ⟨bits, hbits⟩ => hno bits hbits
  unfold contributions at hc
  split at hc
  · rename_i bits hshape
    obtain rfl := List.mem_singleton.1 hc
    rw [hshape] at hchild
    exact .inl fun bit hbit => hchild bit hbit fun _ => Shape.noConfusion
  · rename_i bits hshape
    obtain ⟨bit, hbit, rfl⟩ := List.mem_map.1 hc
    rw [hshape]
    exact .inr ⟨bit, hbit, rfl⟩
  · rename_i child hshape
    have hwhole : g.Whole child := by
      rw [hshape] at hchild
      exact hchild child (List.mem_singleton_self _) fun _ => Shape.noConfusion
    have hself : g.Whole id :=
      ⟨r, hr, fun ⟨bits, hbits⟩ => Shape.noConfusion (hshape.symm.trans hbits)⟩
    simp only [List.mem_cons, List.not_mem_nil, or_false] at hc
    rcases hc with rfl | rfl
    · exact .inl fun bit hbit => List.mem_singleton.1 hbit ▸ hwhole
    · exact .inl (List.forall_mem_cons.2 ⟨hself, fun bit hbit => List.mem_singleton.1 hbit ▸ hwhole⟩)
  · cases hc

/-- The bits of contributions are no lines once lines are opened. -/
theorem whole_of_mem_inlineBits (hread : read text = .ok g) {r : Rule}
    (hr : g.rule? id = some r) {c : RuleId × List RuleId × RuleId} (hc : c ∈ contributions r id) :
    ∀ bit ∈ g.inlineBits c.2.1, g.Whole bit := by
  have hbits := whole_or_singleton_of_mem_contributions hread hr hc
  unfold inlineBits
  split
  · rename_i only hone
    split
    · -- an opened line has no lines in it
      rename_i inner hinner
      obtain ⟨line, hline, hshape⟩ := Option.map_eq_some_iff.1 hinner
      intro bit hbit
      refine (whole_or_alternative_of_read hread hline (by rw [hshape]; exact hbit)).resolve_right ?_
      exact fun ⟨bits, hbits⟩ => Shape.noConfusion (hshape.symm.trans hbits)
    · rename_i hno
      rcases hbits with hbits | ⟨bit, hbit, hsame⟩
      · exact hbits
      · rw [hone] at hsame ⊢
        obtain rfl := List.singleton_inj.1 hsame
        have hlt := (closed_of_read hread).children hr hbit
        refine fun i hi => List.mem_singleton.1 hi ▸ ⟨g.rules[only], Array.getElem?_eq_getElem hlt, ?_⟩
        rintro ⟨inner, hinner⟩
        refine hno inner ?_
        rw [shape?, rule?, Array.getElem?_eq_getElem hlt, Option.map_some, hinner]
  · rename_i hmany
    rcases hbits with hbits | ⟨bit, -, hsame⟩
    · exact hbits
    · exact absurd hsame (hmany bit)

/-! ## Productions -/

theorem exists_addUnlessKnown (l : Lowered) (p : Production) (d : Derivation) :
    ∃ l', (g.addUnlessKnown l p d).result = .ok l' := by
  unfold addUnlessKnown
  split <;> exact ⟨_, rfl⟩

theorem flawless_addChoices (lhs : Symbol) (built : RuleId) (found : List (List (Option Symbol)))
    (l : Lowered) : Flawless (g.addChoices lhs built l found).result := by
  induction found generalizing l with
  | nil => exact Flawless.ok l
  | cons choice rest ih =>
    obtain ⟨l', hl'⟩ := exists_addUnlessKnown (g := g) l ⟨lhs, presentSymbols choice⟩
      (g.derivationOf built choice)
    exact Flawless.noted_bind (Flawless.of_ok hl') fun l' _ => ih l'

theorem flawless_addContributions (hload : load text = .ok g) (hloop : g.Loopless)
    (hnum : g.Numbers l symbols) {cs : List (RuleId × List RuleId × RuleId)}
    (hcs : ∀ c ∈ cs, (∃ s, symbols.lookup c.1 = some s) ∧ ∀ bit ∈ g.inlineBits c.2.1, g.Whole bit)
    (l' : Lowered) : Flawless (g.addContributions symbols l' cs).result := by
  induction cs generalizing l' with
  | nil => exact Flawless.ok l'
  | cons c cs ih =>
    obtain ⟨id, bits, built⟩ := c
    obtain ⟨⟨⟨s, hs⟩, hbits⟩, hcs⟩ := List.forall_mem_cons.1 hcs
    refine Flawless.noted_bind (flawless_choices hload hloop hnum hbits false) fun found _ => ?_
    simp only [hs]
    exact Flawless.noted_bind (flawless_addChoices s built found l') fun l'' _ => ih hcs l''

theorem flawless_addRules (hload : load text = .ok g) (hloop : g.Loopless)
    (hnum : g.Numbers l symbols) {rules : List (Rule × RuleId)} (hrules : ∀ r ∈ rules, r ∈ g.numbered)
    (l' : Lowered) : Flawless (g.addRules symbols l' rules).result := by
  induction rules generalizing l' with
  | nil => exact Flawless.ok l'
  | cons r rules ih =>
    obtain ⟨rule, id⟩ := r
    obtain ⟨hr, hrules⟩ := List.forall_mem_cons.1 hrules
    rw [mem_numbered] at hr
    have hcs : ∀ c ∈ contributions rule id, (∃ s, symbols.lookup c.1 = some s) ∧
        ∀ bit ∈ g.inlineBits c.2.1, g.Whole bit := by
      intro c hc
      obtain ⟨rfl, hshape⟩ := rule_of_contributions hc
      exact ⟨hnum.exists_lookup hr (.inr hshape),
        whole_of_mem_inlineBits (read_of_load hload) hr hc⟩
    unfold addRules
    split
    · exact Flawless.error _
    · exact Flawless.error _
    · exact Flawless.noted_bind (flawless_addContributions hload hloop hnum hcs l') fun l'' _ =>
        ih hrules l''

/-! ## Symbols -/

theorem exists_addTerms (rules : List (Rule × RuleId)) (m : SymbolMap)
    (hnodup : (rules.map (·.1.name)).Nodup) (hfresh : ∀ r ∈ rules, r.1.name ∉ l.names) :
    ∃ r, addTerms l m rules = .ok r := by
  induction rules generalizing l m with
  | nil => exact ⟨_, rfl⟩
  | cons r rules ih =>
    obtain ⟨hhead, hnodup⟩ := List.nodup_cons.1 hnodup
    obtain ⟨hr, hfresh⟩ := List.forall_mem_cons.1 hfresh
    have hadd := Lowered.addTerminal_eq_ok_iff.2 ⟨hr, rfl⟩
    obtain ⟨res, hres⟩ := ih ((r.2, l.terminals.size) :: m) hnodup
      (l := { l with terminals := l.terminals.push r.1.name }) (by
        intro r' hr' hmem
        simp only [Lowered.names, Array.toList_push, List.mem_append, List.mem_singleton] at hmem
        rcases hmem with (hmem | heq) | hmem
        · exact hfresh r' hr' (List.mem_append_left _ hmem)
        · exact hhead (List.mem_map.2 ⟨r', hr', heq⟩)
        · exact hfresh r' hr' (List.mem_append_right _ hmem))
    exact ⟨res, bind_eq_ok_iff.2 ⟨_, hadd, hres⟩⟩

theorem exists_addNonterminals (rules : List (Rule × RuleId)) (m : SymbolMap)
    (hnodup : ((rules.filter fun r => hasNonterminal r.1.shape).map (·.1.name)).Nodup)
    (hfresh : ∀ r ∈ rules, hasNonterminal r.1.shape = true → r.1.name ∉ l.names) :
    ∃ r, addNonterminals l m rules = .ok r := by
  induction rules generalizing l m with
  | nil => exact ⟨_, rfl⟩
  | cons r rules ih =>
    obtain ⟨rule, id⟩ := r
    obtain ⟨hr, hfresh⟩ := List.forall_mem_cons.1 hfresh
    unfold addNonterminals
    by_cases hshape : hasNonterminal rule.shape = true
    · rw [List.filter_cons_of_pos (p := fun r : Rule × RuleId => hasNonterminal r.1.shape) hshape,
        List.map_cons] at hnodup
      obtain ⟨hhead, hnodup⟩ := List.nodup_cons.1 hnodup
      have hadd := Lowered.addNonterminal_eq_ok_iff.2 ⟨hr hshape, rfl⟩
      obtain ⟨res, hres⟩ := ih ((id, l.numSymbols) :: m) hnodup
        (l := { l with nonterminals := l.nonterminals.push rule.name }) (by
          intro r' hr' hshape' hmem
          simp only [Lowered.names, Array.toList_push, List.mem_append, List.mem_singleton] at hmem
          rcases hmem with hmem | hmem | heq
          · exact hfresh r' hr' hshape' (List.mem_append_left _ hmem)
          · exact hfresh r' hr' hshape' (List.mem_append_right _ hmem)
          · exact hhead (List.mem_map.2 ⟨r', List.mem_filter.2 ⟨hr', hshape'⟩, heq⟩))
      rw [if_pos hshape]
      exact ⟨res, bind_eq_ok_iff.2 ⟨_, hadd, hres⟩⟩
    · rw [List.filter_cons_of_neg (p := fun r : Rule × RuleId => hasNonterminal r.1.shape) hshape]
        at hnodup
      rw [if_neg hshape]
      exact ih m hnodup hfresh

/-- A rule with a symbol. -/
theorem not_isLine_of_kind {r : Rule}
    (h : r.shape.isTerm = true ∨ hasNonterminal r.shape = true) : ¬ r.IsLine := by
  rintro ⟨bits, hbits⟩
  rw [hbits] at h
  rcases h with h | h <;> cases h

/-- Rules with symbols are the same if they have the same name. -/
theorem eq_of_name_of_kind (hread : read text = .ok g) {r r' : Rule × RuleId}
    (hr : r ∈ g.numbered) (hr' : r' ∈ g.numbered)
    (hkind : r.1.shape.isTerm = true ∨ hasNonterminal r.1.shape = true)
    (hkind' : r'.1.shape.isTerm = true ∨ hasNonterminal r'.1.shape = true)
    (hname : r.1.name = r'.1.name) : r = r' := by
  have hid := eq_of_name_of_read hread (mem_numbered.1 hr) (mem_numbered.1 hr')
    (not_isLine_of_kind hkind) (not_isLine_of_kind hkind') hname
  rw [mem_numbered] at hr hr'
  rw [← hid] at hr'
  exact Prod.ext (Option.some.inj (hr.symm.trans hr')) hid

/-- Every grammar that was read has symbols. -/
theorem exists_symbols (hread : read text = .ok g) : ∃ r, g.symbols = .ok r := by
  have hdollar : ∀ {r : Rule × RuleId} {name : String}, r ∈ g.numbered →
      (r.1.shape.isTerm = true ∨ hasNonterminal r.1.shape = true) →
      name.toList.head? = some '$' → r.1.name ≠ name := by
    intro r name hr hkind hhead hname
    exact head_name_ne_of_read hread (mem_numbered.1 hr) (not_isLine_of_kind hkind)
      (hname ▸ hhead)
  have hnumbered : g.numbered.Nodup := nodup_numbered.of_map
  have hterms : ∀ r ∈ g.terms, r ∈ g.numbered ∧ r.1.shape.isTerm = true :=
    fun r hr => List.mem_filter.1 hr
  have hend : Lowered.empty.addTerminal "$end" = .ok { Lowered.empty with terminals := #["$end"] } :=
    rfl
  obtain ⟨⟨l, m⟩, hl⟩ := exists_addTerms (l := { Lowered.empty with terminals := #["$end"] })
    g.terms []
    ((hnumbered.filter _).map_on fun r hr r' hr' hname =>
      eq_of_name_of_kind hread (hterms r hr).1 (hterms r' hr').1 (.inl (hterms r hr).2)
        (.inl (hterms r' hr').2) hname)
    (fun r hr hmem => hdollar (hterms r hr).1 (.inl (hterms r hr).2) rfl
      (List.mem_singleton.1 hmem))
  obtain ⟨-, rfl, -⟩ := addTerms_spec hl (List.nodup_singleton _)
  have haccept : "$accept" ∉ Lowered.names
      { Lowered.empty with terminals := #["$end"] ++ (g.terms.map (·.1.name)).toArray } := by
    simp only [Lowered.names, Lowered.empty, List.append_nil, Array.toList_append,
      List.mem_append, List.mem_singleton]
    rintro (h | h)
    · exact absurd h (by decide)
    · obtain ⟨r, hr, hname⟩ := List.mem_map.1 h
      exact hdollar (hterms r hr).1 (.inl (hterms r hr).2) rfl hname
  obtain ⟨res, hres⟩ := exists_addNonterminals g.numbered m
    (l := { terminals := #["$end"] ++ (g.terms.map (·.1.name)).toArray, nonterminals := #["$accept"]
            productions := #[], derivations := #[], warnings := [] })
    ((hnumbered.filter _).map_on fun r hr r' hr' hname => by
      obtain ⟨hr, hshape⟩ := List.mem_filter.1 hr
      obtain ⟨hr', hshape'⟩ := List.mem_filter.1 hr'
      exact eq_of_name_of_kind hread hr hr' (.inr hshape) (.inr hshape') hname)
    (fun r hr hshape hmem => by
      simp only [Lowered.names, Array.toList_append, List.mem_append, List.mem_singleton] at hmem
      rcases hmem with (h | h) | h
      · exact hdollar hr (.inr hshape) rfl h
      · obtain ⟨r', hr', hname⟩ := List.mem_map.1 h
        obtain rfl := eq_of_name_of_kind hread hr (hterms r' hr').1 (.inr hshape)
          (.inl (hterms r' hr').2) hname.symm
        rw [not_hasNonterminal_of_isTerm (hterms r hr').2] at hshape
        cases hshape
      · exact hdollar hr (.inr hshape) rfl h)
  exact ⟨res, bind_eq_ok_iff.2 ⟨_, hend, bind_eq_ok_iff.2 ⟨_, hl, bind_eq_ok_iff.2 ⟨_,
    Lowered.addNonterminal_eq_ok_iff.2 ⟨haccept, rfl⟩, hres⟩⟩⟩⟩

/-! ## Lowering -/

theorem flawless_startRule (hload : load text = .ok g) (hloop : g.Loopless) (id : RuleId) :
    Flawless (g.startRule (g.size + 1) id).result := by
  refine link_induction hload hloop (P := fun fuel id => Flawless (g.startRule fuel id).result)
    (fun fuel id ih => ?_) id
  unfold startRule
  split
  · rename_i child hshape
    exact ih child (.inl (.inl hshape))
  · rename_i child hshape
    exact Flawless.noted_bind (Flawless.ok ()) fun _ _ => ih child (.inl (.inr hshape))
  · exact Flawless.ok id

/-- Lowering a grammar has a lowered grammar or an error. -/
theorem flawless_ofGrammar (hload : load text = .ok g) (hloop : g.Loopless) :
    Flawless (Lowered.ofGrammar g).result := by
  obtain ⟨r, hr⟩ := exists_symbols (read_of_load hload)
  refine Flawless.noted_bind (Flawless.of_ok (mapError_eq_ok_iff.2 hr)) fun ⟨l₀, symbols⟩ h₀ => ?_
  rw [Noted.result_ofResult, mapError_eq_ok_iff] at h₀
  refine Flawless.noted_bind (flawless_startRule hload hloop _) fun start hstart => ?_
  obtain ⟨hnum, -, -⟩ := numbers_of_symbols h₀
  cases hs : symbols.lookup start with
  | none => exact Flawless.error _
  | some s =>
    refine Flawless.noted_bind (flawless_addRules hload hloop hnum (fun _ hr => hr) _)
      fun l hl => ?_
    have hcheck := (lowersTo_of_addRules h₀ hstart hs hl).wellFormed.checkStart_eq
    exact Flawless.noted_bind (Flawless.of_ok (mapError_eq_ok_iff.2 hcheck)) fun _ _ =>
      Flawless.ok l

end Grammar

end LanguageWorkbench
