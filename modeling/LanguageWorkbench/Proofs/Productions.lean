import LanguageWorkbench.Proofs.Aliases
import LanguageWorkbench.Proofs.Lowering
import LanguageWorkbench.Proofs.Resolving

/-!
# What productions stand for

Every production but the first is a choice of the bits of a sequence, an alternative line
or a list, or one branch of an alternative.

Results:
* `Grammar.Stands`: the ways in which a choice makes a value of a rule.
* `Grammar.LowersTo.stands`: every production of a rule is one of them.
-/

namespace LanguageWorkbench.Grammar

variable {g : Grammar} {symbols : SymbolMap} {l : Lowered} {id : RuleId}

theorem shape?_of_rule? {rule : Rule} {shape : Shape} (h : g.rule? id = some rule)
    (hshape : rule.shape = shape) : g.shape? id = some shape := by
  simp [shape?, h, hshape]

/-! ## Bits that stand for others -/

theorem inlineBits_of_two_le {bits : List RuleId} (h : 2 ≤ bits.length) :
    g.inlineBits bits = bits := by
  match bits with
  | [] => rfl
  | [_] => simp at h
  | _ :: _ :: _ => rfl

/-- A single bit stands for the bits of an anonymous sequence, or for itself. -/
theorem inlineBits_singleton (g : Grammar) (bit : RuleId) :
    (∃ inner, g.shape? bit = some (.sequence inner true) ∧ g.inlineBits [bit] = inner) ∨
      (∀ inner, g.shape? bit ≠ some (.sequence inner true)) ∧ g.inlineBits [bit] = [bit] := by
  by_cases h : ∃ inner, g.shape? bit = some (.sequence inner true)
  · obtain ⟨inner, h⟩ := h
    exact .inl ⟨inner, h, by simp [inlineBits, h]⟩
  · refine .inr ⟨fun inner hinner => h ⟨inner, hinner⟩, ?_⟩
    simp only [inlineBits]
    split
    · rename_i inner hinner
      exact absurd ⟨inner, hinner⟩ h
    · rfl

/-- No list has an anonymous sequence as its child, since the choices of the list after
    itself would be refused. -/
theorem LowersTo.inlineBits_plus (h : g.LowersTo symbols l) {child : RuleId} {rule : Rule}
    (hrule : g.rule? id = some rule) (hshape : rule.shape = .plus child) :
    g.inlineBits [child] = [child] := by
  rcases inlineBits_singleton g child with ⟨inner, hinner, -⟩ | ⟨-, heq⟩
  · obtain ⟨lhs, found, hlhs, hfound, -⟩ := h.served hrule (id, [id, child], id)
      (by simp [contributions, hshape])
    have hreads : Reads g symbols false id (some lhs) :=
      .rule hrule (.inr (by rw [hshape]; rfl)) hlhs
    obtain ⟨rest, hrest, -⟩ := exists_choices_of_reads hfound hreads
    have hrefused := not_refused_of_choices hrest (.fault (.anonymousElement (g.nameOf child)))
    simp [readings, hinner] at hrefused
  · exact heq

/-! ## Productions -/

/-- `Stands g symbols id built choice`: a value of the rule `id` is what a choice makes, as
    a node of the rule `built` or, for a choice of one bit, as the value of that bit. -/
inductive Stands (g : Grammar) (symbols : SymbolMap) (id : RuleId) :
    RuleId → List (Option Symbol) → Prop
  | sequence {bits : List RuleId} {choice : List (Option Symbol)} :
      g.shape? id = some (.sequence bits false) → 2 ≤ bits.length →
      Chosen g symbols false bits choice → Stands g symbols id id choice
  | line {bits inner : List RuleId} {bit : RuleId} {choice : List (Option Symbol)} :
      g.shape? id = some (.alternative bits) → bit ∈ bits →
      g.shape? bit = some (.sequence inner true) → 2 ≤ inner.length →
      Chosen g symbols false inner choice → Stands g symbols id bit choice
  | branch {bits : List RuleId} {bit : RuleId} {s : Symbol} :
      g.shape? id = some (.alternative bits) → bit ∈ bits →
      Reads g symbols false bit (some s) → Stands g symbols id bit [some s]
  | element {child : RuleId} {r : Option Symbol} : g.shape? id = some (.plus child) →
      Reads g symbols false child r → Stands g symbols id id [r]
  | longer {child : RuleId} {s : Symbol} {r : Option Symbol} :
      g.shape? id = some (.plus child) → symbols.lookup id = some s →
      Chosen g symbols false [id, child] [some s, r] → Stands g symbols id id [some s, r]

theorem Chosen.singleton {afterAbsent : Bool} {choice : List (Option Symbol)}
    (h : Chosen g symbols afterAbsent [id] choice) :
    ∃ r, choice = [r] ∧ Reads g symbols afterAbsent id r := by
  cases h with
  | @cons _ _ _ r _ hr hnil =>
    cases hnil
    exact ⟨r, rfl, hr⟩

/-- The choices that a rule brings stand for its values. -/
theorem LowersTo.stands_of_contributions (h : g.LowersTo symbols l) (hg : g.Sound)
    (hc : g.check = .ok ()) {rule : Rule} (hrule : g.rule? id = some rule)
    {c : RuleId × List RuleId × RuleId} (hmem : c ∈ contributions rule id)
    {choice : List (Option Symbol)}
    (hchosen : Chosen g symbols false (g.inlineBits c.2.1) choice) :
    g.Stands symbols id c.2.2 choice := by
  cases hshape : rule.shape with
  | sequence bits anonymous =>
    have hrule' := shape?_of_rule? hrule hshape
    cases anonymous with
    | true => simp [contributions, hshape] at hmem
    | false =>
      simp only [contributions, hshape, List.mem_singleton] at hmem
      subst hmem
      rw [inlineBits_of_two_le (hg.long hrule')] at hchosen
      exact .sequence hrule' (hg.long hrule') hchosen
  | alternative bits =>
    have hrule' := shape?_of_rule? hrule hshape
    simp only [contributions, hshape, List.mem_map] at hmem
    obtain ⟨bit, hbit, rfl⟩ := hmem
    -- a branch is a line, whose bits are opened, or it stands for its own symbol
    rcases inlineBits_singleton g bit with ⟨inner, hinner, heq⟩ | ⟨-, heq⟩
    · rw [heq] at hchosen
      exact .line hrule' hbit hinner (hg.long hinner) hchosen
    · rw [heq] at hchosen
      obtain ⟨r, rfl, hr⟩ := hchosen.singleton
      cases r with
      | none => exact absurd hr (not_reads_none hc hrule hshape hbit)
      | some s => exact .branch hrule' hbit hr
  | plus child =>
    have hrule' := shape?_of_rule? hrule hshape
    simp only [contributions, hshape, List.mem_cons, List.not_mem_nil, or_false] at hmem
    rcases hmem with rfl | rfl
    · rw [h.inlineBits_plus hrule hshape] at hchosen
      obtain ⟨r, rfl, hr⟩ := hchosen.singleton
      exact .element hrule' hr
    · cases hchosen with
      | cons hlist hrest =>
        obtain ⟨s, rfl, hs⟩ := hlist.exists_symbol hrule (.inr (by rw [hshape]; rfl))
        obtain ⟨r, rfl, -⟩ := hrest.singleton
        exact .longer hrule' hs (.cons hlist hrest)
  | _ => simp [contributions, hshape] at hmem

/-- Every production but the first stands for a rule, and its derivation says how. -/
theorem LowersTo.exists_stands (h : g.LowersTo symbols l) (hg : g.Sound) (hc : g.check = .ok ())
    {n : Nat} (hn : n ≠ 0) {p : Production} (hp : l.productions[n]? = some p) :
    ∃ id built choice, symbols.lookup id = some p.lhs ∧ p.rhs = presentSymbols choice ∧
      l.derivations[n]? = some (g.derivationOf built choice) ∧ g.Stands symbols id built choice := by
  obtain ⟨d, hd, rule, id, hrule, hb⟩ := h.brings hn hp
  obtain ⟨c, hmem, lhs, found, hlhs, hfound, choice, hchoice, rfl, rfl⟩ := hb
  obtain ⟨rfl, -⟩ := rule_of_contributions hmem
  exact ⟨c.1, c.2.2, choice, hlhs, rfl, hd,
    h.stands_of_contributions hg hc hrule hmem ((mem_choices_iff hfound).1 hchoice)⟩

/-- The first production belongs to no rule. -/
theorem LowersTo.ne_zero_of_lookup (h : g.LowersTo symbols l) {n : Nat} {p : Production}
    (hp : l.productions[n]? = some p) (hid : symbols.lookup id = some p.lhs) : n ≠ 0 := by
  rintro rfl
  obtain ⟨_, _, -, -, hzero⟩ := h.start
  have hne := (h.numbers.ne_of_lookup hid).2.2
  rw [Option.some.inj (hp.symm.trans hzero)] at hne
  exact hne rfl

/-- The productions of a rule stand for it. -/
theorem LowersTo.stands (h : g.LowersTo symbols l) (hg : g.Sound) (hc : g.check = .ok ())
    {n : Nat} {p : Production} (hp : l.productions[n]? = some p)
    (hid : symbols.lookup id = some p.lhs) :
    ∃ built choice, p.rhs = presentSymbols choice ∧
      l.derivations[n]? = some (g.derivationOf built choice) ∧ g.Stands symbols id built choice := by
  obtain ⟨id', built, choice, hid', hrhs, hd, hstands⟩ :=
    h.exists_stands hg hc (h.ne_zero_of_lookup hp hid) hp
  obtain rfl := h.numbers.lookup_inj hid hid'
  exact ⟨built, choice, hrhs, hd, hstands⟩

end LanguageWorkbench.Grammar
