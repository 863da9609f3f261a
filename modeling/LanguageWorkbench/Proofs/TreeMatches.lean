import LanguageWorkbench.Proofs.Derivation
import LanguageWorkbench.Proofs.Matching
import LanguageWorkbench.Proofs.Productions

/-!
# Parse trees match their rules

Each production is one choice of the bits of its rule. So a parse tree of the symbol of a
rule gives a match of the rule, node by node.

Results:
* `Grammar.LowersTo.matches_of_production`: one production gives one step of a match.
* `Grammar.LowersTo.matches_of_grows`: a parse tree gives a match.
-/

namespace LanguageWorkbench

/-- The names of the terminals of a word. -/
def Lowered.spell (l : Lowered) (w : List Terminal) : List String := w.map fun x => l.nameOf x.1

namespace Grammar

variable {g : Grammar} {symbols : SymbolMap} {l : Lowered}

/-- A word made of words that the rules of symbols match. -/
inductive Spells (g : Grammar) (symbols : SymbolMap) : List Symbol → List String → Prop
  | nil : Spells g symbols [] []
  | cons {s : Symbol} {ss : List Symbol} {u v : List String} :
      (∀ id, symbols.lookup id = some s → g.Matches id u) → Spells g symbols ss v →
      Spells g symbols (s :: ss) (u ++ v)

theorem Reads.matchesBit {afterAbsent : Bool} {id : RuleId} {r : Option Symbol}
    (h : Reads g symbols afterAbsent id r) {w : List String}
    (hw : ∀ s, r = some s → ∀ y, symbols.lookup y = some s → g.Matches y w)
    (hnone : r = none → w = []) : g.MatchesBit afterAbsent id r.isNone w := by
  induction h with
  | rule _ _ hs => exact .rule (hw _ rfl _ hs)
  | aliasOf hshape _ ih => exact .aliasOf hshape (ih hw hnone)
  | leftOut hshape =>
    rw [hnone rfl]
    exact .leftOut hshape
  | option hshape _ ih => exact .option hshape (ih hw hnone)
  | absent hshape hafter =>
    subst hafter
    rw [hnone rfl]
    exact .absent hshape
  | dependent hshape hafter _ ih =>
    subst hafter
    exact .dependent hshape (ih hw hnone)

theorem Chosen.matchesBits {afterAbsent : Bool} {bits : List RuleId}
    {choice : List (Option Symbol)} (h : Chosen g symbols afterAbsent bits choice)
    {w : List String} (hw : Spells g symbols (presentSymbols choice) w) :
    g.MatchesBits afterAbsent bits w := by
  induction h generalizing w with
  | nil =>
    cases hw
    exact .nil
  | @cons _ bit bits r choice hr _ ih =>
    cases r with
    | none =>
      have hbit := hr.matchesBit (w := []) (fun s hs => by cases hs) fun _ => rfl
      exact .cons hbit (ih hw)
    | some s =>
      rw [presentSymbols_some] at hw
      cases hw with
      | cons hu hv =>
        refine .cons (hr.matchesBit (fun s' hs' => ?_) fun hnone => by cases hnone) (ih hv)
        cases hs'
        exact hu

/-- A bit behind which nothing optional stands matches what its rule matches. -/
theorem MatchesBit.matches : ∀ {afterAbsent absent : Bool} {id : RuleId} {w : List String},
    g.MatchesBit afterAbsent id absent w →
    (∀ k y, g.LeadsTo k id y → ¬ g.isOptional y = true) → g.Matches id w
  | _, _, _, _, .rule h, _ => h
  | _, _, _, _, .aliasOf hshape h, hplain => .aliasOf hshape (h.matches fun k y hk =>
      hplain (k + 1) y (.step (aliasTarget?_eq_some_iff.2 hshape) hk))
  | _, _, id, _, .leftOut hshape, hplain | _, _, id, _, .option hshape _, hplain =>
    have hself := leadsTo_self_of_optional (.inl hshape)
    absurd hself.2 (hplain 0 id hself.1)
  | _, _, id, _, .absent hshape, hplain | _, _, id, _, .dependent hshape _, hplain =>
    have hself := leadsTo_self_of_optional (.inr hshape)
    absurd hself.2 (hplain 0 id hself.1)

/-- A production whose right side spells a word gives a match of its rule. -/
theorem LowersTo.matches_of_production (h : g.LowersTo symbols l) (hg : g.Sound)
    (hc : g.check = .ok ()) {n : Nat} {p : Production} (hp : l.productions[n]? = some p)
    {id : RuleId} (hid : symbols.lookup id = some p.lhs) {w : List String}
    (hw : Spells g symbols p.rhs w) : g.Matches id w := by
  obtain ⟨built, choice, hrhs, -, hstands⟩ := h.stands hg hc hp hid
  rw [hrhs] at hw
  cases hstands with
  | sequence hshape _ hchosen => exact .sequence hshape (hchosen.matchesBits hw)
  | line hshape hbit hinner _ hchosen =>
    exact .alternative hshape hbit (.sequence hinner (hchosen.matchesBits hw))
  | branch hshape hbit hr =>
    -- a branch is never left out, so its one symbol spells the word
    obtain ⟨rule, hrule, hshape'⟩ := Option.map_eq_some_iff.1 hshape
    refine .alternative hshape hbit
      (MatchesBit.matches (hr.matchesBit ?_ fun hnone => nomatch hnone)
        fun k y hk => hk.not_isOptional hc hrule hshape' hbit)
    rintro s hs y hy
    cases hs
    cases hw with
    | cons hu hv =>
      cases hv
      rw [List.append_nil]
      exact hu y hy
  | element hshape hr => exact .plus (n := 0) hshape ((Chosen.cons hr .nil).matchesBits hw)
  | longer hshape hs hchosen =>
    rw [presentSymbols_some] at hw
    cases hw with
    | cons hu hv =>
      -- the list itself makes a shorter list
      obtain ⟨k, hlist⟩ := (hu id hs).exists_bits hshape
      cases hchosen with
      | cons _ hrest =>
        cases hrest.matchesBits hv with
        | cons hbit hnil =>
          cases hnil
          rw [List.append_nil]
          obtain ⟨m, hbits⟩ := hlist.snoc hbit
          exact .plus hshape hbits

mutual

/-- A parse tree of the symbol of a rule gives a match of the rule. -/
theorem LowersTo.matches_of_grows (h : g.LowersTo symbols l) (hg : g.Sound)
    (hc : g.check = .ok ()) : ∀ {t : ParseTree} {s : Symbol} {w : List Terminal},
    l.Grows t s w → ∀ id, symbols.lookup id = some s → g.Matches id (l.spell w)
  | _, _, _, .leaf hterm, id, hid => by
    obtain ⟨rule, hrule, -, ⟨hshape, -⟩ | ⟨-, hgt, -⟩⟩ := h.numbers.of_lookup hid
    · cases hrule' : rule.shape with
      | term kind pattern =>
        rw [Lowered.spell, List.map_singleton, h.numbers.nameOf_eq hid]
        exact .term (shape?_of_rule? hrule hrule')
      | _ => rw [hrule'] at hshape; cases hshape
    · exact absurd (of_decide_eq_true hterm) (Nat.not_lt_of_lt hgt)
  | _, _, _, .node hp hs, id, hid => by
    exact h.matches_of_production hg hc hp hid
      (h.spells_of_growsAll hg hc hs)

theorem LowersTo.spells_of_growsAll (h : g.LowersTo symbols l) (hg : g.Sound)
    (hc : g.check = .ok ()) : ∀ {ts : List ParseTree} {ss : List Symbol} {w : List Terminal},
    l.GrowsAll ts ss w → Spells g symbols ss (l.spell w)
  | _, _, _, .nil => .nil
  | _, _, _, .cons ht hts => by
    rw [Lowered.spell, List.map_append]
    exact .cons (h.matches_of_grows hg hc ht) (h.spells_of_growsAll hg hc hts)

end

end Grammar

end LanguageWorkbench
