import LanguageWorkbench.Proofs.TreeMatches

/-!
# Matches grow to parse trees

A match of a rule gives a choice at each sequence, and the choice is a production. So what
a rule with a symbol matches has a parse tree of the symbol. What an anonymous sequence
matches has trees for a choice of its bits, which stand in the place of the sequence.

Results:
* `Grammar.GrownRule`, `Grammar.GrownBit`, `Grammar.GrownBits`: words with trees.
* `Grammar.LowersTo.exists_list`: a list grows by the bits that are there.
* `Grammar.LowersTo.grown_of_matches`: what a rule matches has trees.
-/

namespace LanguageWorkbench.Grammar

variable {g : Grammar} {symbols : SymbolMap} {l : Lowered}

/-! ## Words with trees -/

/-- A word of a rule with a tree of its symbol or, for an anonymous sequence, perhaps
    behind aliases, with trees for a choice of its bits. -/
def GrownRule (g : Grammar) (symbols : SymbolMap) (l : Lowered) (id : RuleId)
    (w : List Terminal) : Prop :=
  (∃ s tree, (∀ afterAbsent, Reads g symbols afterAbsent id (some s)) ∧ l.Grows tree s w) ∨
    ∃ k y inner, g.LeadsTo k id y ∧ g.shape? y = some (.sequence inner true) ∧
      ∀ found, g.choices symbols false inner = .ok found → ∃ choice ts,
        Chosen g symbols false inner choice ∧ l.GrowsAll ts (presentSymbols choice) w

/-- A word of a bit with a reading and trees for it, unless readings are refused. -/
def GrownBit (g : Grammar) (symbols : SymbolMap) (l : Lowered) (afterAbsent : Bool)
    (id : RuleId) (absent : Bool) (w : List Terminal) : Prop :=
  ∀ fuel, (∀ f, .refused f ∉ g.readings symbols afterAbsent fuel id) →
    ∃ r ts, Reads g symbols afterAbsent id r ∧ r.isNone = absent ∧ l.GrowsAll ts r.toList w

/-- A word of bits one after the other. -/
inductive GrownBits (g : Grammar) (symbols : SymbolMap) (l : Lowered) :
    Bool → List RuleId → List Terminal → Prop
  | nil {afterAbsent : Bool} : GrownBits g symbols l afterAbsent [] []
  | cons {afterAbsent absent : Bool} {bit : RuleId} {bits : List RuleId} {u v : List Terminal} :
      GrownBit g symbols l afterAbsent bit absent u → GrownBits g symbols l absent bits v →
      GrownBits g symbols l afterAbsent (bit :: bits) (u ++ v)

/-- What leads to an anonymous sequence is refused as a bit. -/
theorem LeadsTo.refused {k : Nat} {id y : RuleId} {inner : List RuleId} (h : g.LeadsTo k id y)
    (hshape : g.shape? y = some (.sequence inner true)) (afterAbsent : Bool) (fuel : Nat) :
    ∃ f, .refused f ∈ g.readings symbols afterAbsent fuel id := by
  induction h generalizing fuel with
  | refl _ =>
    cases fuel with
    | zero => exact ⟨_, List.mem_singleton.2 rfl⟩
    | succ fuel => exact ⟨_, by simp only [readings, hshape]; exact List.mem_singleton.2 rfl⟩
  | step hnext _ ih =>
    cases fuel with
    | zero => exact ⟨_, List.mem_singleton.2 rfl⟩
    | succ fuel =>
      simp only [readings, aliasTarget?_eq_some_iff.1 hnext]
      exact ih hshape fuel

theorem GrownRule.grownBit {id : RuleId} {w : List Terminal} (h : GrownRule g symbols l id w)
    (afterAbsent : Bool) : GrownBit g symbols l afterAbsent id false w := by
  intro fuel hno
  rcases h with ⟨s, tree, hr, htree⟩ | ⟨k, y, inner, hleads, hinner, -⟩
  · exact ⟨some s, [tree], hr afterAbsent, rfl, Lowered.growsAll_singleton.2 htree⟩
  · obtain ⟨f, hf⟩ := hleads.refused hinner afterAbsent fuel
    exact absurd hf (hno f)

theorem GrownBits.exists_choice {afterAbsent : Bool} {bits : List RuleId} {w : List Terminal}
    (h : GrownBits g symbols l afterAbsent bits w) {found : List (List (Option Symbol))}
    (hfound : g.choices symbols afterAbsent bits = .ok found) :
    ∃ choice ts, Chosen g symbols afterAbsent bits choice ∧
      l.GrowsAll ts (presentSymbols choice) w := by
  induction h generalizing found with
  | nil => exact ⟨[], [], .nil, .nil⟩
  | cons hbit _ ih =>
    obtain ⟨r, ts, hr, rfl, hts⟩ := hbit _ (not_refused_of_choices hfound)
    obtain ⟨rest, hrest, -⟩ := exists_choices_of_reads hfound hr
    obtain ⟨choice, us, hchoice, hus⟩ := ih hrest
    refine ⟨r :: choice, ts ++ us, .cons hr hchoice, ?_⟩
    cases r with
    | none => exact hts.append hus
    | some s => exact hts.append hus

/-- The trees of a choice make a tree of the symbol of the rule. -/
theorem LowersTo.exists_tree (h : g.LowersTo symbols l) {id : RuleId} (built : RuleId) {rule : Rule}
    (hrule : g.rule? id = some rule) (bits : List RuleId)
    (hc : (id, bits, built) ∈ contributions rule id) {s : Symbol}
    (hs : symbols.lookup id = some s) {w : List Terminal}
    (hw : ∀ found, g.choices symbols false (g.inlineBits bits) = .ok found → ∃ choice ts,
      Chosen g symbols false (g.inlineBits bits) choice ∧
        l.GrowsAll ts (presentSymbols choice) w) :
    ∃ tree, l.Grows tree s w := by
  obtain ⟨lhs, found, hlhs, hfound, hmem⟩ := h.served hrule _ hc
  obtain rfl := Option.some.inj (hs.symm.trans hlhs)
  obtain ⟨choice, ts, hchoice, hts⟩ := hw found hfound
  obtain ⟨n, hn⟩ := Array.mem_iff_getElem?.1 (hmem choice ((mem_choices_iff hfound).2 hchoice))
  exact ⟨.node n ts, .node hn hts⟩

/-! ## Lists -/

theorem Reads.anywhere {id : RuleId} {s : Symbol} (h : Reads g symbols true id (some s)) :
    Reads g symbols false id (some s) := by
  generalize hr : some s = r at h
  generalize hb : true = afterAbsent at h
  induction h with
  | rule hrule hkind hs => exact .rule hrule hkind hs
  | aliasOf hshape _ ih => exact .aliasOf hshape (ih hr)
  | leftOut _ => cases hr
  | option hshape _ ih => exact .option hshape (ih hr)
  | absent _ _ => cases hr
  | dependent _ hafter _ _ => rw [← hb] at hafter; cases hafter

theorem refused_anywhere {f : Failure} {id : RuleId} {fuel : Nat}
    (h : .refused f ∈ g.readings symbols true fuel id) :
    .refused f ∈ g.readings symbols false fuel id := by
  induction fuel generalizing id with
  | zero => exact h
  | succ fuel ih =>
    cases hshape : g.shape? id with
    | none => simpa [readings, hshape] using h
    | some shape =>
      cases shape with
      | aliasOf child =>
        simp only [readings, hshape] at h ⊢
        exact ih h
      | option child =>
        simp only [readings, hshape, List.mem_cons, reduceCtorEq, false_or] at h ⊢
        exact ih h
      | dependent child => simp [readings, hshape] at h
      | sequence bits anonymous => cases anonymous <;> simpa only [readings, hshape] using h
      | _ => simpa only [readings, hshape] using h

/-- A list grows by the bits that are there. -/
theorem LowersTo.exists_list (h : g.LowersTo symbols l) {id child : RuleId} {rule : Rule}
    (hrule : g.rule? id = some rule) (hshape : rule.shape = .plus child) {s : Symbol}
    (hs : symbols.lookup id = some s) {n : Nat} {afterAbsent : Bool} {w : List Terminal}
    (hw : GrownBits g symbols l afterAbsent (List.replicate n child) w)
    (hno : ∀ f, .refused f ∉ g.readings symbols false (g.size + 1) child)
    {tree : ParseTree} {u : List Terminal} (htree : l.Grows tree s u) :
    ∃ tree, l.Grows tree s (u ++ w) := by
  induction n generalizing afterAbsent w tree u with
  | zero =>
    cases hw
    exact ⟨tree, by rwa [List.append_nil]⟩
  | succ n ih =>
    cases hw with
    | @cons _ absent _ _ v v' hbit hbits =>
      obtain ⟨r, ts, hr, -, hts⟩ := hbit (g.size + 1) (by
        cases afterAbsent with
        | false => exact hno
        | true => exact fun f hf => hno f (refused_anywhere hf))
      rw [← List.append_assoc]
      cases r with
      | none =>
        cases hts
        rw [List.append_nil]
        exact ih hbits htree
      -- the list so far and the new element make a longer list
      | some s' =>
        have hread : Reads g symbols false child (some s') := by
          cases afterAbsent with
          | false => exact hr
          | true => exact hr.anywhere
        have hself : Reads g symbols false id (some s) :=
          .rule hrule (.inr (by rw [hshape]; rfl)) hs
        obtain ⟨tree', htree'⟩ := h.exists_tree id hrule [id, child]
          (by simp [contributions, hshape]) hs fun _ _ =>
            ⟨[some s, some s'], tree :: ts, .cons hself (.cons hread .nil), .cons htree hts⟩
        exact ih hbits htree'

/-! ## Rules -/

theorem Numbers.eq_of_nameOf (h : g.Numbers l symbols) {id : RuleId} {s x : Symbol}
    (hs : symbols.lookup id = some s) (hx : l.isTerminal x = true)
    (hname : l.nameOf x = g.nameOf id) : s = x := by
  have hlt : x < l.names.length := by
    have := of_decide_eq_true hx
    rw [Lowered.length_names]
    exact Nat.lt_of_lt_of_le this (Nat.le_add_right _ _)
  have hsymbol := h.symbol?_nameOf hs
  rw [← hname, Lowered.nameOf_eq, List.getElem?_eq_getElem hlt, Option.getD_some] at hsymbol
  have hself := (Lowered.symbol?_eq_some_iff h.nodup).2 (List.getElem?_eq_getElem hlt)
  exact Option.some.inj (hsymbol.symm.trans hself)

theorem Reads.not_anonymous {afterAbsent : Bool} {id : RuleId} {s : Symbol} {inner : List RuleId}
    (h : Reads g symbols afterAbsent id (some s)) : g.shape? id ≠ some (.sequence inner true) := by
  intro hshape
  cases h with
  | rule hrule hkind _ =>
    obtain ⟨rule, hrule', hr⟩ := Option.map_eq_some_iff.1 hshape
    obtain rfl := Option.some.inj (hrule.symm.trans hrule')
    rw [hr] at hkind
    rcases hkind with hkind | hkind <;> cases hkind
  | aliasOf h _ => rw [hshape] at h; cases h
  | option h _ => rw [hshape] at h; cases h
  | dependent h _ _ => rw [hshape] at h; cases h

/-- What a branch matches is grown by the choices of its line. -/
theorem GrownRule.exists_choice {bit : RuleId} {w : List Terminal}
    (h : GrownRule g symbols l bit w) {found : List (List (Option Symbol))}
    (hfound : g.choices symbols false (g.inlineBits [bit]) = .ok found) :
    ∃ choice ts, Chosen g symbols false (g.inlineBits [bit]) choice ∧
      l.GrowsAll ts (presentSymbols choice) w := by
  rcases inlineBits_singleton g bit with ⟨inner, hinner, heq⟩ | ⟨hnot, heq⟩ <;>
    rw [heq] at hfound ⊢
  · rcases h with ⟨s, tree, hr, -⟩ | ⟨k, y, inner', hleads, hinner', hchoice⟩
    · exact absurd hinner (hr false).not_anonymous
    · cases hleads with
      | refl _ =>
        obtain rfl : inner = inner' := by
          have := hinner.symm.trans hinner'
          simpa using this
        exact hchoice found hfound
      | step hnext _ =>
        rw [aliasTarget?_eq_some_iff, hinner] at hnext
        cases hnext
  · rcases h with ⟨s, tree, hr, htree⟩ | ⟨k, y, inner', hleads, hinner', -⟩
    · exact ⟨[some s], [tree], .cons (hr false) .nil, Lowered.growsAll_singleton.2 htree⟩
    · obtain ⟨f, hf⟩ := hleads.refused hinner' false (g.size + 1)
      exact absurd hf (not_refused_of_choices hfound f)

theorem LowersTo.grown_plus (h : g.LowersTo symbols l) {id child : RuleId} {rule : Rule}
    (hrule : g.rule? id = some rule) (hshape : rule.shape = .plus child) {s : Symbol}
    (hs : symbols.lookup id = some s) {n : Nat} {w : List Terminal}
    (hw : GrownBits g symbols l false (List.replicate (n + 1) child) w) :
    ∃ tree, l.Grows tree s w := by
  have hinline := h.inlineBits_plus hrule hshape
  obtain ⟨_, found, -, hfound, -⟩ := h.served hrule (id, [child], id)
    (by simp [contributions, hshape])
  rw [hinline] at hfound
  have hno := not_refused_of_choices hfound
  cases hw with
  | cons hbit hbits =>
    obtain ⟨r, ts, hr, -, hts⟩ := hbit _ hno
    obtain ⟨tree, htree⟩ := h.exists_tree id hrule [child]
      (by simp [contributions, hshape]) hs fun _ _ => by
        rw [hinline]
        refine ⟨[r], ts, .cons hr .nil, ?_⟩
        cases r with
        | none => exact hts
        | some s' => exact hts
    exact h.exists_list hrule hshape hs hbits hno htree

mutual

/-- What a rule matches has a parse tree. -/
theorem LowersTo.grown_of_matches (h : g.LowersTo symbols l) (hg : g.Sound) :
    ∀ {id : RuleId} {names : List String}, g.Matches id names → ∀ w : List Terminal,
    (∀ x ∈ w, l.isTerminal x.1 = true) → l.spell w = names → GrownRule g symbols l id w
  | id, _, .term hshape, w, hw, hspell => by
    obtain ⟨rule, hrule, hr⟩ := Option.map_eq_some_iff.1 hshape
    have hkind : rule.shape.isTerm = true := by rw [hr]; rfl
    obtain ⟨s, hs⟩ := h.numbers.exists_lookup hrule (.inl hkind)
    obtain ⟨x, rfl, hname⟩ := List.map_eq_singleton_iff.1 hspell
    have hx := hw x List.mem_cons_self
    obtain rfl := h.numbers.eq_of_nameOf hs hx hname
    exact .inl ⟨x.1, .leaf x.1 x.2, fun _ => .rule hrule (.inl hkind) hs, .leaf hx⟩
  | id, _, @Matches.sequence _ _ bits anonymous _ hshape hbits, w, hw, hspell => by
    have hgrown := h.grownBits_of_matchesBits hg hbits w hw hspell
    cases anonymous with
    | true =>
      exact .inr ⟨0, id, bits, .refl (by simp [aliasTarget?, hshape]), hshape,
        fun found hfound => hgrown.exists_choice hfound⟩
    | false =>
      obtain ⟨rule, hrule, hr⟩ := Option.map_eq_some_iff.1 hshape
      have hkind : hasNonterminal rule.shape = true := by rw [hr]; rfl
      obtain ⟨s, hs⟩ := h.numbers.exists_lookup hrule (.inr hkind)
      obtain ⟨tree, htree⟩ := h.exists_tree id hrule bits
        (by simp [contributions, hr]) hs fun found hfound => by
          rw [inlineBits_of_two_le (hg.long hshape)] at hfound ⊢
          exact hgrown.exists_choice hfound
      exact .inl ⟨s, tree, fun _ => .rule hrule (.inr hkind) hs, htree⟩
  | id, _, @Matches.alternative _ _ bit _ _ hshape hbit hm, w, hw, hspell => by
    have hgrown := h.grown_of_matches hg hm w hw hspell
    obtain ⟨rule, hrule, hr⟩ := Option.map_eq_some_iff.1 hshape
    have hkind : hasNonterminal rule.shape = true := by rw [hr]; rfl
    obtain ⟨s, hs⟩ := h.numbers.exists_lookup hrule (.inr hkind)
    obtain ⟨tree, htree⟩ := h.exists_tree bit hrule [bit]
      (by simp only [contributions, hr]; exact List.mem_map.2 ⟨bit, hbit, rfl⟩) hs
      fun found hfound => hgrown.exists_choice hfound
    exact .inl ⟨s, tree, fun _ => .rule hrule (.inr hkind) hs, htree⟩
  | id, _, .aliasOf hshape hm, w, hw, hspell => by
    rcases h.grown_of_matches hg hm w hw hspell with ⟨s, tree, hr, htree⟩ |
      ⟨k, y, inner, hleads, hinner, hchoice⟩
    · exact .inl ⟨s, tree, fun afterAbsent => .aliasOf hshape (hr afterAbsent), htree⟩
    · exact .inr ⟨k + 1, y, inner, .step (aliasTarget?_eq_some_iff.2 hshape) hleads, hinner,
        hchoice⟩
  | id, _, .plus hshape hbits, w, hw, hspell => by
    have hgrown := h.grownBits_of_matchesBits hg hbits w hw hspell
    obtain ⟨rule, hrule, hr⟩ := Option.map_eq_some_iff.1 hshape
    have hkind : hasNonterminal rule.shape = true := by rw [hr]; rfl
    obtain ⟨s, hs⟩ := h.numbers.exists_lookup hrule (.inr hkind)
    obtain ⟨tree, htree⟩ := h.grown_plus hrule hr hs hgrown
    exact .inl ⟨s, tree, fun _ => .rule hrule (.inr hkind) hs, htree⟩

theorem LowersTo.grownBit_of_matchesBit (h : g.LowersTo symbols l) (hg : g.Sound) :
    ∀ {afterAbsent absent : Bool} {id : RuleId} {names : List String},
    g.MatchesBit afterAbsent id absent names → ∀ w : List Terminal,
    (∀ x ∈ w, l.isTerminal x.1 = true) → l.spell w = names →
    GrownBit g symbols l afterAbsent id absent w
  | _, _, _, _, .leftOut hshape, w, _, hspell => fun fuel _ => by
    obtain rfl := List.map_eq_nil_iff.1 hspell
    exact ⟨none, [], .leftOut hshape, rfl, .nil⟩
  | _, _, _, _, .option hshape hm, w, hw, hspell => fun fuel hno => by
    obtain ⟨fuel, rfl⟩ := exists_fuel hno
    simp only [readings, hshape] at hno
    obtain ⟨r, ts, hr, habsent, hts⟩ := h.grownBit_of_matchesBit hg hm w hw hspell fuel
      fun f hf => hno f (List.mem_cons_of_mem _ hf)
    exact ⟨r, ts, .option hshape hr, habsent, hts⟩
  | _, _, _, _, .absent hshape, w, _, hspell => fun fuel _ => by
    obtain rfl := List.map_eq_nil_iff.1 hspell
    exact ⟨none, [], .absent hshape rfl, rfl, .nil⟩
  | _, _, _, _, .dependent hshape hm, w, hw, hspell => fun fuel hno => by
    obtain ⟨fuel, rfl⟩ := exists_fuel hno
    simp only [readings, hshape, Bool.false_eq_true, if_false] at hno
    obtain ⟨r, ts, hr, habsent, hts⟩ := h.grownBit_of_matchesBit hg hm w hw hspell fuel hno
    exact ⟨r, ts, .dependent hshape rfl hr, habsent, hts⟩
  | _, _, _, _, .aliasOf hshape hm, w, hw, hspell => fun fuel hno => by
    obtain ⟨fuel, rfl⟩ := exists_fuel hno
    simp only [readings, hshape] at hno
    obtain ⟨r, ts, hr, habsent, hts⟩ := h.grownBit_of_matchesBit hg hm w hw hspell fuel hno
    exact ⟨r, ts, .aliasOf hshape hr, habsent, hts⟩
  | afterAbsent, _, _, _, .rule hm, w, hw, hspell =>
    (h.grown_of_matches hg hm w hw hspell).grownBit afterAbsent

theorem LowersTo.grownBits_of_matchesBits (h : g.LowersTo symbols l) (hg : g.Sound) :
    ∀ {afterAbsent : Bool} {bits : List RuleId} {names : List String},
    g.MatchesBits afterAbsent bits names → ∀ w : List Terminal,
    (∀ x ∈ w, l.isTerminal x.1 = true) → l.spell w = names →
    GrownBits g symbols l afterAbsent bits w
  | _, _, _, .nil, w, _, hspell => by
    obtain rfl := List.map_eq_nil_iff.1 hspell
    exact .nil
  | _, _, _, .cons hbit hbits, w, hw, hspell => by
    obtain ⟨u, v, rfl, hu, hv⟩ := List.map_eq_append_iff.1 hspell
    exact .cons
      (h.grownBit_of_matchesBit hg hbit u (fun x hx => hw x (List.mem_append_left _ hx)) hu)
      (h.grownBits_of_matchesBits hg hbits v (fun x hx => hw x (List.mem_append_right _ hx)) hv)

end

end LanguageWorkbench.Grammar
