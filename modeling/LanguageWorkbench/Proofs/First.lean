import LanguageWorkbench.Proofs.Derivation
import LanguageWorkbench.Proofs.Saturation
import LanguageWorkbench.Table.First
import Mathlib.Algebra.BigOperators.Group.Finset.Basic
import Mathlib.Algebra.Order.BigOperators.Group.Finset

/-!
# First terminals cover derivations

The rounds of `Firsts.ofLowered` end in tables that every production respects. So
the terminal that begins a derived word is among the first terminals, and a symbol
that derives the empty word is nullable.

Results:
* `Firsts.closed_ofLowered`: the tables of a well-formed grammar are closed.
* `Firsts.Closed.head_mem_ofSequence`: what begins a word that grows from a list of
  symbols, or follows it if it is empty, is among the first terminals of the list.
-/

namespace LanguageWorkbench

/-- The rules for the symbols of a lowered grammar. Production 0 ends the start
    symbol, left sides are nonterminals, and neither `$accept` nor `$end` occurs
    outside production 0. -/
structure Lowered.WellFormed (g : Lowered) : Prop where
  start : ∃ s, g.productions[0]? = some ⟨g.accept, [s, endSymbol]⟩
  end_lt : endSymbol < g.numTerminals
  lhs_bounds : ∀ {p : Nat} {production : Production}, g.productions[p]? = some production →
    g.numTerminals ≤ production.lhs ∧ production.lhs < g.numSymbols
  rhs_lt : ∀ {p : Nat} {production : Production}, g.productions[p]? = some production →
    ∀ s ∈ production.rhs, s < g.numSymbols
  lhs_ne_accept : ∀ {p : Nat} {production : Production}, g.productions[p]? = some production →
    p ≠ 0 → production.lhs ≠ g.accept
  rhs_ne : ∀ {p : Nat} {production : Production}, g.productions[p]? = some production →
    p ≠ 0 → ∀ s ∈ production.rhs, s ≠ endSymbol ∧ s ≠ g.accept

namespace Firsts

/-- Tables that every production respects. -/
structure Closed (f : Firsts) (g : Lowered) : Prop where
  terminal : ∀ s, g.isTerminal s = true → s ∈ f.of s
  nullable : ∀ {p : Nat} {production : Production}, g.productions[p]? = some production →
    f.isNullable production.rhs = true → production.lhs ∈ f.nullable
  first : ∀ {p : Nat} {production : Production}, g.productions[p]? = some production →
    (f.ofSequence .empty production.rhs).Subset (f.of production.lhs)

/-! ## Lists of symbols -/

theorem isNullable_cons {f : Firsts} {s : Symbol} {ss : List Symbol} :
    f.isNullable (s :: ss) = true ↔ s ∈ f.nullable ∧ f.isNullable ss = true := by
  simp [isNullable, NatSet.mem_def, NatSet.contains]

theorem ofSequence_mono (f : Firsts) {a b : NatSet} (h : a.Subset b) (ss : List Symbol) :
    (f.ofSequence a ss).Subset (f.ofSequence b ss) := by
  induction ss with
  | nil => exact h
  | cons s ss ih =>
    intro n hn
    simp only [ofSequence] at hn ⊢
    split_ifs at hn ⊢ with hs
    · exact NatSet.mem_union.2 ((NatSet.mem_union.1 hn).imp_right (ih n))
    · exact hn

theorem subset_ofSequence_of_isNullable {f : Firsts} (follow : NatSet) {ss : List Symbol}
    (h : f.isNullable ss = true) : follow.Subset (f.ofSequence follow ss) := by
  induction ss with
  | nil => exact fun n hn => hn
  | cons s ss ih =>
    rw [isNullable_cons] at h
    intro n hn
    simp only [ofSequence, if_pos h.1]
    exact NatSet.mem_union.2 (.inr (ih h.2 n hn))

theorem mem_ofSequence_cons {f : Firsts} {follow : NatSet} {s : Symbol} {ss : List Symbol}
    {n : Nat} :
    n ∈ f.ofSequence follow (s :: ss) ↔
      n ∈ f.of s ∨ s ∈ f.nullable ∧ n ∈ f.ofSequence follow ss := by
  simp only [ofSequence]
  split_ifs with hs
  · rw [NatSet.mem_union]; tauto
  · tauto

/-! ## Closed tables cover what grows -/

mutual

theorem Closed.of_grows {f : Firsts} {g : Lowered} (hf : f.Closed g) {t : ParseTree} {s : Symbol}
    {w : List Terminal} : g.Grows t s w →
      (w = [] → s ∈ f.nullable) ∧ ∀ x v, w = x :: v → x.1 ∈ f.of s
  | .leaf h => by
    refine ⟨fun he => absurd he (List.cons_ne_nil _ _), fun x v he => ?_⟩
    cases he
    exact hf.terminal _ h
  | .node h hs => by
    have ih := hf.of_growsAll hs
    refine ⟨fun he => hf.nullable h (ih.1 he), fun x v he => hf.first h _ (ih.2 x v he)⟩

theorem Closed.of_growsAll {f : Firsts} {g : Lowered} (hf : f.Closed g) {ts : List ParseTree}
    {ss : List Symbol} {w : List Terminal} : g.GrowsAll ts ss w →
      (w = [] → f.isNullable ss = true) ∧
        ∀ x v, w = x :: v → x.1 ∈ f.ofSequence .empty ss
  | .nil => ⟨fun _ => rfl, fun x v he => absurd he.symm (List.cons_ne_nil _ _)⟩
  | .cons (u := u) (v := v) h hs => by
    have ih := hf.of_grows h
    have ih' := hf.of_growsAll hs
    refine ⟨fun he => ?_, fun x r he => ?_⟩
    · obtain ⟨rfl, rfl⟩ := List.append_eq_nil_iff.1 he
      exact isNullable_cons.2 ⟨ih.1 rfl, ih'.1 rfl⟩
    · rw [mem_ofSequence_cons]
      cases u with
      | nil => exact .inr ⟨ih.1 rfl, ih'.2 x r he⟩
      | cons y u =>
        simp only [List.cons_append, List.cons.injEq] at he
        exact .inl (he.1 ▸ ih.2 y u rfl)

end

/-- What begins a word that grows from a list of symbols, or follows it if it is
    empty, is among the first terminals of the list. -/
theorem Closed.head_mem_ofSequence {f : Firsts} {g : Lowered} (hf : f.Closed g)
    {ts : List ParseTree} {ss : List Symbol} {w rest : List Terminal} {x y : Terminal}
    {v : List Terminal} {follow : NatSet} (h : g.GrowsAll ts ss w) (hx : x.1 ∈ follow)
    (hy : w ++ x :: rest = y :: v) : y.1 ∈ f.ofSequence follow ss := by
  have hw := hf.of_growsAll h
  cases w with
  | nil =>
    simp only [List.nil_append, List.cons.injEq] at hy
    exact subset_ofSequence_of_isNullable follow (hw.1 rfl) _ (hy.1 ▸ hx)
  | cons z w =>
    simp only [List.cons_append, List.cons.injEq] at hy
    exact ofSequence_mono f (fun n hn => absurd hn (NatSet.not_mem_empty n)) ss _
      (hy.1 ▸ hw.2 z w rfl)

/-! ## The rounds end in closed tables -/

/-- One table covers another of the same shape. -/
structure Covers (f f' : Firsts) : Prop where
  nullable : f.nullable.Subset f'.nullable
  first : ∀ s, (f.of s).Subset (f'.of s)
  length : f'.first.length = f.first.length

theorem Covers.refl (f : Firsts) : f.Covers f := ⟨fun _ h => h, fun _ _ h => h, rfl⟩

theorem Covers.trans {a b c : Firsts} (h : a.Covers b) (h' : b.Covers c) : a.Covers c :=
  ⟨fun n hn => h'.nullable n (h.nullable n hn), fun s n hn => h'.first s n (h.first s n hn),
    h'.length.trans h.length⟩

theorem of_eq_getElem {f : Firsts} {s : Nat} (h : s < f.first.length) : f.of s = f.first[s] := by
  simp [of, h]

theorem Covers.antisymm {f f' : Firsts} (h : f.Covers f') (h' : f'.Covers f) : f = f' := by
  cases f with | mk nullable first => ?_
  cases f' with | mk nullable' first' => ?_
  have hn : nullable = nullable' := NatSet.ext fun n => ⟨h.nullable n, h'.nullable n⟩
  have hfirst : first = first' := by
    refine List.ext_getElem h'.length fun s hs hs' => ?_
    have he := of_eq_getElem (f := ⟨nullable, first⟩) hs
    have he' := of_eq_getElem (f := ⟨nullable', first'⟩) hs'
    simp only at he he'
    rw [← he, ← he']
    exact NatSet.ext fun n => ⟨h.first s n, h'.first s n⟩
  rw [hn, hfirst]

theorem of_addProduction (f : Firsts) (p : Production) (s : Symbol) :
    (f.addProduction p).of s =
      if p.lhs = s ∧ s < f.first.length then (f.of s).union (f.ofSequence .empty p.rhs)
      else f.of s := by
  simp only [of, addProduction, List.getElem?_modify]
  by_cases hs : s < f.first.length
  · by_cases hp : p.lhs = s <;> simp [hs, hp]
  · simp [hs]

theorem covers_addProduction (f : Firsts) (p : Production) : f.Covers (f.addProduction p) where
  nullable n hn := by
    simp only [addProduction]
    split_ifs
    · exact NatSet.mem_insert.2 (.inl hn)
    · exact hn
  first s n hn := by
    rw [of_addProduction]
    split_ifs
    · exact NatSet.mem_union.2 (.inl hn)
    · exact hn
  length := by simp [addProduction]

theorem covers_foldl_addProduction (ps : List Production) (f : Firsts) :
    f.Covers (ps.foldl addProduction f) := by
  induction ps generalizing f with
  | nil => exact .refl f
  | cons p ps ih => exact (covers_addProduction f p).trans (ih _)

/-- A round that changes nothing does not change anything on the way. -/
theorem addProduction_eq_of_foldl_eq {ps : List Production} {f : Firsts}
    (h : ps.foldl addProduction f = f) : ∀ p ∈ ps, f.addProduction p = f := by
  induction ps with
  | nil => intro p hp; cases hp
  | cons q ps ih =>
    have hq : f.addProduction q = f := by
      refine Covers.antisymm ?_ (covers_addProduction f q)
      have := covers_foldl_addProduction ps (f.addProduction q)
      rwa [← List.foldl_cons, h] at this
    intro p hp
    rcases List.mem_cons.1 hp with rfl | hp
    · exact hq
    · rw [List.foldl_cons, hq] at h
      exact ih h p hp

/-- Tables within the bounds of a grammar. -/
structure Within (f : Firsts) (g : Lowered) : Prop where
  nullable : f.nullable.Below g.numSymbols
  first : ∀ s, (f.of s).Below g.numTerminals
  length : f.first.length = g.numSymbols
  terminal : ∀ s, g.isTerminal s = true → s ∈ f.of s

theorem below_ofSequence {f : Firsts} {bound : Nat} (h : ∀ s, (f.of s).Below bound)
    {follow : NatSet} (hf : follow.Below bound) (ss : List Symbol) :
    (f.ofSequence follow ss).Below bound := by
  induction ss with
  | nil => exact hf
  | cons s ss ih =>
    simp only [ofSequence]
    split_ifs
    · exact (h s).union ih
    · exact h s

theorem within_initial (g : Lowered) : (initial g).Within g := by
  have hof : ∀ s : Nat, (initial g).of s =
      if s < g.numTerminals then NatSet.singleton s else NatSet.empty := by
    intro s
    by_cases hs : s < g.numSymbols
    · simp [of, initial, Lowered.isTerminal, hs]
    · have : ¬ s < g.numTerminals := by
        unfold Lowered.numSymbols at hs
        unfold Lowered.numTerminals
        omega
      simp [of, initial, hs, this]
  refine ⟨NatSet.below_empty _, fun s => ?_, by simp [initial], fun s hs => ?_⟩
  · rw [hof]
    split_ifs with hs
    · exact NatSet.below_singleton hs
    · exact NatSet.below_empty _
  · rw [hof, if_pos (by simpa [Lowered.isTerminal] using hs)]
    exact NatSet.mem_singleton.2 rfl

theorem Within.addProduction {f : Firsts} {g : Lowered} (h : f.Within g) {p : Production}
    (hp : p.lhs < g.numSymbols) : (f.addProduction p).Within g := by
  refine ⟨?_, fun s => ?_, ?_, fun s hs => ?_⟩
  · simp only [Firsts.addProduction]
    split_ifs
    · exact h.nullable.union (NatSet.below_singleton hp)
    · exact h.nullable
  · rw [of_addProduction]
    split_ifs
    · exact (h.first s).union (below_ofSequence h.first (NatSet.below_empty _) _)
    · exact h.first s
  · rw [(covers_addProduction f p).length, h.length]
  · exact (covers_addProduction f p).first s s (h.terminal s hs)

theorem Within.foldl_addProduction {g : Lowered} {ps : List Production}
    (hps : ∀ p ∈ ps, p.lhs < g.numSymbols) {f : Firsts} (h : f.Within g) :
    (ps.foldl Firsts.addProduction f).Within g := by
  induction ps generalizing f with
  | nil => exact h
  | cons p ps ih =>
    exact ih (fun q hq => hps q (List.mem_cons_of_mem p hq))
      (h.addProduction (hps p List.mem_cons_self))

/-- How many entries the tables have. -/
def size (f : Firsts) (g : Lowered) : Nat :=
  f.nullable.count g.numSymbols +
    ∑ s ∈ Finset.range g.numSymbols, (f.of s).count g.numTerminals

theorem size_le (f : Firsts) (g : Lowered) : f.size g ≤ g.numSymbols * (g.numTerminals + 1) := by
  have h : ∑ s ∈ Finset.range g.numSymbols, (f.of s).count g.numTerminals ≤
      ∑ _s ∈ Finset.range g.numSymbols, g.numTerminals :=
    Finset.sum_le_sum fun s _ => NatSet.count_le _ _
  rw [Finset.sum_const, Finset.card_range, Nat.nsmul_eq_mul] at h
  have := f.nullable.count_le g.numSymbols
  rw [size, Nat.mul_add, Nat.mul_one]
  omega

theorem Covers.size_lt {f f' : Firsts} {g : Lowered} (h : f.Covers f') (hf : f'.Within g)
    (hne : f' ≠ f) : f.size g < f'.size g := by
  have hfirst : ∀ s ∈ Finset.range g.numSymbols,
      (f.of s).count g.numTerminals ≤ (f'.of s).count g.numTerminals :=
    fun s _ => (h.first s).count_le _
  have hnullable := h.nullable.count_le g.numSymbols
  by_cases hn : f'.nullable = f.nullable
  · obtain ⟨s, hs, hlt⟩ : ∃ s ∈ Finset.range g.numSymbols,
        (f.of s).count g.numTerminals < (f'.of s).count g.numTerminals := by
      by_contra hall
      push Not at hall
      refine hne (Covers.antisymm ⟨fun n hn' => hn ▸ hn', fun s => ?_, h.length.symm⟩ h)
      by_cases hs : s < g.numSymbols
      · have heq : f'.of s = f.of s := by
          by_contra hne'
          have := (h.first s).count_lt (hf.first s) hne'
          have := hall s (Finset.mem_range.2 hs)
          omega
        exact fun n hn' => heq ▸ hn'
      · intro n hn'
        rw [← hf.length] at hs
        simp [of, hs] at hn'
    have := Finset.sum_lt_sum hfirst ⟨s, hs, hlt⟩
    simp only [size]
    omega
  · have := h.nullable.count_lt hf.nullable hn
    have := Finset.sum_le_sum hfirst
    simp only [size]
    omega

/-- The tables of a well-formed grammar are within its bounds, and one more round
    changes nothing. -/
theorem within_ofLowered {g : Lowered} (hg : g.WellFormed) :
    (ofLowered g).Within g ∧
      g.productions.toList.foldl addProduction (ofLowered g) = ofLowered g := by
  have hlhs : ∀ p ∈ g.productions.toList, p.lhs < g.numSymbols := by
    intro p hp
    obtain ⟨i, hi, rfl⟩ := List.getElem_of_mem hp
    exact (hg.lhs_bounds (Array.getElem?_eq_getElem hi)).2
  have hstep : ∀ f : Firsts, f.Within g → (g.productions.toList.foldl addProduction f).Within g :=
    fun f hf => hf.foldl_addProduction hlhs
  refine ⟨saturate_induction hstep _ _ (within_initial g), ?_⟩
  exact saturate_fixed (size · g) (within_initial g) hstep
    (fun f hf hne => (covers_foldl_addProduction _ f).size_lt (hstep f hf) hne)
    (fun f _ => size_le f g) (Nat.lt_succ_self _)

/-- The tables of a well-formed grammar are closed. -/
theorem closed_ofLowered {g : Lowered} (hg : g.WellFormed) : (ofLowered g).Closed g := by
  obtain ⟨hin, hfix⟩ := within_ofLowered hg
  have hadd : ∀ {p : Nat} {production : Production}, g.productions[p]? = some production →
      (ofLowered g).addProduction production = ofLowered g := by
    intro p production hp
    refine addProduction_eq_of_foldl_eq hfix production ?_
    exact Array.mem_toList_iff.2 (Array.mem_of_getElem? hp)
  refine ⟨hin.terminal, fun {p production} hp hnull => ?_, fun {p production} hp n hn => ?_⟩
  · have := congrArg Firsts.nullable (hadd hp)
    rw [addProduction, if_pos hnull] at this
    rw [← this]
    exact NatSet.mem_insert.2 (.inr rfl)
  · have := congrArg (Firsts.of · production.lhs) (hadd hp)
    simp only [of_addProduction, hin.length, (hg.lhs_bounds hp).2, and_self, if_true] at this
    rw [← this]
    exact NatSet.mem_union.2 (.inr hn)

end Firsts

end LanguageWorkbench
