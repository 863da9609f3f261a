import LanguageWorkbench.Proofs.Beginnings
import LanguageWorkbench.Proofs.Serving

/-!
# The tables of first terminals are exact

The rounds over the productions of a grammar end, whatever circles its symbols run in. What
the two tables say then is what derivations show, no more and no less. Symbols that derive
no list of terminals at all have first terminals like any other.

Results:
* `Firsts.saturates_ofLowered`: the rounds end with the tables of the grammar.
* `Firsts.exact_of_made`: what the tables, and the first terminals of a list, say.
-/

namespace LanguageWorkbench

namespace Firsts

/-- One round: what each production says about its left side, in order. -/
def round (g : Lowered) (f : Firsts) : Firsts := g.productions.toList.foldl addProduction f

/-- The rounds end with the tables of the grammar. -/
theorem saturates_ofLowered {g : Lowered} (hg : g.WellFormed) :
    Saturates (round g) (initial g) (ofLowered g) :=
  saturates_of_fixed (within_ofLowered hg).2

theorem mem_nullable_iff {f : Firsts} {s : Symbol} :
    s ∈ f.nullable ↔ f.isNullable [s] = true := by
  rw [isNullable_cons]
  exact (and_iff_left rfl).symm

theorem mem_of_iff {f : Firsts} {s t : Symbol} : t ∈ f.of s ↔ t ∈ f.ofSequence .empty [s] := by
  rw [mem_ofSequence_cons, ofSequence]
  exact (or_iff_left fun h => NatSet.not_mem_empty t h.2).symm

/-- The rounds over the productions of a grammar end. The tables then have a symbol as nullable
    exactly if it derives the empty list, and a terminal as first of a symbol exactly if it
    begins a list that the symbol derives. The first terminals of a list of symbols are those
    that begin what the list derives, and those of what follows it where the list derives the
    empty list. -/
theorem exact_of_made {g : Lowered} (hg : g.Made) :
    Saturates (round g) (initial g) (ofLowered g) ∧
      (∀ s, s ∈ (ofLowered g).nullable ↔ g.Derives [s] []) ∧
      (∀ s t, t ∈ (ofLowered g).of s ↔ g.isTerminal t = true ∧ ∃ rest, g.Derives [s] (t :: rest)) ∧
      ∀ ss follow t, t ∈ (ofLowered g).ofSequence follow ss ↔
        (g.isTerminal t = true ∧ ∃ rest, g.Derives ss (t :: rest)) ∨
          g.Derives ss [] ∧ t ∈ follow := by
  have hwell := hg.wellFormed
  refine ⟨saturates_ofLowered hwell, fun s => ?_, fun s t => ?_, fun ss follow t => ?_⟩
  · rw [mem_nullable_iff, isNullable_iff_derives hwell]
  · rw [mem_of_iff, mem_ofSequence_iff_begins hwell]
    exact or_iff_left fun h => NatSet.not_mem_empty t h.2
  · exact mem_ofSequence_iff_begins hwell

end Firsts

/-! ## Symbols in circles -/

/-- `A` and `B` are left recursive by way of each other and may be empty; `C` is left recursive
    without an end, and a line of `S` goes on with it. -/
def Lowered.circling : Lowered where
  terminals := #["$end", "a", "b", "c"]
  nonterminals := #["$accept", "S", "A", "B", "C"]
  productions := #[⟨4, [5, endSymbol]⟩, ⟨5, [6, 7, 3]⟩, ⟨5, [2, 8]⟩, ⟨6, [7, 1]⟩, ⟨6, []⟩,
    ⟨7, [6, 6]⟩, ⟨8, [8, 2]⟩]
  derivations := #[.plain "$accept", .plain "S", .plain "S", .plain "A", .plain "A", .plain "B",
    .plain "C"]
  warnings := []

theorem Lowered.ofParts_circling :
    Lowered.ofParts ["$end", "a", "b", "c"] ["$accept", "S", "A", "B", "C"]
      [("$accept", ["S", "$end"]), ("S", ["A", "B", "c"]), ("S", ["b", "C"]), ("A", ["B", "a"]),
        ("A", []), ("B", ["A", "A"]), ("C", ["C", "b"])] none = .ok .circling := rfl

/-- `B` derives the empty list, `S` lists that begin with `c` and `b`, and `C` none that begins
    with a terminal. What follows `B` and `A` may be what their list begins with. -/
theorem Firsts.exact_of_made_circling : Lowered.circling.Made ∧
    Lowered.circling.Derives [7] [] ∧
      (∀ t ∈ [1, 2, 3], ∃ rest, Lowered.circling.Derives [5] (t :: rest)) ∧
      (∀ t, ¬ (Lowered.circling.isTerminal t = true ∧
        ∃ rest, Lowered.circling.Derives [8] (t :: rest))) ∧
      (Lowered.circling.Derives [7, 6] [] ∧ ∀ t, t ∈ NatSet.singleton 2 →
        t ∈ (ofLowered .circling).ofSequence (.singleton 2) [7, 6]) := by
  have hmade : Lowered.circling.Made := .inr ⟨_, _, _, _, Lowered.ofParts_circling⟩
  obtain ⟨-, hnullable, hfirst, hlist⟩ := exact_of_made hmade
  have hempty : Lowered.circling.Derives [7] [] := (hnullable 7).1 (by decide +kernel)
  have hboth : Lowered.circling.Derives [7, 6] [] :=
    hempty.append ((hnullable 6).1 (by decide +kernel))
  refine ⟨hmade, hempty, fun t ht => ((hfirst 5 t).1 ?_).2, fun t ht => ?_, hboth,
    fun t ht => (hlist _ _ t).2 (.inr ⟨hboth, ht⟩)⟩
  · revert t
    decide +kernel
  · have hnone : (ofLowered .circling).of 8 = .empty := by decide +kernel
    have hmem := (hfirst 8 t).2 ht
    rw [hnone] at hmem
    exact NatSet.not_mem_empty t hmem

end LanguageWorkbench
