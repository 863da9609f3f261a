import LanguageWorkbench.Proofs.Acceptance
import LanguageWorkbench.Proofs.Resolving
import LanguageWorkbench.Proofs.Serving

/-!
# Automata recognise their grammars

An automaton over a built table takes a word and the end of the input exactly if the
start symbol derives the word. What it leaves on the value stack is the one node that the
tree builder folds from a parse tree of the word.

Results:
* `Lowered.MadeWith`: the two ways to a lowered grammar and the schema of its nodes.
* `Machine.accepts_iff_derives`: soundness and completeness of the automaton.
-/

namespace LanguageWorkbench

/-- The lowered grammar of a loaded grammar text with the kinds of its rules, or one
    given by its parts, without derivations, with the kinds of its names. -/
def Lowered.MadeWith (g : Lowered) (schema : Schema) : Prop :=
  (∃ text grammar, Grammar.load text = .ok grammar ∧ (Lowered.ofGrammar grammar).result = .ok g ∧
      schema = .ofGrammar grammar) ∨
    ∃ terminals nonterminals productions,
      Lowered.ofParts terminals nonterminals productions none = .ok g ∧ schema = .ofLowered g

theorem Lowered.MadeWith.ready {g : Lowered} {schema : Schema} (h : g.MadeWith schema) :
    g.WellFormed ∧ (TreeBuilder.ofLowered g schema).Ready g := by
  rcases h with ⟨text, grammar, hload, hg, rfl⟩ | ⟨terminals, nonterminals, productions, hg, rfl⟩
  · obtain ⟨symbols, hlowers⟩ := Grammar.lowersTo_of_ofGrammar hg
    exact ⟨hlowers.wellFormed, hlowers.ready (Grammar.sound_of_load hload)
      (Grammar.check_of_load hload)⟩
  · exact ⟨Lowered.wellFormed_of_ofParts hg, Lowered.ready_of_ofParts hg⟩

namespace Machine

/-- The automaton takes every terminal of a word and then `$end` exactly if the start
    symbol derives the word. Then its only value is the fold of a parse tree. -/
theorem accepts_iff_derives {g : Lowered} {schema : Schema} {t : Table} (hg : g.MadeWith schema)
    (ht : (Table.build g).result = .ok t) {w : List Terminal}
    (hw : ∀ x ∈ w, g.isTerminal x.1 = true ∧ x.1 ≠ endSymbol) (text : String) (store₀ : Store) :
    ∃ start, g.productions[0]? = some ⟨g.accept, [start, endSymbol]⟩ ∧
      ((∃ a store, feedAll ⟨g, t, .ofLowered g schema⟩ .initial store₀ (w ++ [(endSymbol, text)]) =
          some (a, store)) ↔
        g.Derives [start] (w.map Prod.fst)) ∧
      ∀ a store, feedAll ⟨g, t, .ofLowered g schema⟩ .initial store₀ (w ++ [(endSymbol, text)]) =
          some (a, store) →
        ∃ tree value, g.Grows tree start w ∧
          (TreeBuilder.ofLowered g schema).fold tree store₀ = .ok (value, store) ∧
          a.values = [value] := by
  obtain ⟨hwell, hready⟩ := hg.ready
  obtain ⟨start, hstart⟩ := hwell.start
  have hend : ∀ x ∈ w, x.1 ≠ endSymbol := fun x hx => (hw x hx).2
  have hsound : ∀ a store, feedAll ⟨g, t, .ofLowered g schema⟩ .initial store₀
      (w ++ [(endSymbol, text)]) = some (a, store) →
      ∃ tree value, g.Grows tree start w ∧
        (TreeBuilder.ofLowered g schema).fold tree store₀ = .ok (value, store) ∧
        a.values = [value] := by
    intro a store hfed
    obtain ⟨start', tree, value, hstart', h⟩ := grows_of_feedAll hwell ht hend hfed
    rw [hstart, Option.some.injEq, Production.mk.injEq, List.cons.injEq] at hstart'
    obtain ⟨-, rfl, -⟩ := hstart'
    exact ⟨tree, value, h⟩
  refine ⟨start, hstart, ?_, hsound⟩
  rw [Lowered.derives_iff_grows fun x hx => (hw x hx).1]
  constructor
  · rintro ⟨a, store, hfed⟩
    obtain ⟨tree, -, hgrows, -⟩ := hsound a store hfed
    exact ⟨tree, hgrows⟩
  · rintro ⟨tree, hgrows⟩
    exact feedAll_of_grows hwell ht (serves_of_ready hwell ht hready) hstart hgrows hend text store₀

end Machine

/-! ## Nested pairs -/

/-- The grammar of nested pairs of an `a` and a `b`. -/
def Lowered.nested : Lowered where
  terminals := #["$end", "a", "b"]
  nonterminals := #["$accept", "S"]
  productions := #[⟨3, [4, endSymbol]⟩, ⟨4, [1, 4, 2]⟩, ⟨4, []⟩]
  derivations := #[.plain "$accept", .plain "S", .plain "S"]
  warnings := []

theorem Lowered.ofParts_nested : Lowered.ofParts ["$end", "a", "b"] ["$accept", "S"]
    [("$accept", ["S", "$end"]), ("S", ["a", "S", "b"]), ("S", [])] none = .ok .nested := rfl

theorem Machine.accepts_nested_iff : ∃ t, (Table.build .nested).result = .ok t ∧
    ((∃ a store, feedAll ⟨.nested, t, .ofLowered .nested (.ofLowered .nested)⟩ .initial (.empty 0)
        ([(1, "a"), (2, "b")] ++ [(endSymbol, "")]) = some (a, store)) ↔
      Lowered.nested.Derives [4] [1, 2]) := by
  cases h : (Table.build .nested).result with
  | error f =>
    have : ((Table.build .nested).result.toOption.isSome) = true := by decide +kernel
    rw [h] at this
    cases this
  | ok t =>
    obtain ⟨start, hstart, haccepts, -⟩ :=
      accepts_iff_derives (.inr ⟨_, _, _, Lowered.ofParts_nested, rfl⟩) h
        (w := [(1, "a"), (2, "b")]) (by decide) "" (.empty 0)
    have hrhs : [4, endSymbol] = [start, endSymbol] :=
      congrArg Production.rhs (Option.some.inj hstart)
    obtain rfl : 4 = start := (List.cons.inj hrhs).1
    exact ⟨t, rfl, haccepts⟩

end LanguageWorkbench
