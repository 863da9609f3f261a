import LanguageWorkbench.Proofs.Ambiguity
import LanguageWorkbench.Proofs.Conflicts
import LanguageWorkbench.Proofs.Serving

/-!
# Ambiguous grammars have conflicts

A grammar with a table has one tree for each word of its start symbol, whichever
symbol that is. So two trees for one word, however large, come down to a conflict in
some state.

Results:
* `Lowered.grows_unique_of_start`: one tree for each word, also for odd start symbols.
* `Table.conflict_of_ambiguous`: ambiguity is refused as a conflict.
-/

namespace LanguageWorkbench

namespace Lowered

variable {g : Lowered} {t : ParseTree} {start : Symbol} {w : List Terminal}

/-- A table leaves the start symbol one tree for each word at most, whatever the start
    symbol and the word are. -/
theorem grows_unique_of_start (hg : g.WellFormed) {table : Table}
    (ht : (Table.build g).result = .ok table)
    (hstart : g.productions[0]? = some ⟨g.accept, [start, endSymbol]⟩) {t' : ParseTree}
    (h : g.Grows t start w) (h' : g.Grows t' start w) : t' = t := by
  by_cases haccept : start = g.accept
  · subst haccept
    exact absurd h (not_grows_accept hg hstart)
  · by_cases hend : start = endSymbol
    · have hleaf : ∀ {t : ParseTree}, g.Grows t start w → ∃ text, t = .leaf start text ∧
          w = [(start, text)] := by
        intro t h
        cases h with
        | leaf => exact ⟨_, rfl, rfl⟩
        | node hp _ => exact absurd (hend ▸ (hg.lhs_bounds hp).1) (Nat.not_le_of_lt hg.end_lt)
      obtain ⟨text, rfl, hw⟩ := hleaf h
      obtain ⟨text', rfl, hw'⟩ := hleaf h'
      rw [hw, List.cons.injEq, Prod.mk.injEq] at hw'
      rw [hw'.1.2]
    · exact grows_unique hg ht hstart (h.ne_end hg ⟨hend, haccept⟩) h h'

end Lowered

namespace Table

open Lowered

/-- Where a word of the start symbol has two trees, the table is refused for a conflict.
    Where a table is built, every word of the start symbol has exactly one tree. -/
theorem conflict_of_ambiguous {g : Lowered} (hg : g.Made) :
    ∃ start, g.productions[0]? = some ⟨g.accept, [start, endSymbol]⟩ ∧
      (∀ w t t', g.Grows t start w → g.Grows t' start w → t ≠ t' →
        ∃ state symbol actions,
          (build g).result = .error (.error (.conflict state symbol actions))) ∧
      ∀ table, (build g).result = .ok table → ∀ w, (∀ x ∈ w, g.isTerminal x.1 = true) →
        g.Derives [start] (w.map Prod.fst) → ∃! t, g.Grows t start w := by
  have hg := hg.wellFormed
  obtain ⟨start, hstart⟩ := hg.start
  refine ⟨start, hstart, fun w t t' h h' hne => ?_, fun table ht w hw hderives => ?_⟩
  · cases hbuild : (build g).result with
    | ok table => exact absurd (grows_unique_of_start hg hbuild hstart h' h) hne
    | error f =>
      obtain ⟨n, c, e, -, -, rfl, -⟩ := build_error hbuild
      exact ⟨_, _, _, rfl⟩
  · obtain ⟨t, h⟩ := (derives_iff_grows hw).1 hderives
    exact ⟨t, h, fun t' h' => grows_unique_of_start hg ht hstart h h'⟩

end Table

/-! ## Sums -/

/-- The grammar of sums that may be read from the left or from the right. -/
def Lowered.sums : Lowered where
  terminals := #["$end", "n", "+"]
  nonterminals := #["$accept", "sum"]
  productions := #[⟨3, [4, endSymbol]⟩, ⟨4, [4, 2, 4]⟩, ⟨4, [1]⟩]
  derivations := #[.plain "$accept", .plain "sum", .plain "sum"]
  warnings := []

theorem Lowered.ofParts_sums : Lowered.ofParts ["$end", "n", "+"] ["$accept", "sum"]
    [("$accept", ["sum", "$end"]), ("sum", ["sum", "+", "sum"]), ("sum", ["n"])] none =
      .ok .sums := rfl

/-- A sum of two trees. -/
theorem Lowered.grows_sums {t t' : ParseTree} {u v : List Terminal} (h : sums.Grows t 4 u)
    (h' : sums.Grows t' 4 v) :
    sums.Grows (.node 1 [t, .leaf 2 "+", t']) 4 (u ++ ((2, "+") :: v)) := by
  have hp : sums.productions[1]? = some ⟨4, [4, 2, 4]⟩ := rfl
  have hplus : sums.Grows (.leaf 2 "+") 2 [(2, "+")] := .leaf rfl
  exact .node hp (.cons h (.cons hplus (growsAll_singleton.2 h')))

/-- Three summands can be added from the left and from the right. -/
theorem Table.conflict_of_sums : ∃ state symbol actions,
    (build .sums).result = .error (.error (.conflict state symbol actions)) := by
  obtain ⟨start, hstart, hconflict, -⟩ :=
    conflict_of_ambiguous (.inr ⟨_, _, _, _, Lowered.ofParts_sums⟩)
  have hrhs : [4, endSymbol] = [start, endSymbol] :=
    congrArg Production.rhs (Option.some.inj hstart)
  obtain rfl : 4 = start := (List.cons.inj hrhs).1
  have hp : Lowered.sums.productions[2]? = some ⟨4, [1]⟩ := rfl
  have hn : Lowered.sums.Grows (.node 2 [.leaf 1 "n"]) 4 [(1, "n")] :=
    .node hp (Lowered.growsAll_singleton.2 (.leaf rfl))
  have hleft := Lowered.grows_sums (Lowered.grows_sums hn hn) hn
  have hright := Lowered.grows_sums hn (Lowered.grows_sums hn hn)
  exact hconflict _ _ _ hleft hright (by simp)

end LanguageWorkbench
