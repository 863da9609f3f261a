import LanguageWorkbench.Proofs.TreeRuns

/-!
# One tree for each word

A table runs through every parse tree of its start symbol. Since it runs in one way only,
a grammar with a table has no two trees for one word.

Results:
* `Lowered.grows_unique`: the start symbol has one tree for each word at most.
* `Lowered.Sole`: trees that are the only ones for their word.
* `Lowered.Sole.not_loop`: such a tree has no symbol that is its own right side.
-/

namespace LanguageWorkbench.Lowered

variable {g : Lowered} {t : ParseTree} {ts : List ParseTree} {s : Symbol} {ss : List Symbol}
variable {u v w : List Terminal}

/-- A table leaves the start symbol one tree for each word at most. -/
theorem grows_unique (hg : g.WellFormed) {table : Table} (ht : (Table.build g).result = .ok table)
    {start : Symbol} (hstart : g.productions[0]? = some ⟨g.accept, [start, endSymbol]⟩)
    {t' : ParseTree} (hw : ∀ x ∈ w, x.1 ≠ endSymbol) (h : g.Grows t start w)
    (h' : g.Grows t' start w) : t' = t := by
  obtain ⟨n, hsteps, haction⟩ := Table.steps_start hg ht hstart h hw ""
  obtain ⟨n', hsteps', haction'⟩ := Table.steps_start hg ht hstart h' hw ""
  have heq := hsteps'.unique hsteps (by simp [Table.step, haction']) (by simp [Table.step, haction])
  exact (List.cons.inj (congrArg Configuration.trees heq)).1

/-- The trees are the only ones that grow from the symbols to the word. -/
def Sole (g : Lowered) (ts : List ParseTree) (ss : List Symbol) (w : List Terminal) : Prop :=
  ∀ us, g.GrowsAll us ss w → us = ts

theorem sole_singleton (h : ∀ t', g.Grows t' s w → t' = t) : g.Sole [t] [s] w := by
  intro us hus
  obtain ⟨t', rfl⟩ := List.length_eq_one_iff.1 hus.length_eq
  rw [h t' (growsAll_singleton.1 hus)]

theorem Sole.children {p : Nat} {production : Production}
    (h : g.Sole [.node p ts] [production.lhs] w) (hp : g.productions[p]? = some production) :
    g.Sole ts production.rhs w := by
  intro us hus
  have := h _ (growsAll_singleton.2 (.node hp hus))
  simpa using this

theorem Sole.head (h : g.Sole (t :: ts) (s :: ss) (u ++ v)) (hts : g.GrowsAll ts ss v) :
    g.Sole [t] [s] u := by
  intro us hus
  exact List.append_cancel_right (h _ (hus.append hts))

theorem Sole.tail (h : g.Sole (t :: ts) (s :: ss) (u ++ v)) (ht : g.Grows t s u) :
    g.Sole ts ss v := by
  intro us hus
  exact (List.cons.inj (h _ (.cons ht hus))).2

/-- A symbol that is its own right side would give a second tree. -/
theorem Sole.not_loop (h : g.Sole [t] [s] w) (ht : g.Grows t s w) :
    ⟨s, [s]⟩ ∉ g.productions := by
  intro hmem
  obtain ⟨p, hp⟩ := Array.mem_iff_getElem?.1 hmem
  have heq := h _ (growsAll_singleton.2 (.node hp (growsAll_singleton.2 ht)))
  have hsize := congrArg sizeOf (List.cons.inj heq).1
  simp at hsize
  omega

end LanguageWorkbench.Lowered
