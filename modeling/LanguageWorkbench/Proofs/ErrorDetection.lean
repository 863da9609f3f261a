import LanguageWorkbench.Proofs.Atomicity
import LanguageWorkbench.Proofs.Recognition
import LanguageWorkbench.Proofs.ViablePrefixes

/-!
# Errors are found at the first possible terminal

Where every nonterminal derives some word, an automaton over a built table takes a
terminal exactly if some sentence goes on with it. A terminal that is not taken is thus
the first that no sentence has there.

A start symbol `$end` is an exception: its only sentence is `$end`, which no table
shifts.

Results:
* `Machine.viable_of_action`: what a state does not reject leads to a sentence.
* `Machine.feed_of_viable`: what leads to a sentence is taken.
* `Machine.feed_iff_viable`: the two together.
-/

namespace LanguageWorkbench

namespace Machine

variable {g : Lowered} {t : Table} {b : TreeBuilder} {start : Symbol} {w : List Terminal}
  {a : Automaton} {store₀ store : Store} {x : Symbol}

/-! ## What was fed -/

theorem Balanced.feedAll {m : Machine} (hm : m.table.Bounded m.grammar) {a' : Automaton}
    {store' : Store} (ha : m.Balanced a) (h : m.feedAll a store w = some (a', store')) :
    m.Balanced a' := by
  induction w generalizing a store with
  | nil =>
    obtain ⟨rfl, -⟩ : a = a' ∧ store = store' := by simpa [Machine.feedAll] using h
    exact ha
  | cons y w ih =>
    have hfed := outcome_of_feedAll h
    rw [feedAll_cons hfed] at h
    exact ih (ha.feed hm hfed) h

/-- What was fed is stacked. -/
theorem stacked_of_feedAll (hg : g.WellFormed) (ht : (Table.build g).result = .ok t)
    (hw : ∀ y ∈ w, y.1 ≠ endSymbol)
    (h : feedAll ⟨g, t, b⟩ .initial store₀ w = some (a, store)) :
    ∃ trees ss, Table.Stacked g a.states trees ss w := by
  have hnone : Machine.Carries ⟨g, t, b⟩ store₀ .initial store₀ [] := rfl
  obtain ⟨trees, hsteps, -⟩ := steps_of_feedAll ht [] hw hnone h
  obtain ⟨ss, w', hstacked, heq⟩ := Table.Stacked.steps hg ht hsteps .bottom
  obtain rfl : w = w' := by simpa using heq
  exact ⟨trees, ss, hstacked⟩

/-! ## From actions to sentences -/

/-- What a state does not reject, some sentence has there. -/
theorem viable_of_action (hg : g.WellFormed) (ht : (Table.build g).result = .ok t)
    (hproductive : g.Productive)
    (hstart : g.productions[0]? = some ⟨g.accept, [start, endSymbol]⟩) {top : Nat}
    {below : List Nat} {trees : List ParseTree} {ss : List Symbol}
    (h : Table.Stacked g (top :: below) trees ss w) {action : Action}
    (haction : t.action top x = .ok action) (hne : action ≠ .error)
    (hx : g.isTerminal x = true) : g.Viable start (w.map Prod.fst ++ [x]) := by
  -- a terminal after a dot follows what is stacked
  have hnext : ∀ {i : Item}, (Collection.items g top).Has i → i.next? g = some x →
      ∃ rest, g.Derives [g.accept] (ss.reverse ++ ([x] ++ rest)) := by
    intro i hi hx
    obtain ⟨after, hafter⟩ := (h.supports hg (c := (i, none)) hi).derives
    obtain ⟨rest, hrest⟩ : ∃ rest, i.rest g = x :: rest := by
      rw [Item.next?, List.head?_eq_some_iff] at hx
      exact hx
    rw [hrest] at hafter
    exact ⟨rest ++ after, by simpa using hafter⟩
  obtain ⟨rest, hrest⟩ : ∃ rest, g.Derives [g.accept] (ss.reverse ++ ([x] ++ rest)) := by
    cases action with
    | error => exact absurd rfl hne
    | shift next =>
      obtain ⟨-, htarget⟩ := (Table.action_shift_iff hg ht).1 haction
      obtain ⟨-, -, i, hi, hnext'⟩ :=
        ItemSet.mem_nextSymbols.1 (Collection.target?_spec hg htarget).1
      exact hnext hi hnext'
    | accept =>
      obtain ⟨rfl, hi⟩ := (Table.action_accept_iff ht).1 haction
      exact hnext hi (by simp [Item.next?, Item.rest, Lowered.rhsOf_eq hstart])
    | reduce p =>
      -- a lookahead follows what is stacked once the item is complete
      obtain ⟨-, hlooks⟩ := (Table.action_reduce_iff hg ht).1 haction
      obtain ⟨after, hafter⟩ := (h.supports hg (c := (_, some x)) hlooks).derives
      exact ⟨after, by simpa [Item.rest] using hafter⟩
  have hread : g.Derives ss.reverse (w.map Prod.fst) := h.growsAll.derives
  have hall : g.Derives [g.accept] ((w.map Prod.fst ++ [x]) ++ rest) := by
    rw [List.append_assoc]
    exact Relation.ReflTransGen.trans hrest (hread.append .refl)
  refine Lowered.viable_of_derives hg hproductive hstart (fun s hs => ?_) hall
  rcases List.mem_append.1 hs with hs | hs
  · obtain ⟨y, hy, rfl⟩ := List.mem_map.1 hs
    exact h.growsAll.isTerminal y hy
  · exact List.mem_singleton.1 hs ▸ hx

/-- A check of a terminal that the state on top rejects says no at once. -/
theorem check_of_error {m : Machine} {top : Nat} {below : List Nat} (hs : a.states = top :: below)
    (haction : m.table.action top x = .ok .error) : m.check a x = .ok false := by
  have hpos : 0 < m.bound a.states.length :=
    Nat.mul_pos (Nat.succ_pos _) (Nat.pow_pos (Nat.succ_pos _))
  obtain ⟨fuel, hfuel⟩ := Nat.exists_eq_succ_of_ne_zero hpos.ne'
  rw [check_eq (by simp [hs]), hfuel, hs]
  simp [checkStack, haction, bind, Except.bind, pure, Except.pure]

/-! ## From sentences to runs -/

/-- A terminal that some sentence has next is taken. -/
theorem feed_of_viable (hg : g.WellFormed) (ht : (Table.build g).result = .ok t)
    (hm : Machine.Serves ⟨g, t, b⟩)
    (hstart : g.productions[0]? = some ⟨g.accept, [start, endSymbol]⟩) (hne : start ≠ endSymbol)
    (hfed : feedAll ⟨g, t, b⟩ .initial store₀ w = some (a, store)) (text : String)
    (hviable : g.Viable start (w.map Prod.fst ++ [x])) :
    (feed ⟨g, t, b⟩ a store x text).outcome = .ok true := by
  obtain ⟨u, hu, hderives, rest, hrest⟩ := hviable
  -- the sentence and its end, with the texts that are fed
  have hmap : (w ++ (x, text) :: rest.map (·, "")).map Prod.fst = u ++ [endSymbol] := by
    rw [← hrest]
    simp [Function.comp_def]
  obtain ⟨sentence, last, hinput, rfl, hlast⟩ := List.map_eq_append_iff.1 hmap
  obtain ⟨⟨_, endText⟩, rfl, rfl⟩ := List.map_eq_singleton_iff.1 hlast
  have hterminal : ∀ y ∈ sentence, g.isTerminal y.1 = true :=
    fun y hy => hu y.1 (List.mem_map.2 ⟨y, hy, rfl⟩)
  obtain ⟨tree, hgrows⟩ := (Lowered.derives_iff_grows hterminal).1 hderives
  have haccept : start ≠ g.accept := by
    rintro rfl
    exact Lowered.not_grows_accept hg hstart hgrows
  obtain ⟨a', store', hall⟩ := feedAll_of_grows hg ht hm hstart hgrows
    (hgrows.ne_end hg ⟨hne, haccept⟩) endText store₀
  rw [← hinput, feedAll_append, hfed, Option.bind_some] at hall
  exact outcome_of_feedAll hall

/-! ## The main result -/

/-- Where every nonterminal derives a word, and the start symbol is not `$end`, feeding a
    terminal always ends, and it takes the terminal exactly if what was fed and the
    terminal begin a sentence with its end. -/
theorem feed_iff_viable {schema : Schema} (hg : g.MadeWith schema)
    (ht : (Table.build g).result = .ok t) (hproductive : g.Productive)
    (hstart : g.productions[0]? = some ⟨g.accept, [start, endSymbol]⟩) (hne : start ≠ endSymbol)
    (hw : ∀ y ∈ w, g.isTerminal y.1 = true ∧ y.1 ≠ endSymbol)
    (hfed : feedAll ⟨g, t, .ofLowered g schema⟩ .initial store₀ w = some (a, store))
    (hx : g.isTerminal x = true) (text : String) :
    ∃ taken, (feed ⟨g, t, .ofLowered g schema⟩ a store x text).outcome = .ok taken ∧
      (taken = true ↔ g.Viable start (w.map Prod.fst ++ [x])) := by
  obtain ⟨hwell, hready⟩ := hg.ready
  have hbounded := Table.bounded_of_build hwell ht
  have hserves := serves_of_ready hwell ht hready
  have hbalanced : Machine.Balanced ⟨g, t, .ofLowered g schema⟩ a :=
    Balanced.feedAll hbounded (balanced_initial hbounded) hfed
  obtain ⟨trees, ss, hstacked⟩ := stacked_of_feedAll hwell ht (fun y hy => (hw y hy).2) hfed
  obtain ⟨top, below, hstates⟩ := List.exists_cons_of_ne_nil hbalanced.ne_nil
  obtain ⟨action, haction⟩ := Table.exists_action
    (hbalanced.lt top (hstates ▸ List.mem_cons_self)) x
  rw [hstates] at hstacked
  by_cases herror : action = .error
  · -- the state on top rejects the terminal at once
    subst herror
    have hcheck : check ⟨g, t, .ofLowered g schema⟩ a x = .ok false :=
      check_of_error hstates haction
    have hfeed := feed_of_check_false store text hcheck
    refine ⟨false, by rw [hfeed], by simp, fun hviable => ?_⟩
    have := feed_of_viable hwell ht hserves hstart hne hfed text hviable
    rw [hfeed] at this
    cases this
  · have hviable := viable_of_action hwell ht hproductive hstart hstacked haction herror hx
    exact ⟨true, feed_of_viable hwell ht hserves hstart hne hfed text hviable,
      iff_of_true rfl hviable⟩

end Machine

/-! ## A start symbol without a table entry -/

/-- The grammar whose only sentence is `$end`. -/
def Lowered.onlyEnd : Lowered where
  terminals := #["$end"]
  nonterminals := #["$accept"]
  productions := #[⟨1, [endSymbol, endSymbol]⟩]
  derivations := #[.plain "$accept"]
  warnings := []

theorem Lowered.productive_onlyEnd : Lowered.onlyEnd.Productive := by
  intro s hs hlt
  have hp : Lowered.onlyEnd.productions[0]? = some ⟨1, [endSymbol, endSymbol]⟩ := rfl
  obtain rfl : s = 1 := by
    simp only [Lowered.isTerminal, decide_eq_false_iff_not, Nat.not_lt] at hs
    exact Nat.le_antisymm (Nat.le_of_lt_succ hlt) hs
  exact ⟨[endSymbol, endSymbol], by decide, Lowered.derives_production hp⟩

/-- Its table has one state without entries, so the automaton does not take `$end`
    although the sentence begins with it. -/
theorem Machine.not_feed_iff_viable_onlyEnd :
    Lowered.ofParts ["$end"] ["$accept"] [("$accept", ["$end", "$end"])] none = .ok .onlyEnd ∧
      (Table.build .onlyEnd).result = .ok ⟨#[⟨.error, [], []⟩]⟩ ∧ Lowered.onlyEnd.Productive ∧
      Lowered.onlyEnd.productions[0]? = some ⟨Lowered.onlyEnd.accept, [endSymbol, endSymbol]⟩ ∧
      ¬ ((feed ⟨.onlyEnd, ⟨#[⟨.error, [], []⟩]⟩, .ofLowered .onlyEnd (.ofLowered .onlyEnd)⟩
          .initial (.empty 0) endSymbol "$end").outcome = .ok true ↔
        Lowered.onlyEnd.Viable endSymbol [endSymbol]) := by
  refine ⟨rfl, ?_, Lowered.productive_onlyEnd, rfl, fun h => ?_⟩
  · rfl
  · have hfed := h.2 ⟨[endSymbol], by decide, .refl, [endSymbol], rfl⟩
    revert hfed
    decide +kernel

/-! ## Nested pairs -/

theorem Lowered.productive_nested : Lowered.nested.Productive := by
  intro s hs hlt
  have hstart : Lowered.nested.productions[0]? = some ⟨3, [4, endSymbol]⟩ := rfl
  have hempty : Lowered.nested.productions[2]? = some ⟨4, []⟩ := rfl
  have hderives : Lowered.nested.Derives [4] [] := Lowered.derives_production hempty
  obtain rfl | rfl : s = 3 ∨ s = 4 := by
    simp only [Lowered.isTerminal, decide_eq_false_iff_not, Nat.not_lt] at hs
    rcases Nat.lt_or_ge 3 s with h | h
    · exact .inr (Nat.le_antisymm (Nat.le_of_lt_succ hlt) h)
    · exact .inl (Nat.le_antisymm h hs)
  · refine ⟨[endSymbol], by decide, (Lowered.derives_production hstart).trans ?_⟩
    exact hderives.append (Relation.ReflTransGen.refl (a := [endSymbol]))
  · exact ⟨[], by decide, hderives⟩

/-- After an `a`, another one is taken, since some sentence goes on with it. -/
theorem Machine.feed_iff_viable_nested : ∃ t, (Table.build .nested).result = .ok t ∧
    ∃ a store, feedAll ⟨.nested, t, .ofLowered .nested (.ofLowered .nested)⟩ .initial (.empty 0)
        [(1, "a")] = some (a, store) ∧
      ∃ taken, (feed ⟨.nested, t, .ofLowered .nested (.ofLowered .nested)⟩ a store 1 "a").outcome =
          .ok taken ∧ (taken = true ↔ Lowered.nested.Viable 4 [1, 1]) := by
  have hfeeds : ((Table.build .nested).result.toOption.bind fun t =>
      feedAll ⟨.nested, t, .ofLowered .nested (.ofLowered .nested)⟩ .initial (.empty 0)
        [(1, "a")]).isSome = true := by decide +kernel
  cases h : (Table.build .nested).result with
  | error f =>
    rw [h] at hfeeds
    cases hfeeds
  | ok t =>
    rw [h] at hfeeds
    obtain ⟨⟨a, store⟩, hfed⟩ := Option.isSome_iff_exists.1 hfeeds
    exact ⟨t, rfl, a, store, hfed, feed_iff_viable (.inr ⟨_, _, _, Lowered.ofParts_nested, rfl⟩) h
      Lowered.productive_nested rfl (by decide) (by decide) hfed rfl "a"⟩

end LanguageWorkbench
