import LanguageWorkbench.Proofs.Beginnings
import LanguageWorkbench.Proofs.TreeRuns

/-!
# Viable prefixes

Every item of a set on the stack has a reason: a derivation from `$accept` that has
reached what is stacked, and goes on with the rest of the item and then with its
lookahead. So where all nonterminals derive words, whatever a set dictates to do for a
terminal leads on to a sentence.

Results:
* `Lowered.Supports`: the derivations that items stand for.
* `Table.Stacked.supports`: the items of the state on top are supported by the stack.
* `Lowered.viable_of_derives`: what begins a sentential form begins a sentence.
-/

namespace LanguageWorkbench

namespace Lowered

variable {g : Lowered} {γ : List Symbol} {i : Item} {o : Option Symbol} {x : Symbol}

/-! ## Supported items -/

/-- A derivation has reached the symbols `γ` in the middle of the right side of the
    item, at its dot, and its lookahead, if any, follows the left side. -/
def Supports (g : Lowered) (γ : List Symbol) (c : Item × Option Symbol) : Prop :=
  ∃ production before after, g.productions[c.1.production]? = some production ∧
    γ = before ++ production.rhs.take c.1.dot ∧
    g.Derives [g.accept] (before ++ production.lhs :: (c.2.toList ++ after))

/-- What stands behind the dot comes after what was read, and then the lookahead. -/
theorem Supports.derives (h : g.Supports γ (i, o)) :
    ∃ after, g.Derives [g.accept] (γ ++ (i.rest g ++ (o.toList ++ after))) := by
  obtain ⟨production, before, after, hp, rfl, h⟩ := h
  have hsplit : production.rhs = production.rhs.take i.dot ++ i.rest g := by
    rw [Item.rest, rhsOf_eq hp, List.take_append_drop]
  have hstep := Rewrites.replace before (o.toList ++ after) hp
  rw [hsplit] at hstep
  exact ⟨after, h.tail (by simpa only [List.append_assoc] using hstep)⟩

theorem supports_start (hg : g.WellFormed) : g.Supports [] (⟨0, 0⟩, none) := by
  obtain ⟨start, hstart⟩ := hg.start
  exact ⟨_, [], [], hstart, rfl, .refl⟩

/-- An item supports what it brings along. -/
theorem Supports.arrives (hg : g.WellFormed) {j : Item} {la la' : NatSet}
    (hj : (j, la') ∈ ItemSet.arrivals g (.ofLowered g) i la) (hi : g.Supports γ (i, none))
    (hla : ∀ t, t ∈ la → g.Supports γ (i, some t)) (ho : ∀ t ∈ o, t ∈ la') :
    g.Supports γ (j, o) := by
  obtain ⟨s, rest, hrest, -, hq, hdot, rfl⟩ := ItemSet.mem_arrivals.1 hj
  obtain ⟨production, hp, rfl⟩ := ItemSet.mem_productionsOf.1 hq
  have hγ : γ = γ ++ production.rhs.take j.dot := by simp [hdot]
  obtain ⟨after, hderives⟩ := hi.derives
  rw [hrest] at hderives
  cases o with
  | none => exact ⟨production, γ, rest ++ after, hp, hγ, by simpa using hderives⟩
  | some t =>
    rcases (Firsts.mem_ofSequence_iff_begins hg).1 (ho t rfl) with ⟨-, tail, ht⟩ | ⟨hnull, ht⟩
    · -- the terminal begins what the rest of the right side derives
      refine ⟨production, γ, tail ++ after, hp, hγ, hderives.trans (show g.Derives _ _ from ?_)⟩
      simpa using ht.inside (γ ++ [production.lhs]) after
    · -- the rest derives nothing, and the terminal follows the item
      obtain ⟨after, hderives⟩ := (hla t ht).derives
      rw [hrest] at hderives
      refine ⟨production, γ, after, hp, hγ, hderives.trans (show g.Derives _ _ from ?_)⟩
      simpa using hnull.inside (γ ++ [production.lhs]) (t :: after)

theorem Supports.advance (h : g.Supports γ (i, o)) (hx : i.next? g = some x) :
    g.Supports (γ ++ [x]) (⟨i.production, i.dot + 1⟩, o) := by
  obtain ⟨production, before, after, hp, rfl, h⟩ := h
  refine ⟨production, before, after, hp, ?_, h⟩
  rw [Item.next?, Item.rest, List.head?_drop, rhsOf_eq hp] at hx
  rw [List.take_add_one, hx, List.append_assoc]
  rfl

theorem supports_closure (hg : g.WellFormed) {kernel : ItemSet}
    (h : ∀ c, kernel.Says c → g.Supports γ c) {c : Item × Option Symbol}
    (hc : (kernel.closure g (.ofLowered g)).Says c) : g.Supports γ c :=
  ItemSet.closure_induction (fun _ _ _ _ hj hi hla _ ho => hi.arrives hg hj hla ho) h hc

end Lowered

/-! ## Stacks support their items -/

namespace Table

variable {g : Lowered}

/-- The items of the state on top are supported by the symbols on the stack. -/
theorem Stacked.supports (hg : g.WellFormed) {n : Nat} {below : List Nat}
    {trees : List ParseTree} {ss : List Symbol} {w : List Terminal}
    (h : Stacked g (n :: below) trees ss w) {c : Item × Option Symbol}
    (hc : (Collection.items g n).Says c) : g.Supports ss.reverse c := by
  generalize hs : n :: below = states at h
  induction h generalizing n below c with
  | bottom =>
    cases hs
    rw [Collection.items_zero hg] at hc
    refine Lowered.supports_closure hg (fun ⟨i, o⟩ hd => ?_) hc
    obtain ⟨rfl, rfl⟩ := Collection.says_startKernel.1 hd
    exact Lowered.supports_start hg
  | push _ htarget _ ih =>
    cases hs
    obtain ⟨-, -, hitems, -⟩ := Collection.target?_spec hg htarget
    rw [hitems] at hc
    refine Lowered.supports_closure hg (fun ⟨i, o⟩ hd => ?_) hc
    obtain ⟨j, hj, hnext, rfl⟩ := ItemSet.says_advance.1 hd
    rw [List.reverse_cons]
    exact (ih hj rfl).advance hnext

/-- The trees on the stack grow from its symbols to what was read. -/
theorem Stacked.growsAll {states : List Nat} {trees : List ParseTree} {ss : List Symbol}
    {w : List Terminal} (h : Stacked g states trees ss w) :
    g.GrowsAll trees.reverse ss.reverse w := by
  induction h with
  | bottom => exact .nil
  | push _ _ hgrow ih =>
    rw [List.reverse_cons, List.reverse_cons]
    exact ih.append (Lowered.growsAll_singleton.2 hgrow)

end Table

/-! ## Sentences -/

namespace Lowered

variable {g : Lowered}

/-- Every nonterminal derives a list of terminals. -/
def Productive (g : Lowered) : Prop :=
  ∀ s, g.isTerminal s = false → s < g.numSymbols →
    ∃ u, (∀ t ∈ u, g.isTerminal t = true) ∧ g.Derives [s] u

/-- The symbols begin a sentence of the start symbol with `$end` after it. -/
def Viable (g : Lowered) (start : Symbol) (v : List Symbol) : Prop :=
  ∃ u, (∀ t ∈ u, g.isTerminal t = true) ∧ g.Derives [start] u ∧ v <+: u ++ [endSymbol]

/-- Derivations stay among the symbols of the grammar. -/
theorem Derives.lt (hg : g.WellFormed) {a b : List Symbol} (h : g.Derives a b)
    (ha : ∀ s ∈ a, s < g.numSymbols) : ∀ s ∈ b, s < g.numSymbols := by
  induction h with
  | refl => exact ha
  | tail _ hstep ih =>
    obtain ⟨before, after, hp⟩ := hstep
    intro s hs
    rcases List.mem_append.1 hs with hs | hs
    · exact ih s (List.mem_append_left _ hs)
    · rcases List.mem_append.1 hs with hs | hs
      · exact hg.rhs_lt hp s hs
      · exact ih s (List.mem_append_right _ (List.mem_cons_of_mem _ hs))

/-- A symbol that derives terminals has a tree to these, with whatever texts. -/
theorem Derives.exists_grows {s : Symbol} {u : List Symbol} (h : g.Derives [s] u)
    (hu : ∀ t ∈ u, g.isTerminal t = true) (text : Symbol → String) :
    ∃ tree, g.Grows tree s (u.map fun t => (t, text t)) := by
  have hfst : (u.map fun t => (t, text t)).map Prod.fst = u := by simp [Function.comp_def]
  refine (derives_iff_grows fun y hy => ?_).1 (hfst.symm ▸ h)
  obtain ⟨t, ht, rfl⟩ := List.mem_map.1 hy
  exact hu t ht

theorem Productive.exists_terminals (h : g.Productive) {ss : List Symbol}
    (hss : ∀ s ∈ ss, s < g.numSymbols) :
    ∃ u, (∀ t ∈ u, g.isTerminal t = true) ∧ g.Derives ss u := by
  induction ss with
  | nil => exact ⟨[], by simp, .refl⟩
  | cons s ss ih =>
    obtain ⟨v, hv, hderives'⟩ := ih fun s' hs' => hss s' (List.mem_cons_of_mem s hs')
    obtain ⟨u, hu, hderives⟩ : ∃ u, (∀ t ∈ u, g.isTerminal t = true) ∧ g.Derives [s] u := by
      cases hs : g.isTerminal s with
      | true => exact ⟨[s], by simpa using hs, .refl⟩
      | false => exact h s hs (hss s List.mem_cons_self)
    refine ⟨u ++ v, fun t ht => ?_, hderives.append hderives'⟩
    rcases List.mem_append.1 ht with ht | ht
    · exact hu t ht
    · exact hv t ht

/-- Where all nonterminals derive words, the terminals that begin what `$accept` derives
    begin a sentence. -/
theorem viable_of_derives (hg : g.WellFormed) (hproductive : g.Productive) {start : Symbol}
    (hstart : g.productions[0]? = some ⟨g.accept, [start, endSymbol]⟩) {v rest : List Symbol}
    (hv : ∀ t ∈ v, g.isTerminal t = true) (h : g.Derives [g.accept] (v ++ rest)) :
    g.Viable start v := by
  have hlt : ∀ s ∈ v ++ rest, s < g.numSymbols :=
    h.lt hg fun s hs => List.mem_singleton.1 hs ▸ (hg.lhs_bounds hstart).2
  obtain ⟨r, hr, hrest⟩ :=
    hproductive.exists_terminals fun s hs => hlt s (List.mem_append_right v hs)
  have hword : g.Derives [g.accept] (v ++ r) := h.trans (Derives.append .refl hrest)
  have hterminal : ∀ t ∈ v ++ r, g.isTerminal t = true := by
    intro t ht
    rcases List.mem_append.1 ht with ht | ht
    · exact hv t ht
    · exact hr t ht
  obtain ⟨tree, htree⟩ := hword.exists_grows hterminal fun _ => ""
  obtain ⟨tree', u, text, hu, hgrows⟩ := htree.of_accept hg hstart rfl
  have hfst := congrArg (List.map Prod.fst) hu
  rw [List.map_map, List.map_append] at hfst
  refine ⟨u.map Prod.fst, fun t ht => ?_, hgrows.derives, r, by simpa [Function.comp_def] using hfst⟩
  obtain ⟨y, hy, rfl⟩ := List.mem_map.1 ht
  exact hgrows.isTerminal y hy

end Lowered

end LanguageWorkbench
