import LanguageWorkbench.Proofs.Feeding
import LanguageWorkbench.Proofs.TreeRuns

/-!
# What an automaton accepts

An automaton over a built table stacks the values that its tree builder folds over
parse trees. So it accepts a list of terminals exactly if a parse tree grows to it,
and then the only value is the fold of such a tree.

Results:
* `TreeBuilder.fold`: the value of a parse tree, children before parents and from left
  to right.
* `Machine.feedAll_of_grows`: a tree of the start symbol is accepted.
* `Machine.grows_of_feedAll`: what is accepted has a tree, and the value is its fold.
-/

namespace LanguageWorkbench

/-! ## Folding parse trees -/

namespace TreeBuilder

mutual

/-- The value of a parse tree: the leaves and the reductions in the order in which an
    automaton makes them. -/
def fold (b : TreeBuilder) : ParseTree → Store → Except Fault (Node × Store)
  | .leaf terminal text, store => b.leaf store terminal text
  | .node p children, store => do
    let (values, store) ← b.foldAll children store
    b.reduce store p values

/-- The values of parse trees side by side. -/
def foldAll (b : TreeBuilder) : List ParseTree → Store → Except Fault (List Node × Store)
  | [], store => .ok ([], store)
  | t :: ts, store => do
    let (value, store) ← b.fold t store
    let (values, store) ← b.foldAll ts store
    return (value :: values, store)

end

variable {b : TreeBuilder}

theorem foldAll_cons_eq_ok_iff {t : ParseTree} {ts : List ParseTree} {store store' : Store}
    {values : List Node} : b.foldAll (t :: ts) store = .ok (values, store') ↔
      ∃ value store₁ rest, b.fold t store = .ok (value, store₁) ∧
        b.foldAll ts store₁ = .ok (rest, store') ∧ values = value :: rest := by
  simp only [foldAll, bind, Except.bind, pure, Except.pure]
  cases hfold : b.fold t store with
  | error f => simp
  | ok r =>
    obtain ⟨value, store₁⟩ := r
    simp only [Except.ok.injEq, Prod.mk.injEq]
    cases hall : b.foldAll ts store₁ with
    | error f => simp [hall]
    | ok r =>
      obtain ⟨rest, store₂⟩ := r
      simp only [Except.ok.injEq, Prod.mk.injEq]
      constructor
      · rintro ⟨rfl, rfl⟩
        exact ⟨value, store₁, rest, ⟨rfl, rfl⟩, hall, rfl⟩
      · rintro ⟨_, _, rest', ⟨rfl, rfl⟩, h, rfl⟩
        rw [hall, Except.ok.injEq, Prod.mk.injEq] at h
        exact ⟨by rw [h.1], h.2⟩

theorem foldAll_append_eq_ok_iff {ts us : List ParseTree} {store store' : Store}
    {values : List Node} : b.foldAll (ts ++ us) store = .ok (values, store') ↔
      ∃ vs ws store₁, b.foldAll ts store = .ok (vs, store₁) ∧
        b.foldAll us store₁ = .ok (ws, store') ∧ values = vs ++ ws := by
  induction ts generalizing store values with
  | nil => simp [foldAll]
  | cons t ts ih =>
    simp only [List.cons_append, foldAll_cons_eq_ok_iff, ih]
    constructor
    · rintro ⟨value, store₁, rest, ht, ⟨vs, ws, store₂, hts, hus, rfl⟩, rfl⟩
      exact ⟨_, ws, store₂, ⟨value, store₁, vs, ht, hts, rfl⟩, hus, rfl⟩
    · rintro ⟨_, ws, store₂, ⟨value, store₁, vs, ht, hts, rfl⟩, hus, rfl⟩
      exact ⟨value, store₁, _, ht, ⟨vs, ws, store₂, hts, hus, rfl⟩, rfl⟩

theorem length_of_foldAll {ts : List ParseTree} {store store' : Store} {values : List Node}
    (h : b.foldAll ts store = .ok (values, store')) : values.length = ts.length := by
  induction ts generalizing store values with
  | nil =>
    obtain ⟨rfl, -⟩ : [] = values ∧ store = store' := by simpa [foldAll] using h
    rfl
  | cons t ts ih =>
    obtain ⟨value, store₁, rest, -, hts, rfl⟩ := foldAll_cons_eq_ok_iff.1 h
    simp [ih hts]

theorem fold_node_eq_ok_iff {p : Nat} {ts : List ParseTree} {store : Store}
    {r : Node × Store} : b.fold (.node p ts) store = .ok r ↔
      ∃ values store₁, b.foldAll ts store = .ok (values, store₁) ∧
        b.reduce store₁ p values = .ok r := by
  simp only [fold, bind, Except.bind]
  cases hall : b.foldAll ts store with
  | error f => simp
  | ok r' =>
    obtain ⟨values, store₁⟩ := r'
    simp

end TreeBuilder

namespace Machine

variable {m : Machine}

/-! ## Values are folds of trees -/

/-- The values on the stack, and the store, are what the builder makes of the trees,
    beginning with the store `store₀`. -/
def Carries (m : Machine) (store₀ : Store) (a : Automaton) (store : Store)
    (trees : List ParseTree) : Prop :=
  m.builder.foldAll trees.reverse store₀ = .ok (a.values.reverse, store)

theorem Carries.length_eq {store₀ store : Store} {a : Automaton} {trees : List ParseTree}
    (h : m.Carries store₀ a store trees) : a.values.length = trees.length := by
  simpa using TreeBuilder.length_of_foldAll h

theorem Carries.shift {store₀ store store' : Store} {a : Automaton} {trees : List ParseTree}
    (h : m.Carries store₀ a store trees) {x : Symbol} {text : String} {value : Node}
    (hleaf : m.builder.leaf store x text = .ok (value, store')) {states : List Nat}
    {accepted : Bool} :
    m.Carries store₀ ⟨states, value :: a.values, accepted⟩ store' (.leaf x text :: trees) := by
  simp only [Carries, List.reverse_cons]
  refine TreeBuilder.foldAll_append_eq_ok_iff.2 ⟨_, _, _, h, ?_, rfl⟩
  exact TreeBuilder.foldAll_cons_eq_ok_iff.2 ⟨value, store', [], hleaf, rfl, rfl⟩

theorem Carries.reduce {store₀ store store' : Store} {a : Automaton} {trees : List ParseTree}
    (h : m.Carries store₀ a store trees) {p n : Nat} {value : Node}
    (hreduce : m.builder.reduce store p (a.values.take n).reverse = .ok (value, store'))
    {states : List Nat} {accepted : Bool} :
    m.Carries store₀ ⟨states, value :: a.values.drop n, accepted⟩ store'
      (.node p (trees.take n).reverse :: trees.drop n) := by
  have hsplit : trees.reverse = (trees.drop n).reverse ++ (trees.take n).reverse := by
    rw [← List.reverse_append, List.take_append_drop]
  have hvalues : a.values.reverse = (a.values.drop n).reverse ++ (a.values.take n).reverse := by
    rw [← List.reverse_append, List.take_append_drop]
  simp only [Carries] at h
  rw [hsplit, hvalues] at h
  obtain ⟨vs, ws, store₁, hlower, hupper, heq⟩ := TreeBuilder.foldAll_append_eq_ok_iff.1 h
  have hlen := TreeBuilder.length_of_foldAll hupper
  have hlen' := TreeBuilder.length_of_foldAll h
  simp only [List.length_reverse, List.length_append, List.length_take, List.length_drop] at hlen hlen'
  obtain ⟨rfl, rfl⟩ := List.append_inj' heq
    (by simp only [List.length_reverse, List.length_take]; omega)
  simp only [Carries, List.reverse_cons]
  refine TreeBuilder.foldAll_append_eq_ok_iff.2 ⟨_, _, store₁, hlower, ?_, rfl⟩
  refine TreeBuilder.foldAll_cons_eq_ok_iff.2 ⟨value, store', [], ?_, rfl, rfl⟩
  exact TreeBuilder.fold_node_eq_ok_iff.2 ⟨_, store, hupper, hreduce⟩

/-! ## From runs to steps -/

/-- Reductions of a run are steps of the table. -/
theorem Carries.reduces {store₀ : Store} {x : Symbol} {trees : List ParseTree}
    {c c' : Automaton × Store} (h : m.Carries store₀ c.1 c.2 trees)
    (hreduces : Relation.ReflTransGen (m.Reduces x) c c') (text : String)
    (input : List Terminal) :
    ∃ trees', Table.Steps m.grammar m.table ⟨c.1.states, trees, (x, text) :: input⟩
        ⟨c'.1.states, trees', (x, text) :: input⟩ ∧
      m.Carries store₀ c'.1 c'.2 trees' := by
  induction hreduces with
  | refl => exact ⟨trees, .refl, h⟩
  | tail _ hreduce ih =>
    obtain ⟨trees', hsteps, hcarries⟩ := ih
    obtain ⟨hs, haction, honce⟩ := hreduce
    obtain ⟨production, state, rest, next, value, hp, -, hvalue, hd, hg, rfl⟩ :=
      reduceOnce_eq_ok_iff.1 honce
    refine ⟨_, hsteps.tail ?_, hcarries.reduce hvalue⟩
    rw [hs] at hd
    simp [Table.step, hs, haction, hp, hd, hg]

/-- A run that takes a terminal makes the steps of the table before it, and then shifts
    or accepts. -/
theorem steps_of_run {store₀ : Store} {x : Symbol} {text : String} (input : List Terminal)
    {fuel : Nat} {a : Automaton} {store : Store} {trees : List ParseTree}
    (h : (m.run x text fuel a store).outcome = .ok true) (hcarries : m.Carries store₀ a store trees) :
    ∃ top below trees', Table.Steps m.grammar m.table ⟨a.states, trees, (x, text) :: input⟩
        ⟨top :: below, trees', (x, text) :: input⟩ ∧
      ((∃ next, m.table.action top x = .ok (.shift next) ∧
          (m.run x text fuel a store).automaton.states = next :: top :: below ∧
          m.Carries store₀ (m.run x text fuel a store).automaton
            (m.run x text fuel a store).store (.leaf x text :: trees')) ∨
        m.table.action top x = .ok .accept ∧
          m.Carries store₀ (m.run x text fuel a store).automaton
            (m.run x text fuel a store).store trees') := by
  obtain ⟨-, c, last, hreduces, -, hends⟩ := reductions_of_run h
  obtain ⟨trees', hsteps, hcarries'⟩ := Carries.reduces (c := (a, store)) hcarries hreduces text input
  generalize (m.run x text fuel a store).automaton = a' at hends ⊢
  generalize (m.run x text fuel a store).store = store' at hends ⊢
  cases hends with
  | shift hs haction hleaf =>
    rw [hs] at hsteps
    exact ⟨_, _, trees', hsteps, .inl ⟨_, haction, by rw [hs], hcarries'.shift hleaf⟩⟩
  | accept hs haction =>
    rw [hs] at hsteps
    exact ⟨_, _, trees', hsteps, .inr ⟨haction, hcarries'⟩⟩

theorem feedAll_append {a : Automaton} {store : Store} (u v : List Terminal) :
    m.feedAll a store (u ++ v) = (m.feedAll a store u).bind fun r => m.feedAll r.1 r.2 v := by
  induction u generalizing a store with
  | nil => rfl
  | cons y u ih =>
    obtain ⟨x, text⟩ := y
    simp only [List.cons_append, feedAll]
    split
    · exact ih
    · rfl

section

variable {g : Lowered} {t : Table} {b : TreeBuilder}

/-- Terminals other than `$end` that are fed one after another are shifted. -/
theorem steps_of_feedAll (ht : (Table.build g).result = .ok t) {store₀ : Store}
    (input : List Terminal) :
    ∀ {w : List Terminal} {a a' : Automaton} {store store' : Store} {trees : List ParseTree},
      (∀ x ∈ w, x.1 ≠ endSymbol) → Machine.Carries ⟨g, t, b⟩ store₀ a store trees →
      feedAll ⟨g, t, b⟩ a store w = some (a', store') →
      ∃ trees', Table.Steps g t ⟨a.states, trees, w ++ input⟩ ⟨a'.states, trees', input⟩ ∧
        Machine.Carries ⟨g, t, b⟩ store₀ a' store' trees' := by
  intro w
  induction w with
  | nil =>
    intro a a' store store' trees _ hcarries h
    obtain ⟨rfl, rfl⟩ : a = a' ∧ store = store' := by simpa [feedAll] using h
    exact ⟨trees, .refl, hcarries⟩
  | cons y w ih =>
    intro a a' store store' trees hw hcarries h
    have hfed := outcome_of_feedAll h
    rw [feedAll_cons hfed] at h
    obtain ⟨-, fuel, hrun⟩ := run_of_feed hfed
    rw [hrun] at h hfed
    obtain ⟨top, below, trees', hsteps, hend⟩ :=
      steps_of_run (w ++ input) hfed hcarries
    rcases hend with ⟨next, haction, hstates, hcarries'⟩ | ⟨haction, -⟩
    · obtain ⟨trees'', hsteps', hcarries''⟩ :=
        ih (fun x hx => hw x (List.mem_cons_of_mem y hx)) hcarries' h
      refine ⟨trees'', hsteps.trans (.head ?_ hsteps'), hcarries''⟩
      simp only at haction
      simp [Table.step, haction, hstates]
    · exact absurd ((Table.action_accept_iff ht).1 haction).1 (hw y List.mem_cons_self)

/-- What is accepted has a parse tree from the start symbol, and the only value on the
    stack is the fold of the tree. -/
theorem grows_of_feedAll (hg : g.WellFormed) (ht : (Table.build g).result = .ok t)
    {w : List Terminal} (hw : ∀ x ∈ w, x.1 ≠ endSymbol) {text : String} {a : Automaton}
    {store₀ store : Store}
    (h : feedAll ⟨g, t, b⟩ .initial store₀ (w ++ [(endSymbol, text)]) = some (a, store)) :
    ∃ start tree value, g.productions[0]? = some ⟨g.accept, [start, endSymbol]⟩ ∧
      g.Grows tree start w ∧ b.fold tree store₀ = .ok (value, store) ∧ a.values = [value] := by
  rw [feedAll_append, Option.bind_eq_some_iff] at h
  obtain ⟨⟨a₁, store₁⟩, hfirst, hlast⟩ := h
  have hnone : Machine.Carries ⟨g, t, b⟩ store₀ .initial store₀ [] := rfl
  obtain ⟨trees, hsteps, hcarries⟩ :=
    steps_of_feedAll ht [(endSymbol, text)] hw hnone hfirst
  have hfed := outcome_of_feedAll hlast
  rw [feedAll_cons hfed] at hlast
  obtain ⟨-, fuel, hrun⟩ := run_of_feed hfed
  rw [hrun] at hlast hfed
  obtain ⟨top, below, trees', hsteps', hend⟩ := steps_of_run [] hfed hcarries
  obtain ⟨ha, hstore⟩ : (Machine.run ⟨g, t, b⟩ endSymbol text fuel a₁ store₁).automaton = a ∧
      (Machine.run ⟨g, t, b⟩ endSymbol text fuel a₁ store₁).store = store := by
    simpa [feedAll] using hlast
  obtain ⟨ss, u, hstacked, heq⟩ := Table.Stacked.steps hg ht (hsteps.trans hsteps') .bottom
  obtain rfl : w = u := by simpa using heq
  rcases hend with ⟨next, haction, -, -⟩ | ⟨haction, hcarries'⟩
  · -- `$end` is not shifted
    exact absurd rfl (Collection.ne_of_target? hg ((Table.action_shift_iff hg ht).1 haction).2)
  · obtain ⟨start, tree, hstart, rfl, hgrow⟩ := hstacked.accept hg ht hw haction
    rw [ha, hstore] at hcarries'
    obtain ⟨value, store₂, rest, hfold, hnil, hvalues⟩ :=
      TreeBuilder.foldAll_cons_eq_ok_iff.1 hcarries'
    obtain ⟨rfl, rfl⟩ : [] = rest ∧ store₂ = store := by simpa [TreeBuilder.foldAll] using hnil
    refine ⟨start, tree, value, hstart, hgrow, hfold, ?_⟩
    rw [← List.reverse_reverse a.values, hvalues]
    rfl

/-! ## From steps to runs -/

/-- The input is fed to its end, the first terminal with the automaton in the middle of
    its run, and then the values are those of the trees. -/
def Finishes (m : Machine) (store₀ : Store) (trees : List ParseTree) (a : Automaton)
    (store : Store) (input : List Terminal) : Prop :=
  ∃ y rest fuel, input = y :: rest ∧ (m.run y.1 y.2 fuel a store).outcome = .ok true ∧
    ∃ a' store', m.feedAll (m.run y.1 y.2 fuel a store).automaton
        (m.run y.1 y.2 fuel a store).store rest = some (a', store') ∧
      m.Carries store₀ a' store' trees

/-- A shift takes the terminal, and the next is fed. -/
theorem Finishes.shift (hm : m.Serves) {store₀ store store' : Store} {trees : List ParseTree}
    {a : Automaton} {top next : Nat} {below : List Nat} {x : Symbol} {text : String}
    {value : Node} {input : List Terminal} (hs : a.states = top :: below)
    (haction : m.table.action top x = .ok (.shift next))
    (hleaf : m.builder.leaf store x text = .ok (value, store')) (haccepted : a.accepted = false)
    (hlen : a.states.length = a.values.length + 1)
    (h : m.Finishes store₀ trees ⟨next :: a.states, value :: a.values, a.accepted⟩ store' input) :
    m.Finishes store₀ trees a store ((x, text) :: input) := by
  obtain ⟨z, rest, fuel, rfl, hout, hall⟩ := h
  have hrun : m.run x text 1 a store =
      ⟨⟨next :: a.states, value :: a.values, a.accepted⟩, store', [.shift top text next],
        .ok true⟩ := by
    simp [run, hs, haction, Machine.shift, hleaf]
  have hfeed := feed_eq_run (a := ⟨next :: a.states, value :: a.values, a.accepted⟩) hm
    haccepted (by simpa using hlen) hout
  refine ⟨(x, text), z :: rest, 1, rfl, by rw [hrun], ?_⟩
  rw [hrun]
  simp only
  rw [feedAll_cons (by rw [hfeed]; exact hout), hfeed]
  exact hall

/-- A reduction belongs to the run for the same terminal. -/
theorem Finishes.reduce {store₀ store store' : Store} {trees : List ParseTree}
    {a a' : Automaton} {top p : Nat} {below : List Nat} {x : Symbol} {text : String}
    {input : List Terminal} (hs : a.states = top :: below)
    (haction : m.table.action top x = .ok (.reduce p))
    (hreduce : m.reduceOnce a store p = (a', store', .ok ()))
    (h : m.Finishes store₀ trees a' store' ((x, text) :: input)) :
    m.Finishes store₀ trees a store ((x, text) :: input) := by
  obtain ⟨z, rest, fuel, hz, hout, hall⟩ := h
  obtain ⟨rfl, rfl⟩ := List.cons.inj hz
  have hrun : m.run x text (fuel + 1) a store =
      .after (.reduce top p) (m.run x text fuel a' store') := by
    simp [run, hs, haction, hreduce]
  exact ⟨(x, text), input, fuel + 1, rfl, by rw [hrun]; exact hout, by rw [hrun]; exact hall⟩

/-- Steps that lead to acceptance, beginning with more states than trees by one, are
    made by runs: the first takes the terminal at hand, and feeding takes the others. -/
theorem finishes_of_steps (hm : m.Serves) {store₀ : Store} {c d : Configuration}
    (hsteps : Table.Steps m.grammar m.table c d) {top : Nat} {below : List Nat} {x : Terminal}
    (hd : d.states = top :: below) (hinput : d.input = [x])
    (haction : m.table.action top x.1 = .ok .accept) :
    ∀ {a : Automaton} {store : Store}, a.states = c.states → a.accepted = false →
      c.states.length = c.trees.length + 1 → m.Carries store₀ a store c.trees →
      m.Finishes store₀ d.trees a store c.input := by
  induction hsteps using Relation.ReflTransGen.head_induction_on with
  | refl =>
    intro a store hs haccepted hlen hcarries
    have hrun : m.run x.1 x.2 1 a store = ⟨{ a with accepted := true }, store, [.accept top],
        .ok true⟩ := by
      simp [run, hs, hd, haction]
    exact ⟨x, [], 1, hinput, by rw [hrun], { a with accepted := true }, store, by rw [hrun]; rfl,
      hcarries⟩
  | head hstep _ ih =>
    intro a store hs haccepted hlen hcarries
    have hvalues := hcarries.length_eq
    cases Table.step_cases hstep with
    | @shift top next below trees x text input hact =>
      obtain ⟨⟨value, store'⟩, hleaf⟩ := hm.leaf store text hact
      refine .shift hm hs hact hleaf haccepted (by rw [hs, hvalues, hlen]) ?_
      exact ih (by rw [hs]) haccepted (by simpa using hlen) (hcarries.shift hleaf)
    | @reduce top p state next below rest trees x text input production hact hp hdrop hgoto =>
      simp only at hs hlen hvalues
      -- there are as many values as states above the bottom, so enough to reduce
      have hshort := congrArg List.length hdrop
      rw [List.length_drop, hlen, List.length_cons] at hshort
      obtain ⟨⟨value, store'⟩, hreduce⟩ := hm.reduce store
        (a.values.take production.rhs.length).reverse hact hp
        (by rw [List.length_reverse, List.length_take]; omega)
      have honce := reduceOnce_eq_ok_iff.2 ⟨production, state, rest, next, value, hp,
        by omega, hreduce, hs ▸ hdrop, hgoto, rfl⟩
      refine .reduce hs hact honce (ih
        (a := ⟨next :: state :: rest, value :: a.values.drop production.rhs.length, a.accepted⟩)
        rfl haccepted ?_ (hcarries.reduce hreduce))
      simp only [List.length_cons, List.length_drop]
      omega

/-- A parse tree of the start symbol is accepted. -/
theorem feedAll_of_grows (hg : g.WellFormed) (ht : (Table.build g).result = .ok t)
    (hm : Machine.Serves ⟨g, t, b⟩) {start : Symbol}
    (hstart : g.productions[0]? = some ⟨g.accept, [start, endSymbol]⟩) {tree : ParseTree}
    {w : List Terminal} (h : g.Grows tree start w) (hw : ∀ x ∈ w, x.1 ≠ endSymbol)
    (text : String) (store₀ : Store) :
    ∃ a store, feedAll ⟨g, t, b⟩ .initial store₀ (w ++ [(endSymbol, text)]) = some (a, store) := by
  obtain ⟨n, hsteps, haction⟩ := Table.steps_start hg ht hstart h hw text
  have hnone : Machine.Carries ⟨g, t, b⟩ store₀ .initial store₀ [] := rfl
  obtain ⟨y, rest, fuel, hinput, hout, a, store, hall, -⟩ :=
    finishes_of_steps hm hsteps rfl rfl haction rfl rfl rfl hnone
  have hfeed := feed_eq_run hm rfl rfl hout
  refine ⟨a, store, ?_⟩
  simp only at hinput
  rw [hinput, feedAll_cons (by rw [hfeed]; exact hout), hfeed]
  exact hall

end

end Machine

end LanguageWorkbench
