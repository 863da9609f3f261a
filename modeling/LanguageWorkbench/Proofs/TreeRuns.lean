import LanguageWorkbench.Proofs.Table

/-!
# Runs that stack parse trees

The automaton with parse trees for values, as a function from one configuration to
the next. A run of a built table stacks trees that grow to what was read, and it can
be steered by any tree: the table shifts its leaves and reduces its nodes in their
order, children before parents.

Results:
* `Table.Stacked.step`: what is stacked has grown to what was read.
* `Table.Stacked.accept`: on acceptance a single tree of the start symbol is stacked.
* `Table.steps_tree`: a built table runs through every tree that may stand there.
-/

namespace LanguageWorkbench

/-- A run with parse trees for values. Both stacks have their top first. -/
structure Configuration where
  states : List Nat
  trees : List ParseTree
  input : List Terminal

theorem Lowered.rhsOf_eq {g : Lowered} {p : Nat} {production : Production}
    (h : g.productions[p]? = some production) : g.rhsOf p = production.rhs := by
  rw [rhsOf, h]
  rfl

namespace Table

/-- One shift or reduction, if the table has one. -/
def step (g : Lowered) (t : Table) : Configuration → Option Configuration
  | ⟨top :: below, trees, (x, text) :: input⟩ =>
    match t.action top x with
    | .ok (.shift next) => some ⟨next :: top :: below, .leaf x text :: trees, input⟩
    | .ok (.reduce p) =>
      match g.productions[p]? with
      | none => none
      | some production =>
        match (top :: below).drop production.rhs.length with
        | [] => none
        | state :: rest =>
          match t.goto? state production.lhs with
          | .ok (some next) => some ⟨next :: state :: rest,
              .node p (trees.take production.rhs.length).reverse ::
                trees.drop production.rhs.length, (x, text) :: input⟩
          | _ => none
    | _ => none
  | _ => none

/-- What one step does: it shifts the next terminal, or it reduces by a production. -/
inductive Stepping (g : Lowered) (t : Table) : Configuration → Configuration → Prop
  | shift {top next : Nat} {below : List Nat} {trees : List ParseTree} {x : Symbol}
      {text : String} {input : List Terminal} : t.action top x = .ok (.shift next) →
      Stepping g t ⟨top :: below, trees, (x, text) :: input⟩
        ⟨next :: top :: below, .leaf x text :: trees, input⟩
  | reduce {top p state next : Nat} {below rest : List Nat} {trees : List ParseTree}
      {x : Symbol} {text : String} {input : List Terminal} {production : Production} :
      t.action top x = .ok (.reduce p) → g.productions[p]? = some production →
      (top :: below).drop production.rhs.length = state :: rest →
      t.goto? state production.lhs = .ok (some next) →
      Stepping g t ⟨top :: below, trees, (x, text) :: input⟩
        ⟨next :: state :: rest, .node p (trees.take production.rhs.length).reverse ::
          trees.drop production.rhs.length, (x, text) :: input⟩

theorem step_cases {g : Lowered} {t : Table} {c c' : Configuration} (h : t.step g c = some c') :
    Stepping g t c c' := by
  unfold Table.step at h
  split at h
  · split at h
    · rename_i haction
      cases h
      exact .shift haction
    · rename_i haction
      split at h
      · cases h
      · rename_i hprod
        split at h
        · cases h
        · rename_i hdrop
          split at h
          · rename_i hgoto
            cases h
            exact .reduce haction hprod hdrop hgoto
          · cases h
    · cases h
  · cases h

/-- Any number of shifts and reductions. -/
def Steps (g : Lowered) (t : Table) : Configuration → Configuration → Prop :=
  Relation.ReflTransGen fun c c' => t.step g c = some c'

variable {g : Lowered} {t : Table}

/-- Two runs that cannot go on have ended alike. -/
theorem Steps.unique {c d e : Configuration} (hd : Steps g t c d) (he : Steps g t c e)
    (hd' : t.step g d = none) (he' : t.step g e = none) : d = e := by
  induction hd using Relation.ReflTransGen.head_induction_on with
  | refl =>
    rcases Relation.ReflTransGen.cases_head he with h | ⟨c', h, -⟩
    · exact h
    · rw [hd'] at h
      cases h
  | @head c c' h _ ih =>
    rcases Relation.ReflTransGen.cases_head he with rfl | ⟨c'', h', he⟩
    · rw [he'] at h
      cases h
    · rw [h, Option.some.injEq] at h'
      subst h'
      exact ih he

/-! ## What was read is stacked -/

/-- `Stacked g states trees ss w`: the states come from each other over the symbols
    `ss`, from which the trees grow to `w`. All three stacks have their top first. -/
inductive Stacked (g : Lowered) :
    List Nat → List ParseTree → List Symbol → List Terminal → Prop
  | bottom : Stacked g [0] [] [] []
  | push {n m : Nat} {below : List Nat} {trees : List ParseTree} {tree : ParseTree}
      {s : Symbol} {ss : List Symbol} {u w : List Terminal}
      (h : Stacked g (n :: below) trees ss w) (ht : Collection.target? g n s = some m)
      (hgrow : g.Grows tree s u) :
      Stacked g (m :: n :: below) (tree :: trees) (s :: ss) (w ++ u)

/-- What stands before the dot of an item is on top of the stack. -/
theorem Stacked.past (hg : g.WellFormed) {n p d : Nat} {below : List Nat}
    {trees : List ParseTree} {ss : List Symbol} {w : List Terminal}
    (h : Stacked g (n :: below) trees ss w) (hi : (Collection.items g n).Has ⟨p, d⟩) :
    d ≤ ss.length ∧ (ss.take d).reverse = (g.rhsOf p).take d := by
  induction d generalizing n below trees ss w with
  | zero => simp
  | succ d ih =>
    cases h with
    | bottom => exact absurd hi (Collection.not_has_items_zero hg)
    | push h ht hgrow =>
      obtain ⟨hi, hnext⟩ := Collection.has_of_target? hg ht hi
      obtain ⟨hlen, htake⟩ := ih h hi
      refine ⟨by simpa using hlen, ?_⟩
      rw [List.take_succ_cons, List.reverse_cons, htake, List.take_add_one]
      congr 1
      rw [Item.next?, Item.rest, List.head?_drop] at hnext
      simp [hnext]

/-- The trees on top have grown to the end of what was read. -/
theorem Stacked.pop {states : List Nat} {trees : List ParseTree} {ss : List Symbol}
    {w : List Terminal} (h : Stacked g states trees ss w) {k : Nat} (hk : k ≤ ss.length) :
    ∃ u v, w = u ++ v ∧ Stacked g (states.drop k) (trees.drop k) (ss.drop k) u ∧
      g.GrowsAll (trees.take k).reverse (ss.take k).reverse v := by
  induction k generalizing states trees ss w with
  | zero => exact ⟨w, [], by simp, by simpa using h, by simpa using .nil⟩
  | succ k ih =>
    cases h with
    | bottom => simp at hk
    | push h ht hgrow =>
      obtain ⟨u, v, rfl, hu, hv⟩ := ih h (by simpa using hk)
      refine ⟨u, v ++ _, List.append_assoc .., hu, ?_⟩
      simp only [List.take_succ_cons, List.reverse_cons]
      exact hv.append (Lowered.growsAll_singleton.2 hgrow)

/-- A step keeps what was read on the stack. -/
theorem Stacked.step (hg : g.WellFormed) (ht : (build g).result = .ok t)
    {c c' : Configuration} {ss : List Symbol} {w : List Terminal}
    (h : Stacked g c.states c.trees ss w) (hstep : t.step g c = some c') :
    ∃ ss' w', Stacked g c'.states c'.trees ss' w' ∧ w ++ c.input = w' ++ c'.input := by
  cases step_cases hstep with
  | shift haction =>
    -- a shift stacks a leaf
    obtain ⟨hx, htarget⟩ := (action_shift_iff hg ht).1 haction
    exact ⟨_, _, .push h htarget (.leaf hx), by simp⟩
  | reduce haction hprod hdrop hgoto =>
    -- a reduction stacks a node over the trees of the right side
    obtain ⟨-, hlooks⟩ := (action_reduce_iff hg ht).1 haction
    obtain ⟨hlen, htake⟩ := h.past hg hlooks.has
    rw [Lowered.rhsOf_eq hprod] at hlen htake
    obtain ⟨u, v, rfl, hu, hv⟩ := h.pop hlen
    rw [htake, List.take_length] at hv
    simp only at hu
    rw [hdrop] at hu
    exact ⟨_, _, .push hu ((goto?_iff hg ht).1 hgoto).2 (.node hprod hv), rfl⟩

theorem Stacked.steps (hg : g.WellFormed) (ht : (build g).result = .ok t)
    {c c' : Configuration} (hsteps : Steps g t c c') {ss : List Symbol} {w : List Terminal}
    (h : Stacked g c.states c.trees ss w) :
    ∃ ss' w', Stacked g c'.states c'.trees ss' w' ∧ w ++ c.input = w' ++ c'.input := by
  induction hsteps with
  | refl => exact ⟨ss, w, h, rfl⟩
  | tail _ hstep ih =>
    obtain ⟨ss', w', h', heq⟩ := ih
    obtain ⟨ss'', w'', h'', heq'⟩ := h'.step hg ht hstep
    exact ⟨ss'', w'', h'', heq.trans heq'⟩

/-! ## Trees without the end -/

end Table

namespace Lowered

variable {g : Lowered}

/-- Only a leaf grows from `$end`. -/
theorem Grows.of_end (hg : g.WellFormed) {t : ParseTree} {s : Symbol} {w : List Terminal}
    (h : g.Grows t s w) (hs : s = endSymbol) : ∃ text, w = [(endSymbol, text)] := by
  cases h with
  | leaf => exact ⟨_, by rw [hs]⟩
  | node h _ => exact absurd (hs ▸ (hg.lhs_bounds h).1) (Nat.not_le_of_lt hg.end_lt)

/-- A tree without `$end` among its leaves grows neither from `$end` nor from
    `$accept`, and it uses production 0 nowhere at its root. -/
theorem Grows.root_ne (hg : g.WellFormed) {t : ParseTree} {s : Symbol} {w : List Terminal}
    (h : g.Grows t s w) (hw : ∀ x ∈ w, x.1 ≠ endSymbol) : s ≠ endSymbol ∧ s ≠ g.accept := by
  cases h with
  | leaf h =>
    simp only [Lowered.isTerminal, decide_eq_true_eq] at h
    exact ⟨hw _ List.mem_cons_self, Nat.ne_of_lt h⟩
  | @node p production ts w h hs =>
    have hlhs := (hg.lhs_bounds h).1
    refine ⟨Nat.ne_of_gt (Nat.lt_of_lt_of_le hg.end_lt hlhs), fun haccept => ?_⟩
    by_cases hp : p = 0
    · subst hp
      obtain ⟨start, hstart⟩ := hg.start
      rw [h, Option.some.injEq] at hstart
      subst hstart
      cases hs with
      | cons _ hs =>
        cases hs with
        | cons hend hnil =>
          obtain ⟨text, rfl⟩ := hend.of_end hg rfl
          exact hw (endSymbol, text) (by simp) rfl
    · exact hg.lhs_ne_accept h hp haccept

mutual

/-- No tree has `$end` for a leaf, unless it grows from `$end` or `$accept`. -/
theorem Grows.ne_end (hg : g.WellFormed) {t : ParseTree} {s : Symbol} {w : List Terminal} :
    g.Grows t s w → s ≠ endSymbol ∧ s ≠ g.accept → ∀ x ∈ w, x.1 ≠ endSymbol
  | .leaf _ => fun hs x hx => by
    rw [List.mem_singleton.1 hx]
    exact hs.1
  | @Grows.node _ p production _ _ h hs' => fun hs => by
    refine hs'.ne_end hg (hg.rhs_ne h ?_)
    rintro rfl
    obtain ⟨start, hstart⟩ := hg.start
    rw [h, Option.some.injEq] at hstart
    exact hs.2 (by rw [hstart])

theorem GrowsAll.ne_end (hg : g.WellFormed) {ts : List ParseTree} {ss : List Symbol}
    {w : List Terminal} : g.GrowsAll ts ss w → (∀ s ∈ ss, s ≠ endSymbol ∧ s ≠ g.accept) →
      ∀ x ∈ w, x.1 ≠ endSymbol
  | .nil => fun _ x hx => absurd hx List.not_mem_nil
  | .cons h hs' => fun hs x hx => by
    rcases List.mem_append.1 hx with hx | hx
    · exact h.ne_end hg (hs _ List.mem_cons_self) x hx
    · exact hs'.ne_end hg (fun s hmem => hs s (List.mem_cons_of_mem _ hmem)) x hx

end

/-- A tree of `$accept` has a tree of the start symbol inside, and then one `$end`. -/
theorem Grows.of_accept (hg : g.WellFormed) {start : Symbol}
    (hstart : g.productions[0]? = some ⟨g.accept, [start, endSymbol]⟩) {t : ParseTree} {s : Symbol}
    {w : List Terminal} (h : g.Grows t s w) (hs : s = g.accept) :
    ∃ t' u text, w = u ++ [(endSymbol, text)] ∧ g.Grows t' start u := by
  cases h with
  | leaf h =>
    simp only [Lowered.isTerminal, decide_eq_true_eq] at h
    exact absurd hs (Nat.ne_of_lt h)
  | @node p production ts _ h hts =>
    have hp : p = 0 := by
      by_contra hp
      exact hg.lhs_ne_accept h hp hs
    subst hp
    obtain rfl := Option.some.inj (h.symm.trans hstart)
    obtain ⟨us, vs, u, v, -, rfl, hus, hvs⟩ :=
      (show g.GrowsAll ts ([start] ++ [endSymbol]) w from hts).split
    obtain ⟨t', rfl⟩ := List.length_eq_one_iff.1 hus.length_eq
    obtain ⟨t'', rfl⟩ := List.length_eq_one_iff.1 hvs.length_eq
    obtain ⟨text, rfl⟩ := (growsAll_singleton.1 hvs).of_end hg rfl
    exact ⟨t', u, text, rfl, growsAll_singleton.1 hus⟩

/-- No tree grows from an `$accept` that starts with itself: it would have another such
    tree inside, with one `$end` less. -/
theorem not_grows_accept (hg : g.WellFormed)
    (hstart : g.productions[0]? = some ⟨g.accept, [g.accept, endSymbol]⟩) {t : ParseTree}
    {w : List Terminal} : ¬ g.Grows t g.accept w := by
  induction w using List.reverseRecOn generalizing t with
  | nil =>
    intro h
    obtain ⟨t', u, text, hw, -⟩ := h.of_accept hg hstart rfl
    simp at hw
  | append_singleton w x ih =>
    intro h
    obtain ⟨t', u, text, hw, h'⟩ := h.of_accept hg hstart rfl
    obtain ⟨rfl, -⟩ := List.append_inj' hw rfl
    exact ih h'

end Lowered

namespace Table

variable {g : Lowered} {t : Table}

/-- Where a table accepts, a single tree is stacked, and it has grown from the start
    symbol. -/
theorem Stacked.accept (hg : g.WellFormed) (ht : (build g).result = .ok t) {n : Nat}
    {below : List Nat} {trees : List ParseTree} {ss : List Symbol} {w : List Terminal}
    (h : Stacked g (n :: below) trees ss w) (hw : ∀ x ∈ w, x.1 ≠ endSymbol) {x : Symbol}
    (haction : t.action n x = .ok .accept) :
    ∃ start tree, g.productions[0]? = some ⟨g.accept, [start, endSymbol]⟩ ∧ trees = [tree] ∧
      g.Grows tree start w := by
  obtain ⟨start, hstart⟩ := hg.start
  have hrhs : g.rhsOf 0 = [start, endSymbol] := Lowered.rhsOf_eq hstart
  have hi := ((action_accept_iff ht).1 haction).2
  cases h with
  | bottom => exact absurd hi (Collection.not_has_items_zero hg)
  | @push k _ below trees tree s ss u w h htarget hgrow =>
    obtain ⟨hi, hnext⟩ := Collection.has_of_target? hg htarget hi
    obtain rfl : start = s := by simpa [Item.next?, Item.rest, hrhs] using hnext
    cases h with
    | bottom => exact ⟨start, tree, hstart, rfl, by simpa using hgrow⟩
    | push h htarget' hgrow' =>
      -- only an `$accept` that stands for itself begins production 0 again
      have haccept := Collection.eq_zero_or_start hg htarget' hi
      rw [hstart, Option.some.injEq, Production.mk.injEq, List.cons.injEq] at haccept
      have := (hgrow.root_ne hg fun x hx => hw x (List.mem_append_right _ hx)).2
      exact absurd haccept.2.1 this

/-! ## Runs along a tree -/

/-- One step of a run, then any number of them. -/
theorem Steps.head {c c' d : Configuration} (h : t.step g c = some c') (hs : Steps g t c' d) :
    Steps g t c d := Relation.ReflTransGen.head h hs

theorem step_reduce (hg : g.WellFormed) (ht : (build g).result = .ok t) {p n m : Nat}
    {production : Production} {pushed below : List Nat} {trees rest : List ParseTree}
    {y : Terminal} {input : List Terminal} (hprod : g.productions[p]? = some production)
    (hp : p ≠ 0) (hpushed : pushed.length = production.rhs.length)
    (htrees : trees.length = production.rhs.length)
    (hlooks : ∀ top, (pushed ++ n :: below).head? = some top →
      (Collection.items g top).Looks ⟨p, production.rhs.length⟩ y.1)
    (htarget : Collection.target? g n production.lhs = some m) :
    t.step g ⟨pushed ++ n :: below, trees.reverse ++ rest, y :: input⟩ =
      some ⟨m :: n :: below, .node p trees :: rest, y :: input⟩ := by
  obtain ⟨top, lower, hstates⟩ : ∃ top lower, pushed ++ n :: below = top :: lower := by
    cases pushed with
    | nil => exact ⟨n, below, rfl⟩
    | cons top pushed => exact ⟨top, pushed ++ n :: below, rfl⟩
  have hrhs := Lowered.rhsOf_eq hprod
  have haction : t.action top y.1 = .ok (.reduce p) := by
    refine (action_reduce_iff hg ht).2 ⟨hp, ?_⟩
    rw [hrhs]
    exact hlooks top (by rw [hstates]; rfl)
  have hgoto : t.goto? n production.lhs = .ok (some m) := by
    refine (goto?_iff hg ht).2 ⟨?_, htarget⟩
    simpa [Lowered.isTerminal] using (hg.lhs_bounds hprod).1
  have hdrop : (top :: lower).drop production.rhs.length = n :: below := by
    rw [← hstates, ← hpushed, List.drop_left]
  have htake : ((trees.reverse ++ rest).take production.rhs.length).reverse = trees := by
    rw [← htrees, ← List.length_reverse, List.take_left, List.reverse_reverse]
  have hrest : (trees.reverse ++ rest).drop production.rhs.length = rest := by
    rw [← htrees, ← List.length_reverse, List.drop_left]
  rw [hstates]
  simp only [step, haction, hprod, hdrop, hgoto, htake, hrest]

mutual

/-- A table runs through a tree that may stand after the dot of an item, if the
    terminal after it may follow there. -/
theorem steps_tree (hg : g.WellFormed) (ht : (build g).result = .ok t) {tree : ParseTree}
    {s : Symbol} {w : List Terminal} : g.Grows tree s w → (∀ x ∈ w, x.1 ≠ endSymbol) →
    ∀ {n m : Nat} (below : List Nat) (trees : List ParseTree) {i : Item} {la : NatSet}
      {rest : List Symbol} {y : Terminal} (input : List Terminal),
      (i, la) ∈ Collection.items g n → i.rest g = s :: rest →
      Collection.target? g n s = some m → y.1 ∈ (Firsts.ofLowered g).ofSequence la rest →
      Steps g t ⟨n :: below, trees, w ++ y :: input⟩
        ⟨m :: n :: below, tree :: trees, y :: input⟩
  | @Lowered.Grows.leaf _ x text h => by
    intro hw n m below trees i la rest y input hi hrest htarget hy
    have haction := (action_shift_iff hg ht).2 ⟨h, htarget⟩
    exact .head (by simp [step, haction]) .refl
  | @Lowered.Grows.node _ p production ts _ h hs => by
    intro hw n m below trees i la rest y input hi hrest htarget hy
    have hlhs := (hg.lhs_bounds h).1
    have hp : p ≠ 0 := by
      rintro rfl
      obtain ⟨start, hstart⟩ := hg.start
      refine ((Lowered.Grows.node h hs).root_ne hg hw).2 ?_
      rw [h, Option.some.injEq] at hstart
      rw [hstart]
    -- the item that begins the production looks ahead to the terminal
    have hclosed := Collection.closed_items hg n i la hi ⟨p, 0⟩ _
      (ItemSet.mem_arrivals.2 ⟨_, rest, hrest, by simpa [Lowered.isTerminal] using hlhs,
        ItemSet.mem_productionsOf.2 ⟨production, h, rfl⟩, rfl, rfl⟩)
    have hrhs : Item.rest g ⟨p, 0⟩ = production.rhs := Lowered.rhsOf_eq h
    obtain ⟨pushed, hlen, hlooks, hsteps⟩ :=
      steps_trees hg ht hs hw below trees input
        (hclosed.2 y.1 hy) hrhs
    refine hsteps.trans (.head (step_reduce hg ht h hp hlen hs.length_eq ?_ htarget) .refl)
    simpa using hlooks

/-- A table runs through trees that may stand after the dot of an item, one after the
    other, and the dot moves over them. -/
theorem steps_trees (hg : g.WellFormed) (ht : (build g).result = .ok t) {ts : List ParseTree}
    {ss : List Symbol} {w : List Terminal} : g.GrowsAll ts ss w → (∀ x ∈ w, x.1 ≠ endSymbol) →
    ∀ {n : Nat} (below : List Nat) (trees : List ParseTree) {i : Item} {y : Terminal}
      (input : List Terminal), (Collection.items g n).Looks i y.1 → i.rest g = ss →
      ∃ pushed : List Nat, pushed.length = ss.length ∧
        (∀ top, (pushed ++ n :: below).head? = some top →
          (Collection.items g top).Looks ⟨i.production, i.dot + ss.length⟩ y.1) ∧
        Steps g t ⟨n :: below, trees, w ++ y :: input⟩
          ⟨pushed ++ n :: below, ts.reverse ++ trees, y :: input⟩
  | .nil => by
    intro _ n below trees i y input hi _
    refine ⟨[], rfl, fun top htop => ?_, .refl⟩
    obtain rfl : n = top := by simpa using htop
    exact hi
  | @Lowered.GrowsAll.cons _ tree s u ts ss v h hs => by
    intro hw n below trees i y input hi hrest
    have hu : ∀ x ∈ u, x.1 ≠ endSymbol := fun x hx => hw x (List.mem_append_left _ hx)
    have hv : ∀ x ∈ v, x.1 ≠ endSymbol := fun x hx => hw x (List.mem_append_right _ hx)
    have hnext : i.next? g = some s := by simp [Item.next?, hrest]
    obtain ⟨m, htarget, hsays⟩ :=
      Collection.exists_target? hg hi.has hnext (h.root_ne hg hu).1
    -- what follows the first tree is the beginning of the others, or `y`
    obtain ⟨z, tail, hz⟩ : ∃ z tail, v ++ y :: input = z :: tail := by
      cases v with
      | nil => exact ⟨y, input, rfl⟩
      | cons z v => exact ⟨z, v ++ y :: input, rfl⟩
    obtain ⟨la, hla, hy⟩ := hi
    have hz' := (Firsts.closed_ofLowered hg).head_mem_ofSequence hs hy hz
    have hfirst := steps_tree hg ht h hu below trees tail hla
      hrest htarget hz'
    have hlooks : (Collection.items g m).Looks ⟨i.production, i.dot + 1⟩ y.1 :=
      hsays (some y.1) ⟨la, hla, hy⟩
    have hrest' : Item.rest g ⟨i.production, i.dot + 1⟩ = ss := by
      rw [Item.rest, ← List.drop_drop, ← Item.rest, hrest]
      rfl
    obtain ⟨pushed, hlen, htop, hothers⟩ := steps_trees hg ht hs hv (n :: below)
      (tree :: trees) input hlooks hrest'
    refine ⟨pushed ++ [m], by simp [hlen], fun top h => ?_, ?_⟩
    · rw [List.length_cons, Nat.add_comm ss.length, ← Nat.add_assoc]
      exact htop top (by simpa using h)
    · rw [List.append_assoc, hz]
      rw [hz] at hothers
      rw [List.reverse_cons, List.append_assoc, List.append_assoc]
      exact hfirst.trans hothers

end

/-- A built table runs through every tree of the start symbol and then accepts. -/
theorem steps_start (hg : g.WellFormed) (ht : (build g).result = .ok t) {start : Symbol}
    (hstart : g.productions[0]? = some ⟨g.accept, [start, endSymbol]⟩) {tree : ParseTree}
    {w : List Terminal} (h : g.Grows tree start w) (hw : ∀ x ∈ w, x.1 ≠ endSymbol)
    (text : String) :
    ∃ n, Steps g t ⟨[0], [], w ++ [(endSymbol, text)]⟩ ⟨[n, 0], [tree], [(endSymbol, text)]⟩ ∧
      t.action n endSymbol = .ok .accept := by
  have hi := Collection.has_items_zero hg
  have hrest : Item.rest g ⟨0, 0⟩ = [start, endSymbol] := by
    simp [Item.rest, Lowered.rhsOf, hstart]
  obtain ⟨m, htarget, hsays⟩ := Collection.exists_target? hg hi (s := start)
    (by simp [Item.next?, hrest]) (h.root_ne hg hw).1
  obtain ⟨la, hla⟩ := hi
  refine ⟨m, ?_, (action_accept_iff ht).2 ⟨rfl, hsays none ⟨la, hla⟩⟩⟩
  refine steps_tree hg ht h hw [] [] _ hla hrest htarget ?_
  refine Firsts.mem_ofSequence_cons.2 (.inl ?_)
  exact (Firsts.closed_ofLowered hg).terminal _ (by simpa [Lowered.isTerminal] using hg.end_lt)

end Table

end LanguageWorkbench
