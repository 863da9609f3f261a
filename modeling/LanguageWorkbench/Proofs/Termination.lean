import LanguageWorkbench.Proofs.Atomicity
import LanguageWorkbench.Proofs.Recognition
import LanguageWorkbench.Proofs.Settling

/-!
# Feeding a built table ends

The loops of a check and of a run have no bound of their own, and nothing in them keeps
a reduction from popping all states or from finding no state to go to. On the table
that is built for a grammar neither comes up, whatever the grammar looks like and
whatever was fed, reset or cloned before.

Results:
* `Table.path_of_reached`: the stacks that calls lead to are those of the collection.
* `Machine.Checks`: the scratch stacks that a check comes to, with the reductions made.
* `Machine.feed_ends_of_build`: checks end, all reductions can be made, and only the tree
  builder can break off a feed.
-/

namespace LanguageWorkbench

/-! ## Stacks -/

namespace Table

variable {g : Lowered} {t : Table} {b : TreeBuilder} {x : Symbol}

theorem Path.drop {states rest : List Nat} {state : Nat} (h : Path g states) {n : Nat}
    (hd : states.drop n = state :: rest) : Path g (state :: rest) := by
  rw [← List.take_append_drop n states, hd] at h
  exact h.of_append

/-- Reductions keep the stack one of the collection. -/
theorem Path.reduces (hg : g.WellFormed) (ht : (build g).result = .ok t)
    {c c' : Automaton × Store} (h : Path g c.1.states)
    (hreduces : Relation.ReflTransGen (Machine.Reduces ⟨g, t, b⟩ x) c c') :
    Path g c'.1.states := by
  induction hreduces with
  | refl => exact h
  | tail _ hstep ih =>
    obtain ⟨-, -, honce⟩ := hstep
    obtain ⟨production, state, rest, next, value, -, -, -, hd, hgoto, rfl⟩ :=
      Machine.reduceOnce_eq_ok_iff.1 honce
    exact .push (ih.drop hd) ((goto?_iff hg ht).1 hgoto).2

/-- Feeding that is not broken off keeps the stack one of the collection. -/
theorem Path.feed (hg : g.WellFormed) (ht : (build g).result = .ok t) {a : Automaton}
    {store : Store} {text : String} {taken : Bool} (h : Path g a.states)
    (hout : (Machine.feed ⟨g, t, b⟩ a store x text).outcome = .ok taken) :
    Path g (Machine.feed ⟨g, t, b⟩ a store x text).automaton.states := by
  cases taken with
  | false => rwa [Machine.feed_of_outcome_false hout]
  | true =>
    obtain ⟨-, fuel, hrun⟩ := Machine.run_of_feed hout
    rw [hrun] at hout ⊢
    obtain ⟨-, c, last, hreduces, -, hends⟩ := Machine.reductions_of_run hout
    have hpath := Path.reduces hg ht h hreduces
    generalize (Machine.run ⟨g, t, b⟩ x text fuel a store).automaton = a' at hends ⊢
    cases hends with
    | accept hs _ => exact hpath
    | shift hs haction _ =>
      simp only [hs] at hpath ⊢
      exact .push hpath ((action_shift_iff hg ht).1 haction).2

/-- The stacks of the automata that calls lead to. -/
theorem path_of_reached (hg : g.WellFormed) (ht : (build g).result = .ok t) {a : Automaton}
    (ha : Machine.Reached ⟨g, t, b⟩ a) : Path g a.states :=
  ha.induction (P := fun a => Path g a.states) .bottom fun _ _ _ _ _ h hout => h.feed hg ht hout

end Table

/-! ## Checks -/

namespace Machine

variable {m : Machine} {x : Symbol} {states : List Nat} {s s' : Scratch} {n : Nat}

/-- The check for a terminal comes to a scratch stack after `n` reductions. -/
inductive Checks (m : Machine) (x : Symbol) (states : List Nat) : Nat → Scratch → Prop
  | whole : m.Checks x states 0 (.whole states)
  | reduction {n top p : Nat} {s s' : Scratch} (h : m.Checks x states n s)
      (hround : m.checkRound x states s = .ok (.reduction top p s')) :
      m.Checks x states (n + 1) s'

theorem action_of_checkRound {top p : Nat}
    (h : m.checkRound x states s = .ok (.reduction top p s')) :
    s.top? states = some top ∧ m.table.action top x = .ok (.reduce p) := by
  simp only [checkRound, bind, Except.bind, pure, Except.pure] at h
  cases htop : s.top? states with
  | none => simp [htop] at h
  | some top' =>
    simp only [htop] at h
    cases haction : m.table.action top' x with
    | error f => simp [haction] at h
    | ok action =>
      cases action with
      | shift | accept | error => simp [haction] at h
      | reduce p' =>
        simp only [haction] at h
        split at h
        · cases h
        · split at h
          · split at h
            · split at h
              · cases h
              · split at h <;> cases h
                exact ⟨rfl, haction⟩
            · cases h
          · cases h

/-- What a check does on a stack that settles: the reduction that the table dictates is
    made, and what is left settles too. -/
theorem checkRound_of_settles (hm : m.table.Bounded m.grammar) (hover : s.Over states)
    (h : m.Settles x (s.view states)) : ∃ top, s.top? states = some top ∧
      ∀ p, m.table.action top x = .ok (.reduce p) →
        ∃ s', m.checkRound x states s = .ok (.reduction top p s') ∧ s'.Over states ∧
          m.Settles x (s'.view states) ∧ ∀ c o, m.Replays x (s'.view states) c o →
            m.Replays x (s.view states) (c + 1) o := by
  obtain ⟨top, below, hview⟩ := List.exists_cons_of_ne_nil (Scratch.view_ne_nil hover)
  refine ⟨top, by rw [Scratch.top?_eq, hview]; rfl, fun p haction => ?_⟩
  obtain ⟨production, hproduction, hp⟩ := exists_production hm haction
  have hreduction := reduction?_of_action haction hp
  rw [hview] at h ⊢
  cases h with
  | ends h => rw [hreduction] at h; cases h
  | @goes _ n state next _ rest lhs h hd hnext hs =>
    rw [hreduction, Option.some.injEq, Prod.mk.injEq] at h
    obtain ⟨rfl, rfl⟩ := h
    cases hpop : s.pop? production.rhs.length with
    | none =>
      rw [Scratch.pop?_eq_none_iff hover, hview, hd] at hpop
      cases hpop
    | some popped =>
      obtain ⟨hover', hpopped⟩ := Scratch.view_pop? hover hpop
      rw [hview, hd] at hpopped
      refine ⟨popped.push next, ?_, hover'.push next, ?_, fun c o hc => ?_⟩
      · simp only [checkRound, Scratch.top?_eq, hview, hpopped, List.head?_cons, haction,
          hproduction, hpop, next?_eq_some_iff.1 hnext, bind, Except.bind, pure, Except.pure]
      · rwa [Scratch.view_push, hpopped]
      · rw [Scratch.view_push, hpopped] at hc
        exact .goes hreduction hd hnext hc

/-- On a stack that settles, a check has a bound and can make all its reductions. -/
theorem Checks.of_settles (hm : m.table.Bounded m.grammar) (hne : states ≠ [])
    (h : m.Settles x states) (hs : m.Checks x states n s) :
    s.Over states ∧ m.Settles x (s.view states) ∧ ∀ c o, m.Replays x (s.view states) c o →
      m.Replays x states (n + c) o := by
  induction hs with
  | whole =>
    rw [Scratch.view_whole]
    exact ⟨Scratch.over_whole hne, h, fun c o hc => (Nat.zero_add c).symm ▸ hc⟩
  | @reduction n top p s s' _ hround ih =>
    obtain ⟨hover, hsettles, hreplays⟩ := ih
    obtain ⟨htop, haction⟩ := action_of_checkRound hround
    obtain ⟨top', htop', hall⟩ := checkRound_of_settles hm hover hsettles
    obtain rfl := Option.some.inj (htop.symm.trans htop')
    obtain ⟨s'', hround', hover', hsettles', hreplays'⟩ := hall p haction
    rw [hround, Except.ok.injEq, Round.reduction.injEq] at hround'
    obtain ⟨-, -, rfl⟩ := hround'
    refine ⟨hover', hsettles', fun c o hc => ?_⟩
    rw [Nat.add_assoc, Nat.add_comm 1 c]
    exact hreplays _ o (hreplays' c o hc)

/-- On a stack that settles, a check answers. -/
theorem exists_check_of_settles (hm : m.table.Bounded m.grammar) {a : Automaton}
    (ha : m.Balanced a) (h : m.Settles x a.states) : ∃ taken, m.check a x = .ok taken := by
  obtain ⟨c, hc⟩ := h.exists_replays
  have hends := (hc.checkStack_eq (c + 1) (Nat.lt_succ_self c)).2
  rw [← Scratch.view_whole a.states, ← checkFrom_eq (Scratch.over_whole ha.ne_nil)] at hends
  exact exists_check hm ha hends

/-! ## The main result -/

/-- Where a check answers, only the tree builder can break off a feed. -/
theorem feed_of_check (hm : m.table.Bounded m.grammar) {a : Automaton} (ha : m.Balanced a)
    {taken : Bool} (h : m.check a x = .ok taken) (store : Store) (text : String) :
    (∃ taken, (m.feed a store x text).outcome = .ok taken) ∨
      ∃ move f, (m.feed a store x text).outcome = .error f ∧
        m.Raises (m.feed a store x text).store x move f := by
  cases haccepted : a.accepted with
  | true => exact .inl ⟨false, by simp [feed, haccepted]⟩
  | false =>
    cases taken with
    | false => exact .inl ⟨false, by rw [feed_of_check_false store text h]⟩
    | true =>
      obtain ⟨last, -, hperforms⟩ := performs_feed hm ha store text h haccepted
      cases hperforms with
      | taken houtcome => exact .inl ⟨true, houtcome⟩
      | raised houtcome _ _ hraises => exact .inr ⟨_, _, houtcome, hraises⟩

/-- On the table built for a grammar, with any tree builder, an automaton that calls lead
    to can be checked for every symbol. The check makes fewer reductions than its bound
    allows, and each reduction that the table dictates leaves a state that goes on with its
    nonterminal. Feeding comes to an end as well, and only the tree builder raises faults
    there. -/
theorem feed_ends_of_build {g : Lowered} (hg : g.Made) {t : Table}
    (ht : (Table.build g).result = .ok t) (b : TreeBuilder) {a : Automaton}
    (ha : Reached ⟨g, t, b⟩ a) (x : Symbol) :
    (∃ taken, check ⟨g, t, b⟩ a x = .ok taken) ∧
      (∀ n s, Checks ⟨g, t, b⟩ x a.states n s → n < bound ⟨g, t, b⟩ a.states.length ∧
        ∃ top, s.top? a.states = some top ∧ ∀ p, t.action top x = .ok (.reduce p) →
          ∃ s', checkRound ⟨g, t, b⟩ x a.states s = .ok (.reduction top p s')) ∧
      ∀ store text, (∃ taken, (feed ⟨g, t, b⟩ a store x text).outcome = .ok taken) ∨
        ∃ move f, (feed ⟨g, t, b⟩ a store x text).outcome = .error f ∧ f.isOfLoop = false ∧
          Raises ⟨g, t, b⟩ (feed ⟨g, t, b⟩ a store x text).store x move f := by
  have hm : t.Bounded g := Table.bounded_of_build hg.wellFormed ht
  have hbalanced := ha.balanced hm
  have hsettles : Settles ⟨g, t, b⟩ x a.states :=
    (Table.path_of_reached hg.wellFormed ht ha).settles hg.wellFormed ht x
  obtain ⟨taken, hcheck⟩ := exists_check_of_settles hm hbalanced hsettles
  refine ⟨⟨taken, hcheck⟩, fun n s hs => ?_, fun store text => ?_⟩
  · obtain ⟨hover, hsettles', hreplays⟩ := hs.of_settles hm hbalanced.ne_nil hsettles
    obtain ⟨c, hc⟩ := hsettles'.exists_replays
    have hbound := (hreplays c none hc).lt_bound
    obtain ⟨top, htop, hall⟩ := checkRound_of_settles hm hover hsettles'
    refine ⟨by omega, top, htop, fun p hp => ?_⟩
    obtain ⟨s', hround, -⟩ := hall p hp
    exact ⟨s', hround⟩
  · rcases feed_of_check hm hbalanced hcheck store text with h | ⟨move, f, hout, hraises⟩
    · exact .inl h
    · exact .inr ⟨move, f, hout, hraises.isOfLoop, hraises⟩

/-- After an `a` of nested pairs, a `b` reduces nothing to an `S`, and the check ends. -/
theorem feed_ends_of_build_nested : ∃ t, (Table.build .nested).result = .ok t ∧
    ∃ a, Reached ⟨.nested, t, .ofLowered .nested (.ofLowered .nested)⟩ a ∧ a.values.length = 1 ∧
      ∃ taken, check ⟨.nested, t, .ofLowered .nested (.ofLowered .nested)⟩ a 2 = .ok taken := by
  have hfeeds : ((Table.build .nested).result.toOption.bind fun t =>
      (feedAll ⟨.nested, t, .ofLowered .nested (.ofLowered .nested)⟩ .initial (.empty 0)
        [(1, "a")]).map fun r => r.1.values.length) = some 1 := by decide +kernel
  cases h : (Table.build .nested).result with
  | error f =>
    rw [h] at hfeeds
    cases hfeeds
  | ok t =>
    rw [h] at hfeeds
    obtain ⟨⟨a, store⟩, hfed, hlength⟩ := Option.map_eq_some_iff.1 hfeeds
    have ha := reached_initial.feedAll hfed
    exact ⟨t, rfl, a, ha, hlength,
      (feed_ends_of_build (.inr ⟨_, _, _, _, Lowered.ofParts_nested⟩) h _ ha 2).1⟩

end Machine

end LanguageWorkbench
