import LanguageWorkbench.Proofs.Derivation
import LanguageWorkbench.Proofs.ReductionBound

/-!
# Checking and running agree

`Machine.feed` runs only after a check on the state stack alone. Where the check
succeeds and the tree builder does its part, the run shifts or accepts; where the run
does so, the check succeeds. So feeding can be described by runs, whatever fuel they
are given.

Results:
* `Machine.reductions_of_run`: a run is made of reductions and a last move.
* `Machine.run_of_checkStack`, `Machine.checkStack_of_run`: the two directions.
* `Machine.feed_eq_run`, `Machine.run_of_feed`: feeding is running.
* `Machine.feedAll`: feeding one terminal after another.
-/

namespace LanguageWorkbench

namespace Machine

variable {m : Machine} {x : Symbol} {text : String}

/-- The tree builder has a value for everything that the table shifts or reduces. -/
structure Serves (m : Machine) : Prop where
  leaf : ∀ {n next : Nat} {x : Symbol} (store : Store) (text : String),
    m.table.action n x = .ok (.shift next) → ∃ r, m.builder.leaf store x text = .ok r
  reduce : ∀ {n p : Nat} {x : Symbol} {production : Production} (store : Store)
    (values : List Node), m.table.action n x = .ok (.reduce p) →
    m.grammar.productions[p]? = some production → values.length = production.rhs.length →
    ∃ r, m.builder.reduce store p values = .ok r

/-! ## One reduction -/

/-- A reduction that succeeds: what it pops, what it builds and where it goes. -/
theorem reduceOnce_eq_ok_iff {a a' : Automaton} {store store' : Store} {p : Nat} :
    m.reduceOnce a store p = (a', store', .ok ()) ↔
      ∃ production state rest next value, m.grammar.productions[p]? = some production ∧
        production.rhs.length ≤ a.values.length ∧
        m.builder.reduce store p (a.values.take production.rhs.length).reverse =
          .ok (value, store') ∧
        a.states.drop production.rhs.length = state :: rest ∧
        m.table.goto? state production.lhs = .ok (some next) ∧
        a' = ⟨next :: state :: rest, value :: a.values.drop production.rhs.length, a.accepted⟩ := by
  constructor
  · intro h
    simp only [reduceOnce, production] at h
    cases hp : m.grammar.productions[p]? with
    | none => simp [hp] at h
    | some production =>
      simp only [hp] at h
      split_ifs at h with hlen
      · simp at h
      · cases hr : m.builder.reduce store p (a.values.take production.rhs.length).reverse with
        | error f => simp [hr] at h
        | ok r =>
          obtain ⟨value, store₁⟩ := r
          simp only [hr] at h
          cases hd : a.states.drop production.rhs.length with
          | nil => simp [hd] at h
          | cons state rest =>
            simp only [hd] at h
            cases hg : m.table.goto? state production.lhs with
            | error f => simp [hg] at h
            | ok next =>
              cases next with
              | none => simp [hg] at h
              | some next =>
                simp only [hg, Prod.mk.injEq, and_true] at h
                exact ⟨production, state, rest, next, value, rfl, Nat.le_of_not_lt hlen,
                  by rw [hr, h.2], hd, hg, h.1.symm⟩
  · rintro ⟨production, state, rest, next, value, hp, hlen, hr, hd, hg, rfl⟩
    simp [reduceOnce, Machine.production, hp, Nat.not_lt.2 hlen, hr, hd, hg]

theorem reduction?_of_action {top p : Nat} {production : Production}
    (h : m.table.action top x = .ok (.reduce p))
    (hp : m.grammar.productions[p]? = some production) :
    m.reduction? x top = some (production.rhs.length, production.lhs) := by
  simp [reduction?, h, Machine.production, hp]

/-! ## What a run is made of -/

/-- One reduction of a run for a terminal. -/
inductive Reduces (m : Machine) (x : Symbol) : Automaton × Store → Automaton × Store → Prop
  | reduce {a a' : Automaton} {store store' : Store} {top p : Nat} {below : List Nat}
      (hs : a.states = top :: below) (haction : m.table.action top x = .ok (.reduce p))
      (h : m.reduceOnce a store p = (a', store', .ok ())) : m.Reduces x (a, store) (a', store')

/-- The move that takes a terminal, with what is there before and after it. -/
inductive Ends (m : Machine) (x : Symbol) (text : String) :
    Move → Automaton × Store → Automaton × Store → Prop
  | shift {a : Automaton} {store store' : Store} {top next : Nat} {below : List Nat} {value : Node}
      (hs : a.states = top :: below) (haction : m.table.action top x = .ok (.shift next))
      (hleaf : m.builder.leaf store x text = .ok (value, store')) :
      m.Ends x text (.shift top text next) (a, store)
        (⟨next :: a.states, value :: a.values, a.accepted⟩, store')
  | accept {a : Automaton} {store : Store} {top : Nat} {below : List Nat}
      (hs : a.states = top :: below) (haction : m.table.action top x = .ok .accept) :
      m.Ends x text (.accept top) (a, store) ({ a with accepted := true }, store)

/-- A run that is not broken off makes reductions and then takes the terminal. -/
theorem reductions_of_run : ∀ {fuel : Nat} {a : Automaton} {store : Store} {taken : Bool},
    (m.run x text fuel a store).outcome = .ok taken → taken = true ∧
      ∃ c last, Relation.ReflTransGen (m.Reduces x) (a, store) c ∧
        (m.run x text fuel a store).moves.getLast? = some last ∧ m.Ends x text last c
          ((m.run x text fuel a store).automaton, (m.run x text fuel a store).store) := by
  intro fuel
  induction fuel with
  | zero => intro a store taken h; simp [run, Fed.broken] at h
  | succ fuel ih =>
    intro a store taken h
    simp only [run] at h ⊢
    cases hs : a.states with
    | nil => simp [hs, Fed.broken] at h
    | cons top below =>
      simp only [hs] at h ⊢
      cases haction : m.table.action top x with
      | error f => simp [haction, Fed.broken] at h
      | ok action =>
        simp only [haction] at h ⊢
        cases action with
        | error => simp [Fed.broken] at h
        | accept =>
          refine ⟨(Except.ok.inj h).symm, _, _, .refl, rfl, ?_⟩
          rw [← hs]
          exact .accept hs haction
        | shift next =>
          simp only [shift] at h ⊢
          cases hleaf : m.builder.leaf store x text with
          | error f => simp [hleaf, Fed.broken] at h
          | ok r =>
            simp only [hleaf] at h
            exact ⟨(Except.ok.inj h).symm, _, _, .refl, rfl, .shift hs haction hleaf⟩
        | reduce p =>
          simp only at h ⊢
          split at h
          · simp [Fed.broken] at h
          · rename_i a' store' hr
            -- one more reduction in front of those of the rest of the run
            obtain ⟨htaken, c, last, hreduces, hlast, hends⟩ := ih h
            refine ⟨htaken, c, last, .head (.reduce hs haction hr) hreduces, ?_, hends⟩
            rw [Fed.after, List.getLast?_cons, hlast]
            rfl

/-! ## Runs and checks -/

/-- A run that takes the terminal has been checked. -/
theorem checkStack_of_run : ∀ {fuel : Nat} {a : Automaton} {store : Store},
    (m.run x text fuel a store).outcome = .ok true → m.checkStack x fuel a.states = .ok true := by
  intro fuel
  induction fuel with
  | zero => intro a store h; simp [run, Fed.broken] at h
  | succ fuel ih =>
    intro a store h
    simp only [run] at h
    cases hs : a.states with
    | nil => simp [hs, Fed.broken] at h
    | cons top below =>
      simp only [hs] at h
      cases haction : m.table.action top x with
      | error f => simp [haction, Fed.broken] at h
      | ok action =>
        cases action with
        | shift next => simp [checkStack, haction, bind, Except.bind, pure, Except.pure]
        | accept => simp [checkStack, haction, bind, Except.bind, pure, Except.pure]
        | error => simp [haction, Fed.broken] at h
        | reduce p =>
          simp only [haction] at h
          split at h
          · simp [Fed.broken] at h
          · rename_i a' store' hr
            obtain ⟨production, state, rest, next, value, hp, -, -, hd, hg, rfl⟩ :=
              reduceOnce_eq_ok_iff.1 hr
            rw [checkStack_of_reduction? (reduction?_of_action haction hp)]
            rw [hs] at hd
            simp only [hd, hg]
            exact ih h

/-- After a successful check the run takes the terminal, if the builder does its part.
    The stack of states stays longer by one than the stack of values. -/
theorem run_of_checkStack (hm : m.Serves) : ∀ {fuel : Nat} {a : Automaton} {store : Store},
    m.checkStack x fuel a.states = .ok true → a.states.length = a.values.length + 1 →
      (m.run x text fuel a store).outcome = .ok true := by
  intro fuel
  induction fuel with
  | zero => intro a store h; simp [checkStack] at h
  | succ fuel ih =>
    intro a store h hlen
    simp only [run]
    cases hs : a.states with
    | nil => simp [hs] at hlen
    | cons top below =>
      rw [hs] at h
      cases haction : m.table.action top x with
      | error f => simp [checkStack, haction, bind, Except.bind] at h
      | ok action =>
        cases action with
        | shift next =>
          obtain ⟨r, hr⟩ := hm.leaf store text haction
          simp [haction, shift, hr]
        | accept => simp [haction]
        | error => simp [checkStack, haction, bind, Except.bind, pure, Except.pure] at h
        | reduce p =>
          cases hp : m.grammar.productions[p]? with
          | none => simp [checkStack, haction, Machine.production, hp, bind, Except.bind] at h
          | some production =>
            rw [checkStack_of_reduction? (reduction?_of_action haction hp)] at h
            cases hd : (top :: below).drop production.rhs.length with
            | nil => simp [hd] at h
            | cons state rest =>
              simp only [hd] at h
              have hrest := congrArg List.length hd
              rw [List.length_drop, ← hs, hlen, List.length_cons] at hrest
              cases hg : m.table.goto? state production.lhs with
              | error f => simp [hg] at h
              | ok next =>
                cases next with
                | none => simp [hg] at h
                | some next =>
                  simp only [hg] at h
                  obtain ⟨⟨value, store'⟩, hr⟩ := hm.reduce store
                    (a.values.take production.rhs.length).reverse haction hp
                    (by rw [List.length_reverse, List.length_take]; omega)
                  -- the stacks have lost as many states as values, so their lengths still differ by one
                  have honce := reduceOnce_eq_ok_iff.2 ⟨production, state, rest, next, value, hp,
                    by omega, hr, hs ▸ hd, hg, rfl⟩
                  simp only [haction, honce]
                  refine ih h ?_
                  simp only [List.length_cons, List.length_drop]
                  omega

/-- More fuel does not change a run that takes the terminal. -/
theorem run_add : ∀ {fuel : Nat} {a : Automaton} {store : Store},
    (m.run x text fuel a store).outcome = .ok true → ∀ more,
      m.run x text (fuel + more) a store = m.run x text fuel a store := by
  intro fuel
  induction fuel with
  | zero => intro a store h; simp [run, Fed.broken] at h
  | succ fuel ih =>
    intro a store h more
    rw [Nat.succ_add]
    simp only [run] at h ⊢
    cases hs : a.states with
    | nil => rfl
    | cons top below =>
      simp only [hs] at h ⊢
      cases haction : m.table.action top x with
      | error f => rfl
      | ok action =>
        cases action with
        | shift | accept | error => rfl
        | reduce p =>
          simp only [haction] at h ⊢
          split at h
          · simp [Fed.broken] at h
          · rename_i a' store' hr
            rw [ih h more]

/-! ## Feeding -/

/-- A run that takes the terminal, with whatever fuel, is what feeding does. -/
theorem feed_eq_run (hm : m.Serves) {a : Automaton} {store : Store} {fuel : Nat}
    (haccepted : a.accepted = false) (hlen : a.states.length = a.values.length + 1)
    (h : (m.run x text fuel a store).outcome = .ok true) :
    m.feed a store x text = m.run x text fuel a store := by
  have hne : a.states ≠ [] := by
    intro he
    simp [he] at hlen
  have hcheck := checkStack_of_run h
  have hbound : m.checkStack x (m.bound a.states.length) a.states = .ok true :=
    (checkStack_bound hne (by rw [hcheck]; simp)).trans hcheck
  have hrun : (m.run x text (m.bound a.states.length) a store).outcome = .ok true :=
    run_of_checkStack hm hbound hlen
  have heq : m.run x text (m.bound a.states.length) a store = m.run x text fuel a store := by
    rcases Nat.le_total fuel (m.bound a.states.length) with hle | hle
    · obtain ⟨more, hmore⟩ := Nat.exists_eq_add_of_le hle
      rw [hmore]
      exact run_add h more
    · obtain ⟨more, hmore⟩ := Nat.exists_eq_add_of_le hle
      rw [hmore]
      exact (run_add hrun more).symm
  simp [feed, haccepted, check_eq hne, hbound, heq]

/-- Feeding that takes the terminal is a run. -/
theorem run_of_feed {a : Automaton} {store : Store}
    (h : (m.feed a store x text).outcome = .ok true) :
    a.accepted = false ∧ ∃ fuel, m.feed a store x text = m.run x text fuel a store := by
  unfold feed at h ⊢
  cases haccepted : a.accepted with
  | true => simp [haccepted] at h
  | false =>
    simp only [haccepted, Bool.false_eq_true, if_false] at h ⊢
    cases hcheck : m.check a x with
    | error f => simp [hcheck, Fed.broken] at h
    | ok taken =>
      cases taken with
      | false => simp [hcheck] at h
      | true => exact ⟨trivial, _, rfl⟩

/-- Feeding that refuses the terminal leaves the automaton and the store alone. -/
theorem feed_of_outcome_false {a : Automaton} {store : Store}
    (h : (m.feed a store x text).outcome = .ok false) :
    m.feed a store x text = ⟨a, store, [], .ok false⟩ := by
  unfold feed at h ⊢
  split_ifs with haccepted
  · rfl
  · simp only [haccepted, Bool.false_eq_true, if_false] at h
    cases hcheck : m.check a x with
    | error f => simp [hcheck, Fed.broken] at h
    | ok taken =>
      cases taken with
      | false => rfl
      | true =>
        simp only [hcheck] at h
        exact absurd (reductions_of_run h).1 Bool.false_ne_true

/-- Feeds terminals one after another, as long as each is taken. -/
def feedAll (m : Machine) : Automaton → Store → List Terminal → Option (Automaton × Store)
  | a, store, [] => some (a, store)
  | a, store, (x, text) :: rest =>
    let fed := m.feed a store x text
    match fed.outcome with
    | .ok true => feedAll m fed.automaton fed.store rest
    | _ => none

theorem feedAll_cons {a : Automaton} {store : Store} {y : Terminal} {rest : List Terminal}
    (h : (m.feed a store y.1 y.2).outcome = .ok true) :
    m.feedAll a store (y :: rest) =
      m.feedAll (m.feed a store y.1 y.2).automaton (m.feed a store y.1 y.2).store rest := by
  simp [feedAll, h]

theorem outcome_of_feedAll {a : Automaton} {store : Store} {y : Terminal} {rest : List Terminal}
    {r : Automaton × Store} (h : m.feedAll a store (y :: rest) = some r) :
    (m.feed a store y.1 y.2).outcome = .ok true := by
  simp only [feedAll] at h
  split at h
  · rename_i hok; exact hok
  · cases h

end Machine

end LanguageWorkbench
