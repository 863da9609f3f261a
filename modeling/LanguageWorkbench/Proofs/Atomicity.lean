import LanguageWorkbench.Proofs.Conflicts
import LanguageWorkbench.Proofs.ReductionBound
import LanguageWorkbench.Proofs.Serving

/-!
# A terminal is taken as checked, or not at all

Whatever the table, as long as its states and productions exist, and whatever was fed,
reset or cloned before: where the check says no, nothing has changed, and where it says
yes, the run makes the reductions that the check replayed and takes the terminal. Only
the tree builder can stop it on the way.

Results:
* `Table.Over`: tables that were built, or given by hand with what they name in range.
* `Machine.Reached`: the automata that calls lead to.
* `Machine.performs_of_checkFrom`: a run does what its check replayed.
* `Machine.feed_of_reached`: rejection is atomic, and acceptance is as checked.
-/

namespace LanguageWorkbench

/-! ## Tables in range -/

namespace Table

/-- The action names a state of the table or a production of the grammar, if any. -/
def inRangeAction (t : Table) (g : Lowered) : Action → Bool
  | .shift n => n < t.size
  | .reduce p => p < g.productions.size
  | .accept | .error => true

/-- All states and productions that the states of the table name are there. -/
def inRange (t : Table) (g : Lowered) : Bool :=
  t.states.toList.all fun s => t.inRangeAction g s.default &&
    s.actions.all (fun entry => t.inRangeAction g entry.2) &&
    s.gotos.all fun entry => entry.2 < t.size

/-- The table was built from the grammar, or it was made of states by hand, and what
    these name is in range. -/
def Over (t : Table) (g : Lowered) : Prop :=
  (build g).result = .ok t ∨ ∃ states, ofStates states = .ok t ∧ t.inRange g = true

/-- What the entries of a table name is in range. -/
structure Bounded (t : Table) (g : Lowered) : Prop where
  pos : 0 < t.size
  shift : ∀ {n m : Nat} {x : Symbol}, t.action n x = .ok (.shift m) → m < t.size
  reduce : ∀ {n p : Nat} {x : Symbol}, t.action n x = .ok (.reduce p) → p < g.productions.size
  goto : ∀ {n m : Nat} {x : Symbol}, t.goto? n x = .ok (some m) → m < t.size

variable {g : Lowered} {t : Table}

theorem exists_action {n : Nat} (h : n < t.size) (x : Symbol) : ∃ a, t.action n x = .ok a :=
  ⟨_, action_eq (Array.getElem?_eq_getElem h) x⟩

theorem exists_goto? {n : Nat} (h : n < t.size) (x : Symbol) : ∃ o, t.goto? n x = .ok o :=
  ⟨_, goto?_eq (Array.getElem?_eq_getElem h) x⟩

theorem bounded_of_build (hg : g.WellFormed) (h : (build g).result = .ok t) : t.Bounded g := by
  have hsize : (Collection.ofLowered g).length = t.size := by
    simpa [size] using (build_spec h).length_eq
  obtain ⟨kernels, -, hzero, hlen, hspec⟩ := Collection.ofLowered_spec hg
  have htarget : ∀ {n m : Nat} {x : Symbol}, Collection.target? g n x = some m →
      m < t.size := by
    intro n m x hm
    obtain ⟨c, hc⟩ := Collection.exists_of_target? hm
    have hk := (hspec n c hc).2.targets x m ((Collection.target?_eq_some_iff hg hc).1 hm)
    rw [← hsize, hlen]
    exact (Array.getElem?_eq_some_iff.1 hk).1
  refine ⟨?_, fun ha => ?_, fun ha => ?_, fun hm => ?_⟩
  · rw [← hsize, hlen]
    exact (Array.getElem?_eq_some_iff.1 hzero).1
  · exact htarget ((action_shift_iff hg h).1 ha).2
  · have hlooks := ((action_reduce_iff hg h).1 ha).2
    exact ((Collection.valid_items hg _).inRange _ hlooks.has).1
  · exact htarget ((goto?_iff hg h).1 hm).2

theorem bounded_of_inRange {states : List TableState} (h : ofStates states = .ok t)
    (hrange : t.inRange g = true) : t.Bounded g := by
  have hpos : 0 < t.size := by
    unfold ofStates at h
    split_ifs at h with he
    cases h
    simpa [size, List.length_pos_iff] using he
  have hstate : ∀ {n : Nat} {s : TableState}, t.states[n]? = some s →
      t.inRangeAction g s.default = true ∧
        (∀ entry ∈ s.actions, t.inRangeAction g entry.2 = true) ∧
        ∀ entry ∈ s.gotos, entry.2 < t.size := by
    intro n s hs
    have := List.all_eq_true.1 hrange s (Array.mem_toList_iff.2 (Array.mem_of_getElem? hs))
    simp only [Bool.and_eq_true, List.all_eq_true, decide_eq_true_eq] at this
    exact ⟨this.1.1, this.1.2, this.2⟩
  have haction : ∀ {n : Nat} {x : Symbol} {a : Action}, t.action n x = .ok a →
      t.inRangeAction g a = true := by
    intro n x a ha
    cases hs : t.states[n]? with
    | none => simp only [action, state, hs] at ha; cases ha
    | some s =>
      rw [action_eq hs, Except.ok.injEq] at ha
      subst ha
      obtain ⟨hdefault, hactions, -⟩ := hstate hs
      cases hlookup : s.actions.lookup x with
      | none => exact hdefault
      | some b =>
        exact hactions (x, b) (mem_of_lookup hlookup)
  refine ⟨hpos, fun ha => ?_, fun ha => ?_, fun {n m x} hm => ?_⟩
  · simpa [inRangeAction] using haction ha
  · simpa [inRangeAction] using haction ha
  · cases hs : t.states[n]? with
    | none => simp only [goto?, state, hs] at hm; cases hm
    | some s =>
      rw [goto?_eq hs, Except.ok.injEq] at hm
      exact (hstate hs).2.2 (x, m) (mem_of_lookup hm)

theorem Over.bounded (hg : g.WellFormed) (h : t.Over g) : t.Bounded g := by
  rcases h with h | ⟨states, h, hrange⟩
  · exact bounded_of_build hg h
  · exact bounded_of_inRange h hrange

end Table

namespace Machine

variable {m : Machine} {x : Symbol} {text : String}

/-! ## What calls lead to -/

/-- What can be done to one of several automata, which is given by its number. -/
inductive Call where
  | feed (on : Nat) (store : Store) (terminal : Symbol) (text : String)
  | reset (on : Nat)
  /-- A copy becomes one more automaton. -/
  | clone (on : Nat)

/-- The automata after a call, unless the call is broken off. -/
def call (m : Machine) (pool : List Automaton) : Call → Option (List Automaton)
  | .feed on store terminal text => do
    let fed := m.feed (← pool[on]?) store terminal text
    if fed.outcome.toBool then some (pool.set on fed.automaton) else none
  | .reset on => do
    let _ ← pool[on]?
    return pool.set on .initial
  | .clone on => return pool ++ [← pool[on]?]

/-- The automaton is among those that calls make of a new one. -/
def Reached (m : Machine) (a : Automaton) : Prop :=
  ∃ calls pool, List.foldlM m.call [.initial] calls = some pool ∧ a ∈ pool

/-- The stack of states is longer by one than the stack of values, and the states are
    there. -/
structure Balanced (m : Machine) (a : Automaton) : Prop where
  length : a.states.length = a.values.length + 1
  lt : ∀ n ∈ a.states, n < m.table.size

theorem Balanced.ne_nil {a : Automaton} (h : m.Balanced a) : a.states ≠ [] :=
  List.ne_nil_of_length_pos (h.length ▸ Nat.succ_pos _)

theorem balanced_initial (hm : m.table.Bounded m.grammar) : m.Balanced .initial where
  length := rfl
  lt n hn := by
    rw [List.mem_singleton.1 hn]
    exact hm.pos

/-! ## Rounds of a check -/

section

variable {states : List Nat} {s s' : Scratch}

theorem exists_production (hm : m.table.Bounded m.grammar) {top p : Nat}
    (h : m.table.action top x = .ok (.reduce p)) :
    ∃ production, m.production p = .ok production ∧ m.grammar.productions[p]? = some production := by
  have hp := Array.getElem?_eq_getElem (hm.reduce h)
  exact ⟨_, by simp only [production, hp], hp⟩

/-- What a round of a check does, in terms of the stack that the scratch stack stands
    for. -/
inductive Rounds (m : Machine) (x : Symbol) (states : List Nat) (s : Scratch) : Round → Prop
  | takes {top : Nat} {below : List Nat} (hview : s.view states = top :: below)
      (h : (∃ next, m.table.action top x = .ok (.shift next)) ∨
        m.table.action top x = .ok .accept) : Rounds m x states s (.answer true)
  | refuses : Rounds m x states s (.answer false)
  | reduces {top p state next : Nat} {below rest : List Nat} {production : Production}
      {s' : Scratch} (hview : s.view states = top :: below)
      (haction : m.table.action top x = .ok (.reduce p))
      (hp : m.grammar.productions[p]? = some production)
      (hdrop : (top :: below).drop production.rhs.length = state :: rest)
      (hgoto : m.table.goto? state production.lhs = .ok (some next)) (hover : s'.Over states)
      (hview' : s'.view states = next :: state :: rest) :
      Rounds m x states s (.reduction top p s')

/-- On a table in range every round comes to something. -/
theorem exists_round (hm : m.table.Bounded m.grammar) (h : s.Over states)
    (hlt : ∀ n ∈ s.view states, n < m.table.size) :
    ∃ r, m.checkRound x states s = .ok r ∧ Rounds m x states s r := by
  obtain ⟨top, below, hview⟩ := List.exists_cons_of_ne_nil (Scratch.view_ne_nil h)
  rw [hview] at hlt
  obtain ⟨action, haction⟩ := Table.exists_action (hlt top List.mem_cons_self) x
  simp only [checkRound, Scratch.top?_eq, hview, List.head?_cons, haction, bind, Except.bind,
    pure, Except.pure]
  cases action with
  | shift next => exact ⟨_, rfl, .takes hview (.inl ⟨next, haction⟩)⟩
  | accept => exact ⟨_, rfl, .takes hview (.inr haction)⟩
  | error => exact ⟨_, rfl, .refuses⟩
  | reduce p =>
    obtain ⟨production, hproduction, hp⟩ := exists_production hm haction
    simp only [hproduction]
    cases hpop : s.pop? production.rhs.length with
    | none => exact ⟨_, rfl, .refuses⟩
    | some popped =>
      obtain ⟨hover, hpopped⟩ := Scratch.view_pop? h hpop
      rw [hview] at hpopped
      obtain ⟨state, rest, hrest⟩ := List.exists_cons_of_ne_nil (Scratch.view_ne_nil hover)
      have hdrop : (top :: below).drop production.rhs.length = state :: rest :=
        hpopped.symm.trans hrest
      -- what the pops leave is part of the view, whose states are all in range
      have hstate : state ∈ top :: below :=
        List.mem_of_mem_drop (hdrop ▸ List.mem_cons_self)
      obtain ⟨next, hgoto⟩ := Table.exists_goto? (hlt state hstate) production.lhs
      simp only [hrest, List.head?_cons, hgoto]
      cases next with
      | none => exact ⟨_, rfl, .refuses⟩
      | some next =>
        refine ⟨_, rfl, .reduces hview haction hp hdrop hgoto (hover.push next) ?_⟩
        rw [Scratch.view_push, hrest]

/-- The states after a reduction are states of the table. -/
theorem lt_of_reduction (hm : m.table.Bounded m.grammar) {top n state next : Nat}
    {below rest : List Nat} {lhs : Symbol} (hlt : ∀ k ∈ top :: below, k < m.table.size)
    (hdrop : (top :: below).drop n = state :: rest)
    (hgoto : m.table.goto? state lhs = .ok (some next)) :
    ∀ k ∈ next :: state :: rest, k < m.table.size := by
  intro k hk
  rcases List.mem_cons.1 hk with rfl | hk
  · exact hm.goto hgoto
  · exact hlt k (List.mem_of_mem_drop (hdrop ▸ hk))

/-- On a table in range a check answers, unless its reductions go on for ever. -/
theorem exists_answer (hm : m.table.Bounded m.grammar) {fuel : Nat} (h : s.Over states)
    (hlt : ∀ n ∈ s.view states, n < m.table.size)
    (hends : m.checkFrom x states fuel s ≠ .error .endlessReductions) :
    ∃ taken, m.checkFrom x states fuel s = .ok taken := by
  induction fuel generalizing s with
  | zero => exact absurd rfl hends
  | succ fuel ih =>
    obtain ⟨r, hr, hround⟩ := exists_round (x := x) hm h hlt
    simp only [checkFrom, hr, bind, Except.bind, pure, Except.pure] at hends ⊢
    cases hround with
    | takes | refuses => exact ⟨_, rfl⟩
    | reduces hview _ _ hdrop hgoto hover hview' =>
      refine ih hover ?_ hends
      rw [hview']
      rw [hview] at hlt
      exact lt_of_reduction hm hlt hdrop hgoto

end

/-! ## Runs as checked -/

/-- The reductions that a check replays. -/
def replayed (m : Machine) (x : Symbol) (states : List Nat) : Nat → Scratch → List Move
  | 0, _ => []
  | fuel + 1, s =>
    match m.checkRound x states s with
    | .ok (.reduction top p s) => .reduce top p :: m.replayed x states fuel s
    | _ => []

/-- The move takes the terminal as the table says. -/
def Takes (m : Machine) (x : Symbol) (text : String) : Move → Prop
  | .shift top shifted next => shifted = text ∧ m.table.action top x = .ok (.shift next)
  | .accept top => m.table.action top x = .ok .accept
  | .reduce .. => False

/-- The tree builder raises the fault when it is called for the move. -/
def Raises (m : Machine) (store : Store) (x : Symbol) : Move → Fault → Prop
  | .shift _ text _, f => m.builder.leaf store x text = .error f
  | .reduce _ p, f => ∃ values, m.builder.reduce store p values = .error f
  | .accept _, _ => False

/-- A run makes given moves and takes the terminal with the last, unless the tree builder
    raises a fault at one of them. -/
inductive Performs (m : Machine) (x : Symbol) (moves : List Move) (fed : Fed) : Prop
  | taken (houtcome : fed.outcome = .ok true) (hmoves : fed.moves = moves)
      (hbalanced : m.Balanced fed.automaton)
  | raised {made rest : List Move} {move : Move} {f : Fault} (houtcome : fed.outcome = .error f)
      (hmoves : fed.moves = made ++ [move]) (hrest : moves = made ++ move :: rest)
      (hraises : m.Raises fed.store x move f)

theorem Performs.after {moves : List Move} {fed : Fed} (h : m.Performs x moves fed) (move : Move) :
    m.Performs x (move :: moves) (fed.after move) := by
  cases h with
  | taken houtcome hmoves hbalanced =>
    exact .taken houtcome (by rw [Fed.after, hmoves]) hbalanced
  | raised houtcome hmoves hrest hraises =>
    refine .raised houtcome ?_ (by rw [hrest, List.cons_append]) hraises
    rw [Fed.after, hmoves, List.cons_append]

/-- A state that takes a terminal does so with one move. -/
theorem exists_performs_of_takes (hm : m.table.Bounded m.grammar) {top : Nat} {below : List Nat}
    (h : (∃ next, m.table.action top x = .ok (.shift next)) ∨
      m.table.action top x = .ok .accept) (text : String) (fuel : Nat) :
    ∃ last, m.Takes x text last ∧ ∀ a store, a.states = top :: below → m.Balanced a →
      m.Performs x [last] (m.run x text (fuel + 1) a store) := by
  rcases h with ⟨next, h⟩ | h
  · refine ⟨.shift top text next, ⟨rfl, h⟩, fun a store hs ha => ?_⟩
    simp only [run, hs, h, shift]
    cases hleaf : m.builder.leaf store x text with
    | error f => exact .raised rfl (List.nil_append _).symm (List.nil_append _).symm hleaf
    | ok r =>
      refine .taken rfl rfl ⟨by simpa [hs] using ha.length, fun n hn => ?_⟩
      rcases List.mem_cons.1 hn with rfl | hn
      · exact hm.shift h
      · exact ha.lt n (hs ▸ hn)
  · refine ⟨.accept top, h, fun a store hs ha => ?_⟩
    simp only [run, hs, h]
    exact .taken rfl rfl ⟨hs ▸ ha.length, fun n hn => ha.lt n (hs ▸ hn)⟩

/-- A reduction that the check made can be made, unless the builder raises a fault. -/
theorem reduceOnce_of_check {a : Automaton} (store : Store) {p state next : Nat} {rest : List Nat}
    {production : Production} (hlength : a.states.length = a.values.length + 1)
    (hp : m.grammar.productions[p]? = some production)
    (hdrop : a.states.drop production.rhs.length = state :: rest)
    (hgoto : m.table.goto? state production.lhs = .ok (some next)) :
    (∃ value store', m.reduceOnce a store p = (⟨next :: state :: rest,
        value :: a.values.drop production.rhs.length, a.accepted⟩, store', .ok ())) ∨
      ∃ a' f values, m.reduceOnce a store p = (a', store, .error f) ∧
        m.builder.reduce store p values = .error f := by
  have hlen : production.rhs.length ≤ a.values.length := by
    have := congrArg List.length hdrop
    rw [List.length_drop, List.length_cons] at this
    omega
  cases hreduce : m.builder.reduce store p (a.values.take production.rhs.length).reverse with
  | error f =>
    refine .inr ⟨⟨a.states.drop production.rhs.length, a.values.drop production.rhs.length,
      a.accepted⟩, f, _, ?_, hreduce⟩
    simp only [reduceOnce, Machine.production, hp, Nat.not_lt.2 hlen, if_false, hreduce]
  | ok result =>
    exact .inl ⟨result.1, result.2, reduceOnce_eq_ok_iff.2
      ⟨production, state, rest, next, result.1, hp, hlen, hreduce, hdrop, hgoto, rfl⟩⟩

/-- A run makes the reductions that its check replayed and then takes the terminal. -/
theorem exists_performs_of_checkFrom (hm : m.table.Bounded m.grammar) {states : List Nat}
    (text : String) {fuel : Nat} {s : Scratch} (h : s.Over states)
    (hlt : ∀ n ∈ s.view states, n < m.table.size)
    (hcheck : m.checkFrom x states fuel s = .ok true) :
    ∃ last, m.Takes x text last ∧ ∀ a store, a.states = s.view states → m.Balanced a →
      m.Performs x (m.replayed x states fuel s ++ [last]) (m.run x text fuel a store) := by
  induction fuel generalizing s with
  | zero => cases hcheck
  | succ fuel ih =>
    obtain ⟨r, hr, hround⟩ := exists_round (x := x) hm h hlt
    simp only [checkFrom, hr, bind, Except.bind, pure, Except.pure] at hcheck
    simp only [replayed, hr]
    cases hround with
    | refuses => cases hcheck
    | takes htop htakes =>
      rw [htop]
      exact exists_performs_of_takes hm htakes text fuel
    | @reduces top p state next below rest production s' htop haction hp hdrop hgoto hover hview' =>
      rw [htop] at hlt ⊢
      have hlt' := lt_of_reduction hm hlt hdrop hgoto
      obtain ⟨last, hlast, hperforms⟩ := ih hover (hview' ▸ hlt') hcheck
      refine ⟨last, hlast, fun a store hs ha => ?_⟩
      simp only [run, hs, haction]
      rw [← hs] at hdrop
      rcases reduceOnce_of_check store ha.length hp hdrop hgoto with
        ⟨value, store', heq⟩ | ⟨a', f, values, heq, hraises⟩
      · simp only [heq]
        refine (hperforms _ store' hview'.symm ⟨?_, hlt'⟩).after _
        have hrest := congrArg List.length hdrop
        have := ha.length
        simp only [List.length_drop, List.length_cons] at hrest ⊢
        omega
      · simp only [heq]
        exact .raised rfl (List.nil_append _).symm (List.nil_append _).symm ⟨values, hraises⟩

/-! ## Feeding -/

/-- On a table in range, a check that ends has an answer, which the bound gives as any
    other fuel. -/
theorem exists_check (hm : m.table.Bounded m.grammar) {a : Automaton} (ha : m.Balanced a)
    {fuel : Nat} (hends : m.checkFrom x a.states fuel (.whole a.states) ≠ .error .endlessReductions) :
    ∃ taken, m.check a x = .ok taken := by
  have hover := Scratch.over_whole ha.ne_nil
  rw [checkFrom_eq hover, Scratch.view_whole] at hends
  refine exists_answer hm hover (by rw [Scratch.view_whole]; exact ha.lt) ?_
  rwa [checkFrom_eq hover, Scratch.view_whole, checkStack_bound ha.ne_nil hends]

theorem feed_of_check_false {a : Automaton} (store : Store) (text : String)
    (h : m.check a x = .ok false) : m.feed a store x text = ⟨a, store, [], .ok false⟩ := by
  simp [feed, h]

theorem performs_feed (hm : m.table.Bounded m.grammar) {a : Automaton} (ha : m.Balanced a)
    (store : Store) (text : String) (h : m.check a x = .ok true) (haccepted : a.accepted = false) :
    ∃ last, m.Takes x text last ∧ m.Performs x
      (m.replayed x a.states (m.bound a.states.length) (.whole a.states) ++ [last])
      (m.feed a store x text) := by
  obtain ⟨last, hlast, hperforms⟩ := exists_performs_of_checkFrom hm text
    (Scratch.over_whole ha.ne_nil) (by rw [Scratch.view_whole]; exact ha.lt) h
  refine ⟨last, hlast, ?_⟩
  have hfeed : m.feed a store x text = m.run x text (m.bound a.states.length) a store := by
    simp [feed, haccepted, h]
  rw [hfeed]
  exact hperforms a store (Scratch.view_whole _).symm ha

/-- Feeding that is not broken off keeps an automaton balanced. -/
theorem Balanced.feed (hm : m.table.Bounded m.grammar) {a : Automaton} (ha : m.Balanced a)
    {store : Store} {taken : Bool} (h : (m.feed a store x text).outcome = .ok taken) :
    m.Balanced (m.feed a store x text).automaton := by
  cases haccepted : a.accepted with
  | true => simpa [Machine.feed, haccepted] using ha
  | false =>
    cases hcheck : m.check a x with
    | error f => simp [Machine.feed, haccepted, hcheck, Fed.broken] at h
    | ok answer =>
      cases answer with
      | false => rwa [feed_of_check_false store text hcheck]
      | true =>
        obtain ⟨last, -, hperforms⟩ := performs_feed hm ha store text hcheck haccepted
        cases hperforms with
        | taken _ _ hbalanced => exact hbalanced
        | raised houtcome => rw [houtcome] at h; cases h

/-! ## Calls -/

/-- What holds of a new automaton, and of what feeding makes of an automaton of which it
    holds, holds of all automata after a call if it did before. -/
theorem forall_of_call {P : Automaton → Prop} (hinitial : P .initial)
    (hfeed : ∀ a store x text taken, P a → (m.feed a store x text).outcome = .ok taken →
      P (m.feed a store x text).automaton)
    {pool pool' : List Automaton} {c : Call} (h : ∀ a ∈ pool, P a)
    (hcall : m.call pool c = some pool') : ∀ a ∈ pool', P a := by
  intro a ha
  cases c with
  | feed on store terminal text =>
    obtain ⟨b, hb, hcall⟩ := Option.bind_eq_some_iff.1 hcall
    simp only at hcall
    split_ifs at hcall with hok
    cases hcall
    rcases List.mem_or_eq_of_mem_set ha with ha | rfl
    · exact h a ha
    · cases hout : (m.feed b store terminal text).outcome with
      | error f => simp [hout, Except.toBool] at hok
      | ok taken => exact hfeed b _ _ _ taken (h b (List.mem_of_getElem? hb)) hout
  | reset on =>
    obtain ⟨b, hb, hcall⟩ := Option.bind_eq_some_iff.1 hcall
    cases hcall
    rcases List.mem_or_eq_of_mem_set ha with ha | rfl
    · exact h a ha
    · exact hinitial
  | clone on =>
    obtain ⟨b, hb, hcall⟩ := Option.bind_eq_some_iff.1 hcall
    cases hcall
    rcases List.mem_append.1 ha with ha | ha
    · exact h a ha
    · exact List.mem_singleton.1 ha ▸ h b (List.mem_of_getElem? hb)

/-- What holds of a new automaton and is kept by feeding holds of all automata that calls
    lead to. -/
theorem Reached.induction {P : Automaton → Prop} (hinitial : P .initial)
    (hfeed : ∀ a store x text taken, P a → (m.feed a store x text).outcome = .ok taken →
      P (m.feed a store x text).automaton)
    {a : Automaton} (h : m.Reached a) : P a := by
  obtain ⟨calls, pool, hcalls, ha⟩ := h
  have hpool : ∀ b ∈ [Automaton.initial], P b := by simpa using hinitial
  revert hcalls hpool
  generalize [Automaton.initial] = start
  induction calls generalizing start with
  | nil =>
    intro hcalls hpool
    cases hcalls
    exact hpool a ha
  | cons c calls ih =>
    intro hcalls hpool
    rw [List.foldlM_cons] at hcalls
    obtain ⟨next, hcall, hcalls⟩ := Option.bind_eq_some_iff.1 hcalls
    exact ih next hcalls (forall_of_call hinitial hfeed hpool hcall)

theorem reached_initial : m.Reached .initial := ⟨[], _, rfl, List.mem_singleton_self _⟩

theorem Reached.feed {a : Automaton} (h : m.Reached a) {store : Store} {taken : Bool}
    (hout : (m.feed a store x text).outcome = .ok taken) :
    m.Reached (m.feed a store x text).automaton := by
  obtain ⟨calls, pool, hcalls, ha⟩ := h
  obtain ⟨on, hlt, rfl⟩ := List.getElem_of_mem ha
  refine ⟨calls ++ [.feed on store x text], pool.set on _, ?_, List.mem_set hlt _⟩
  rw [List.foldlM_append, hcalls]
  simp [call, hlt, hout, Except.toBool]

theorem Reached.feedAll {w : List Terminal} : ∀ {a : Automaton} {store : Store}
    {r : Automaton × Store}, m.Reached a → m.feedAll a store w = some r → m.Reached r.1 := by
  induction w with
  | nil =>
    intro a store r h hfed
    cases hfed
    exact h
  | cons y w ih =>
    intro a store r h hfed
    have hout := outcome_of_feedAll hfed
    rw [feedAll_cons hout] at hfed
    exact ih (h.feed hout) hfed

theorem Reached.balanced (hm : m.table.Bounded m.grammar) {a : Automaton} (h : m.Reached a) :
    m.Balanced a :=
  h.induction (balanced_initial hm) fun _ _ _ _ _ ha hout => ha.feed hm hout

end Machine

/-! ## Faults -/

/-- The faults that the loop of an automaton has of its own. -/
def Fault.isOfLoop : Fault → Bool
  | .errorAfterCheck _ | .noGoto .. | .valuesMissing .. | .emptyStack | .endlessReductions => true
  | _ => false

namespace TreeBuilder

variable {b : TreeBuilder} {store : Store} {f : Fault}

theorem isOfLoop_of_leaf {x : Symbol} {text : String} (h : b.leaf store x text = .error f) :
    f.isOfLoop = false := by
  unfold leaf at h
  split at h <;> cases h <;> rfl

theorem isOfLoop_of_splice {name : String} {values : List Node} {slots : List Nat}
    (h : splice name values slots = .error f) : f.isOfLoop = false := by
  induction slots generalizing values with
  | nil => cases h
  | cons slot slots ih =>
    simp only [splice] at h
    split_ifs at h
    · cases h; rfl
    · exact ih h

theorem isOfLoop_of_reduce {p : Nat} {values : List Node}
    (h : b.reduce store p values = .error f) : f.isOfLoop = false := by
  unfold reduce at h
  cases hd : b.derivations[p]? with
  | none => rw [hd] at h; cases h; rfl
  | some d =>
    simp only [hd, bind, Except.bind] at h
    split at h
    · cases h
    · split at h
      · rename_i hsplice
        cases h
        exact isOfLoop_of_splice hsplice
      · split at h
        · cases h
        · split at h
          · cases h
          · cases h
            rfl

end TreeBuilder

namespace Machine

variable {m : Machine} {x : Symbol} {text : String}

theorem Raises.isOfLoop {store : Store} {move : Move} {f : Fault}
    (h : m.Raises store x move f) : f.isOfLoop = false := by
  cases move with
  | shift top text next => exact TreeBuilder.isOfLoop_of_leaf h
  | reduce top p =>
    obtain ⟨values, h⟩ := h
    exact TreeBuilder.isOfLoop_of_reduce h
  | accept top => exact h.elim

/-! ## The main result -/

/-- Over any table in range, on an automaton that calls lead to, a check that ends
    answers. If it says no, feeding changes nothing. If it says yes before the end was
    accepted, feeding makes the reductions that the check replayed and takes the
    terminal, and the stacks are in balance again; no fault but the tree builder's
    comes up. -/
theorem feed_of_reached {m : Machine} (hg : m.grammar.Made) (ht : m.table.Over m.grammar)
    {a : Automaton} (ha : m.Reached a) (store : Store) (x : Symbol) (text : String) {fuel : Nat}
    (hends : m.checkFrom x a.states fuel (.whole a.states) ≠ .error .endlessReductions) :
    ∃ taken, m.check a x = .ok taken ∧
      (taken = false → m.feed a store x text = ⟨a, store, [], .ok false⟩) ∧
      (taken = true → a.accepted = false → ∃ last, m.Takes x text last ∧
        m.Performs x (m.replayed x a.states (m.bound a.states.length) (.whole a.states) ++ [last])
          (m.feed a store x text) ∧
        ∀ f, (m.feed a store x text).outcome = .error f → f.isOfLoop = false) := by
  have hm := ht.bounded hg.wellFormed
  have hbalanced := ha.balanced hm
  obtain ⟨taken, hcheck⟩ := exists_check hm hbalanced hends
  refine ⟨taken, hcheck, ?_, ?_⟩
  · rintro rfl
    exact feed_of_check_false store text hcheck
  · rintro rfl haccepted
    obtain ⟨last, hlast, hperforms⟩ := performs_feed hm hbalanced store text hcheck haccepted
    refine ⟨last, hlast, hperforms, fun f hf => ?_⟩
    cases hperforms with
    | taken houtcome => rw [houtcome] at hf; cases hf
    | raised houtcome _ _ hraises =>
      rw [houtcome] at hf
      cases hf
      exact hraises.isOfLoop

end Machine

/-! ## A table that reduces on everything -/

/-- The grammar of two times `x`. -/
def Lowered.twice : Lowered where
  terminals := #["$end", "x", "y"]
  nonterminals := #["$accept", "s"]
  productions := #[⟨3, [4, endSymbol]⟩, ⟨4, [1, 1]⟩]
  derivations := #[.plain "$accept", .plain "s"]
  warnings := []

/-- State 2 reduces on every terminal, but state 3 takes only the end. -/
def Table.eager : Table where
  states := #[⟨.error, [(1, .shift 1)], [(4, 3)]⟩, ⟨.error, [(1, .shift 2)], []⟩,
    ⟨.reduce 1, [], []⟩, ⟨.error, [(endSymbol, .accept)], []⟩]

theorem Lowered.ofParts_twice : Lowered.ofParts ["$end", "x", "y"] ["$accept", "s"]
    [("$accept", ["s", "$end"]), ("s", ["x", "x"])] none = .ok .twice := rfl

/-- After two times `x`, a `y` is refused although state 2 reduces on it, and nothing is popped.
    The end of the input is taken after one reduction. -/
theorem Machine.feed_of_reached_eager :
    let m : Machine := ⟨.twice, .eager, .ofLowered .twice (.ofLowered .twice)⟩
    ∃ a, m.Reached a ∧ a.values.length = 2 ∧
      m.feed a (.empty 0) 2 "y" = ⟨a, .empty 0, [], .ok false⟩ ∧
      (m.feed a (.empty 0) endSymbol "").outcome = .ok true ∧
      ∃ moves last, moves.length = 1 ∧ m.Takes endSymbol "" last ∧
        m.Performs endSymbol (moves ++ [last]) (m.feed a (.empty 0) endSymbol "") := by
  intro m
  let a := (m.feed (m.feed .initial (.empty 0) 1 "x").automaton (.empty 0) 1 "x").automaton
  have hone : (m.feed .initial (.empty 0) 1 "x").outcome = .ok true := by decide +kernel
  have htwo : (m.feed (m.feed .initial (.empty 0) 1 "x").automaton (.empty 0) 1 "x").outcome =
      .ok true := by decide +kernel
  have hreached : m.Reached a := (reached_initial.feed hone).feed htwo
  have hmade : m.grammar.Made := .inr ⟨_, _, _, _, Lowered.ofParts_twice⟩
  have hover : m.table.Over m.grammar := .inr ⟨Table.eager.states.toList, rfl, by decide⟩
  have hstates : a.states = [2, 1, 0] := by decide +kernel
  have hvalues : a.values.length = 2 := by decide +kernel
  have hopen : a.accepted = false := by decide +kernel
  have hend : (m.feed a (.empty 0) endSymbol "").outcome = .ok true := by decide +kernel
  have hfalse : m.checkFrom 2 a.states 2 (.whole a.states) = .ok false := by
    rw [hstates]
    rfl
  have htrue : m.checkFrom endSymbol a.states 2 (.whole a.states) = .ok true := by
    rw [hstates]
    rfl
  obtain ⟨taken, hcheck, hrefused, -⟩ :=
    feed_of_reached hmade hover hreached (.empty 0) 2 "y"
      (show m.checkFrom 2 a.states 2 (.whole a.states) ≠ .error .endlessReductions by
        rw [hfalse]; simp)
  obtain ⟨taken', hcheck', -, haccepted⟩ :=
    feed_of_reached hmade hover hreached (.empty 0) endSymbol ""
      (show m.checkFrom endSymbol a.states 2 (.whole a.states) ≠ .error .endlessReductions by
        rw [htrue]; simp)
  have hbound : m.check a 2 = .ok false := by
    rw [check, hstates]
    decide +kernel
  have hbound' : m.check a endSymbol = .ok true := by
    rw [check, hstates]
    decide +kernel
  have hmoves : (m.replayed endSymbol a.states (m.bound a.states.length)
      (.whole a.states)).length = 1 := by
    rw [hstates]
    decide +kernel
  rw [hbound, Except.ok.injEq] at hcheck
  rw [hbound', Except.ok.injEq] at hcheck'
  obtain ⟨last, hlast, hperforms, -⟩ := haccepted hcheck'.symm hopen
  exact ⟨a, hreached, hvalues, hrefused hcheck.symm, hend, _, last, hmoves, hlast, hperforms⟩

end LanguageWorkbench
