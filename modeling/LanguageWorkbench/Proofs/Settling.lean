import LanguageWorkbench.Proofs.Canonical
import LanguageWorkbench.Proofs.Feeding
import LanguageWorkbench.Proofs.TreeRuns

/-!
# Reductions on the stacks of built tables end

No stack gets lower with the reductions for one terminal: a production of nothing makes
it higher, a production of one symbol keeps its height. What gets shorter is the reason
for the lookahead that is reduced on. An item looks ahead to a terminal because the
terminal starts what stands behind another item, and then it is shifted after finitely
many reductions of nothing, or because another item looks ahead to it, further down the
stack or earlier in the closure of the same set.

Results:
* `Lowered.starts_of_begins`: how a terminal comes to begin what symbols derive.
* `Table.settles_of_starts`: a terminal that may start here is taken.
* `Table.settles_of_looks`: a terminal that is looked ahead to, by induction on the
  reason for it.
* `Table.Path.settles`: all stacks that the collection allows settle.
-/

namespace LanguageWorkbench

/-! ## Starting with a terminal -/

namespace Lowered

variable {g : Lowered} {a b ss : List Symbol} {t : Symbol}

/-- The terminal stands in front, behind symbols that derive nothing, or in the same way
    in a production of such a symbol. -/
inductive Starts (g : Lowered) : List Symbol → Symbol → Prop
  | here {t : Symbol} {rest : List Symbol} (h : g.isTerminal t = true) : g.Starts (t :: rest) t
  | skip {s t : Symbol} {rest : List Symbol} (hs : g.Derives [s] []) (h : g.Starts rest t) :
      g.Starts (s :: rest) t
  | into {p : Nat} {production : Production} {t : Symbol} (rest : List Symbol)
      (hp : g.productions[p]? = some production) (h : g.Starts production.rhs t) :
      g.Starts (production.lhs :: rest) t

theorem derives_nil_cons_iff (hg : g.WellFormed) {s : Symbol} :
    g.Derives (s :: ss) [] ↔ g.Derives [s] [] ∧ g.Derives ss [] := by
  rw [← Firsts.isNullable_iff_derives hg, ← Firsts.isNullable_iff_derives hg,
    ← Firsts.isNullable_iff_derives hg, ← List.singleton_append, Firsts.isNullable_append]

theorem Starts.append_right (h : g.Starts a t) (b : List Symbol) : g.Starts (a ++ b) t := by
  induction h with
  | here h => exact .here h
  | skip hs _ ih => exact .skip hs ih
  | into rest hp h _ => exact .into (rest ++ b) hp h

theorem Starts.append_left (hg : g.WellFormed) (ha : g.Derives a []) (h : g.Starts b t) :
    g.Starts (a ++ b) t := by
  induction a with
  | nil => exact h
  | cons s a ih =>
    obtain ⟨hs, ha⟩ := (derives_nil_cons_iff hg).1 ha
    exact .skip hs (ih ha)

theorem Starts.of_append (hg : g.WellFormed) (h : g.Starts (a ++ b) t) :
    g.Starts a t ∨ g.Derives a [] ∧ g.Starts b t := by
  induction a with
  | nil => exact .inr ⟨.refl, h⟩
  | cons s a ih =>
    rw [List.cons_append] at h
    cases h with
    | here h => exact .inl (.here h)
    | into _ hp h => exact .inl (.into a hp h)
    | skip hs h =>
      rcases ih h with h | ⟨ha, h⟩
      · exact .inl (.skip hs h)
      · exact .inr ⟨(derives_nil_cons_iff hg).2 ⟨hs, ha⟩, h⟩

theorem starts_of_begins (hg : g.WellFormed) (h : g.Begins ss t) : g.Starts ss t := by
  obtain ⟨ht, tail, h⟩ := h
  induction h using Relation.ReflTransGen.head_induction_on with
  | refl => exact .here ht
  | head hstep _ ih =>
    obtain ⟨before, after, hp⟩ := hstep
    rcases ih.of_append hg with h | ⟨hbefore, h⟩
    · exact h.append_right _
    · refine .append_left hg hbefore ?_
      rcases h.of_append hg with h | ⟨hrhs, h⟩
      · exact .into after hp h
      · exact .skip ((derives_production hp).trans hrhs) h

theorem Starts.begins (h : g.Starts ss t) : g.Begins ss t := by
  induction h with
  | @here t rest h => exact ⟨h, rest, .refl⟩
  | skip hs _ ih => exact ih.append_left hs
  | into rest hp _ ih => exact (ih.of_derives (derives_production hp)).append_right rest

end Lowered

/-! ## Settling -/

namespace Machine

/-- The reductions for a terminal end on the stack, and each of them finds a state below
    what it pops and a state that comes after. -/
inductive Settles (m : Machine) (x : Symbol) : List Nat → Prop
  | ends {top : Nat} {below : List Nat} (h : m.reduction? x top = none) :
      m.Settles x (top :: below)
  | goes {top n state next : Nat} {below rest : List Nat} {s : Symbol}
      (h : m.reduction? x top = some (n, s)) (hd : (top :: below).drop n = state :: rest)
      (hnext : m.next? state s = some next) (hs : m.Settles x (next :: state :: rest)) :
      m.Settles x (top :: below)

variable {m : Machine} {x : Symbol}

theorem Settles.exists_replays {states : List Nat} (h : m.Settles x states) :
    ∃ c, m.Replays x states c none := by
  induction h with
  | ends h => exact ⟨0, .ends h⟩
  | goes h hd hnext _ ih =>
    obtain ⟨c, hc⟩ := ih
    exact ⟨c + 1, .goes h hd hnext hc⟩

end Machine

namespace Table

variable {g : Lowered} {t : Table} {b : TreeBuilder} {x : Symbol}

/-- Reductions before the stack settles. -/
theorem settles_of_steps {text : String} {input : List Terminal} {c d : Configuration}
    (hsteps : Steps g t c d) (hc : c.input = (x, text) :: input) (hd : d.input = (x, text) :: input)
    (h : Machine.Settles ⟨g, t, b⟩ x d.states) : Machine.Settles ⟨g, t, b⟩ x c.states := by
  have hshorter : ∀ {c d : Configuration}, Steps g t c d → d.input.length ≤ c.input.length := by
    intro c d hsteps
    induction hsteps with
    | refl => exact le_rfl
    | tail _ hstep ih =>
      refine le_trans ?_ ih
      cases step_cases hstep with
      | shift => simp
      | reduce => exact le_rfl
  induction hsteps using Relation.ReflTransGen.head_induction_on with
  | refl => exact h
  | head hstep hrest ih =>
    cases step_cases hstep with
    | shift =>
      -- a shift would have used up the terminal
      have := hshorter hrest
      simp only at hc
      simp only [hd, (List.cons.inj hc).2, List.length_cons] at this
      omega
    | reduce haction hp hdrop hgoto =>
      obtain ⟨hy, rfl⟩ := List.cons.inj hc
      obtain ⟨rfl, rfl⟩ := Prod.mk.inj hy
      exact .goes (Machine.reduction?_of_action haction hp) hdrop
        (Machine.next?_eq_some_iff.2 hgoto) (ih rfl)

/-- A tree of nothing is run through before the terminal that may follow. -/
theorem settles_of_derives_nil (hg : g.WellFormed) (ht : (build g).result = .ok t) {s : Symbol}
    (hs : g.Derives [s] []) {n m : Nat} {below : List Nat} {i : Item} {rest : List Symbol}
    (hi : (Collection.items g n).Has i) (hrest : i.rest g = s :: rest)
    (htarget : Collection.target? g n s = some m) (hx : g.Begins rest x)
    (h : Machine.Settles ⟨g, t, b⟩ x (m :: n :: below)) :
    Machine.Settles ⟨g, t, b⟩ x (n :: below) := by
  obtain ⟨tree, htree⟩ := (Lowered.derives_iff_grows (w := []) (by simp)).1 hs
  obtain ⟨la, hla⟩ := hi
  have hsteps := steps_tree hg ht htree (by simp) below [] (y := (x, "")) [] hla hrest htarget
    ((Firsts.mem_ofSequence_iff_begins hg).2 (.inl hx))
  exact settles_of_steps hsteps rfl rfl h

theorem rest_advance {i : Item} {s : Symbol} {rest : List Symbol} (h : i.rest g = s :: rest) :
    Item.rest g ⟨i.production, i.dot + 1⟩ = rest := by
  rw [Item.rest, ← List.drop_drop, ← Item.rest, h]
  rfl

/-- A state that another leads to takes a terminal that stands behind one of its items. -/
theorem reduction?_of_next? (hg : g.WellFormed) (ht : (build g).result = .ok t) {k n : Nat}
    {s : Symbol} (htarget : Collection.target? g k s = some n) {i : Item}
    (hi : (Collection.items g n).Has i) (hx : i.next? g = some x) (hterm : g.isTerminal x = true) :
    Machine.reduction? ⟨g, t, b⟩ x n = none := by
  by_cases hne : x = endSymbol
  · subst hne
    -- `$end` stands only at the end of production 0
    have haction : t.action n endSymbol = .ok .accept := by
      refine (action_accept_iff ht).2 ⟨rfl, ?_⟩
      obtain ⟨p, d⟩ := i
      obtain ⟨start, hstart⟩ := hg.start
      have hmem : endSymbol ∈ g.rhsOf p := List.mem_of_mem_drop (List.mem_of_head? hx)
      obtain ⟨production, hp⟩ : ∃ production, g.productions[p]? = some production := by
        cases hp : g.productions[p]? with
        | none => simp [Lowered.rhsOf, hp] at hmem
        | some production => exact ⟨production, rfl⟩
      rw [Lowered.rhsOf_eq hp] at hmem
      obtain rfl : p = 0 := by
        by_contra hne
        exact (hg.rhs_ne hp hne _ hmem).1 rfl
      have hrest : Item.next? g ⟨0, d⟩ = [start, endSymbol][d]? := by
        rw [Item.next?, Item.rest, Lowered.rhsOf_eq hstart, List.head?_drop]
      cases d with
      | zero =>
        have haccept := Collection.eq_zero_or_start hg htarget hi
        rw [hstart, Option.some.injEq, Production.mk.injEq, List.cons.injEq] at haccept
        rw [hx, haccept.2.1] at hrest
        exact absurd (Option.some.inj hrest) (Nat.ne_of_lt hg.end_lt)
      | succ d =>
        cases d with
        | zero => exact hi
        | succ d => simp [hx] at hrest
    simp [Machine.reduction?, haction]
  · obtain ⟨m, htarget, -⟩ := Collection.exists_target? hg hi hx hne
    simp [Machine.reduction?, (action_shift_iff hg ht).2 ⟨hterm, htarget⟩]

/-- A terminal that starts what stands behind an item is taken after reductions of
    nothing. -/
theorem settles_of_starts (hg : g.WellFormed) (ht : (build g).result = .ok t) {ss : List Symbol}
    (h : g.Starts ss x) : ∀ {k n : Nat} {s : Symbol} {below : List Nat} {i : Item},
      Collection.target? g k s = some n → (Collection.items g n).Has i → i.rest g = ss →
      Machine.Settles ⟨g, t, b⟩ x (n :: below) := by
  induction h with
  | here hterm =>
    intro k n s below i htarget hi hrest
    exact .ends (reduction?_of_next? hg ht htarget hi (by simp [Item.next?, hrest]) hterm)
  | @skip s x rest hs h ih =>
    intro k n s' below i htarget hi hrest
    have hne : s ≠ endSymbol := by
      obtain ⟨tree, htree⟩ := (Lowered.derives_iff_grows (w := []) (by simp)).1 hs
      exact (htree.root_ne hg (by simp)).1
    obtain ⟨m, htarget', hadvance⟩ := Collection.exists_target? hg hi
      (show i.next? g = some s by simp [Item.next?, hrest]) hne
    exact settles_of_derives_nil hg ht hs hi hrest htarget' h.begins
      (ih htarget' (hadvance none hi) (rest_advance hrest))
  | @into p production x rest hp _ ih =>
    intro k n s below i htarget hi hrest
    obtain ⟨la, hla⟩ := hi
    have hclosed := Collection.closed_items hg n i la hla ⟨p, 0⟩ _
      (ItemSet.mem_arrivals.2 ⟨_, rest, hrest, by simpa [Lowered.isTerminal] using
        (hg.lhs_bounds hp).1, ItemSet.mem_productionsOf.2 ⟨production, hp, rfl⟩, rfl, rfl⟩)
    exact ih htarget hclosed.1 (Lowered.rhsOf_eq hp)

/-! ## Reasons for lookaheads -/

/-- The states come from each other over symbols. The top is first. -/
inductive Path (g : Lowered) : List Nat → Prop
  | bottom : Path g [0]
  | push {n m : Nat} {below : List Nat} {s : Symbol} (h : Path g (n :: below))
      (ht : Collection.target? g n s = some m) : Path g (m :: n :: below)

theorem Path.of_append {pushed : List Nat} : ∀ {n : Nat} {below : List Nat},
    Path g (pushed ++ n :: below) → Path g (n :: below) := by
  induction pushed with
  | nil => exact fun h => h
  | cons m pushed ih =>
    intro n below h
    generalize hs : pushed ++ n :: below = states at h
    rw [List.cons_append, hs] at h
    cases h with
    | bottom => simp at hs
    | push h _ => exact ih (hs ▸ h)

/-- `$end` is not passed on the way, so production 0 is not completed. -/
theorem Path.not_derives_nil (hg : g.WellFormed) {top d : Nat} {below : List Nat}
    (h : Path g (top :: below)) (hi : (Collection.items g top).Has ⟨0, d⟩) :
    ¬ g.Derives ((g.rhsOf 0).drop d) [] := by
  obtain ⟨start, hstart⟩ := hg.start
  rw [Lowered.rhsOf_eq hstart]
  intro hnull
  have hend : ¬ g.Derives [endSymbol] [] := by
    intro hnull
    obtain ⟨tree, htree⟩ := (Lowered.derives_iff_grows (w := []) (by simp)).1 hnull
    exact (htree.root_ne hg (by simp)).1 rfl
  match d, hi, hnull with
  | 0, _, hnull => exact hend ((Lowered.derives_nil_cons_iff hg).1 hnull).2
  | 1, _, hnull => exact hend hnull
  | d + 2, hi, _ =>
    cases h with
    | bottom => exact Collection.not_has_items_zero hg hi
    | @push k _ below s h htarget =>
      have hnext := (Collection.has_of_target? hg htarget hi).2
      rw [Item.next?, Item.rest, Lowered.rhsOf_eq hstart, List.head?_drop] at hnext
      have hne := Collection.ne_of_target? hg htarget
      match d, hnext with
      | 0, hnext => exact hne (Option.some.inj hnext).symm
      | d + 1, hnext => simp at hnext

/-- A production of which nothing is missing but what derives nothing is reduced, and the
    stack settles if it does so after that. -/
theorem settles_of_production (hg : g.WellFormed) (ht : (build g).result = .ok t) {q n m : Nat}
    {production : Production} (hp : g.productions[q]? = some production) {pushed below : List Nat}
    (hpath : Path g (pushed ++ n :: below))
    (hlooks : ∀ top, (pushed ++ n :: below).head? = some top →
      (Collection.items g top).Looks ⟨q, pushed.length⟩ x)
    (hnull : g.Derives (production.rhs.drop pushed.length) [])
    (htarget : Collection.target? g n production.lhs = some m)
    (h : Machine.Settles ⟨g, t, b⟩ x (m :: n :: below)) :
    Machine.Settles ⟨g, t, b⟩ x (pushed ++ n :: below) := by
  have hrhs := Lowered.rhsOf_eq hp
  obtain ⟨top, lower, hstates⟩ := List.exists_cons_of_ne_nil
    (show pushed ++ n :: below ≠ [] by simp)
  have htop := hlooks top (by rw [hstates]; rfl)
  have hlen := ((Collection.valid_items hg top).inRange _ htop.has).2
  simp only [hrhs] at hlen
  have hq : q ≠ 0 := by
    rintro rfl
    rw [hstates] at hpath
    exact hpath.not_derives_nil hg htop.has (by rwa [hrhs])
  -- trees without leaves are built for what is missing, and then the production is reduced
  obtain ⟨ts, hts⟩ := Lowered.Derives.exists_growsAll (w := []) (by simp) hnull
  obtain ⟨more, hmore, htop', hsteps⟩ := steps_trees hg ht hts (by simp) lower [] (y := (x, "")) []
    htop (by rw [Item.rest, hrhs])
  refine hstates ▸ settles_of_steps hsteps rfl rfl ?_
  simp only
  rw [← hstates] at htop' ⊢
  obtain ⟨top', lower', hstates'⟩ := List.exists_cons_of_ne_nil
    (show more ++ (pushed ++ n :: below) ≠ [] by simp)
  have hlength : (more ++ pushed).length = production.rhs.length := by
    rw [List.length_append, hmore, List.length_drop]
    omega
  have haction : t.action top' x = .ok (.reduce q) := by
    refine (action_reduce_iff hg ht).2 ⟨hq, ?_⟩
    have := htop' top' (by rw [hstates']; rfl)
    rwa [List.length_drop, Nat.add_sub_cancel' hlen, ← hrhs] at this
  have hgoto : t.goto? n production.lhs = .ok (some m) := by
    refine (goto?_iff hg ht).2 ⟨?_, htarget⟩
    simpa [Lowered.isTerminal] using (hg.lhs_bounds hp).1
  rw [hstates']
  refine .goes (Machine.reduction?_of_action haction hp) ?_ (Machine.next?_eq_some_iff.2 hgoto) h
  rw [← hstates', ← List.append_assoc, ← hlength, List.drop_left]

/-- The stack settles wherever nothing is missing of the production of the item but what
    derives nothing. -/
def Completes (m : Machine) (x : Symbol) (states : List Nat) (i : Item) : Prop :=
  ∀ pushed, Path m.grammar (pushed ++ states) →
    (∀ top, (pushed ++ states).head? = some top →
      (Collection.items m.grammar top).Looks ⟨i.production, i.dot + pushed.length⟩ x) →
    m.grammar.Derives ((m.grammar.rhsOf i.production).drop (i.dot + pushed.length)) [] →
    m.Settles x (pushed ++ states)

/-- What the kernel of a set looks ahead to completes, so all that its closure looks ahead
    to does. -/
theorem completes_of_closure (hg : g.WellFormed) (ht : (build g).result = .ok t) {n : Nat}
    {below : List Nat} {K : ItemMap} (hitems : ItemMap.said (Collection.items g n) = K.closure g)
    (hK : ∀ i, (i, some x) ∈ K → Completes ⟨g, t, b⟩ x (n :: below) i) {i : Item}
    (hi : (Collection.items g n).Looks i x) : Completes ⟨g, t, b⟩ x (n :: below) i := by
  have hsaid : ∀ {c}, c ∈ K.closure g → (Collection.items g n).Says c := by
    intro c hc
    rw [← hitems] at hc
    exact hc
  have hall : ∀ c ∈ K.closure g, c.2 = some x → Completes ⟨g, t, b⟩ x (n :: below) c.1 := by
    refine ItemMap.closure_induction (fun c hc hx => hK c.1 (hx ▸ hc)) ?_
    intro c hc hx
    -- the nonterminal is reduced, and the dot of the item that brings it moves over it
    have hgoes : ∀ {j : Item} {s : Symbol} {rest : List Symbol} {q : Nat},
        (j, none) ∈ K.closure g → j.rest g = s :: rest →
        (g.productions[q]?).map (·.lhs) = some s →
        (∀ m, Collection.target? g n s = some m →
          (∀ o, (Collection.items g n).Says (j, o) →
            (Collection.items g m).Says (⟨j.production, j.dot + 1⟩, o)) →
          Path g (n :: below) → Machine.Settles ⟨g, t, b⟩ x (m :: n :: below)) →
        Completes ⟨g, t, b⟩ x (n :: below) ⟨q, 0⟩ := by
      intro j s rest q hj hrest hq hsettles pushed hpath hlooks hnull
      obtain ⟨production, hp, rfl⟩ := Option.map_eq_some_iff.1 hq
      have hne : production.lhs ≠ endSymbol :=
        Nat.ne_of_gt (Nat.lt_of_lt_of_le hg.end_lt (hg.lhs_bounds hp).1)
      obtain ⟨m, htarget, hadvance⟩ := Collection.exists_target? hg (hsaid hj)
        (show j.next? g = some production.lhs by simp [Item.next?, hrest]) hne
      simp only [Nat.zero_add, Lowered.rhsOf_eq hp] at hlooks hnull
      exact settles_of_production hg ht hp hpath hlooks hnull htarget
        (hsettles m htarget hadvance hpath.of_append)
    cases hc with
    | item => cases hx
    | first hj hrest hq hbegins =>
      obtain rfl := Option.some.inj hx
      refine hgoes hj.1 hrest hq fun m htarget hadvance _ => ?_
      exact settles_of_starts hg ht (Lowered.starts_of_begins hg hbegins) htarget
        (hadvance none (hsaid hj.1)) (rest_advance hrest)
    | @follow j s rest q _ hj hrest hq hnull hlooks =>
      obtain rfl := Option.some.inj hx
      refine hgoes hj.1 hrest hq fun m htarget hadvance hpath => ?_
      refine hlooks.2 rfl [m] (.push hpath htarget) (fun top htop => ?_) ?_
      · obtain rfl := Option.some.inj htop
        exact hadvance (some _) (hsaid hlooks.1)
      · have hrest' := rest_advance hrest
        rw [Item.rest] at hrest'
        simpa only [List.length_singleton, hrest'] using hnull
  exact hall (i, some x) (hitems ▸ hi) rfl

/-- What a state of a stack looks ahead to completes. The induction is on the stack, since
    a lookahead of the kernel is one of the state below. -/
theorem settles_of_looks (hg : g.WellFormed) (ht : (build g).result = .ok t) {states : List Nat}
    (h : Path g states) : ∀ {n : Nat} {below : List Nat} {i : Item}, states = n :: below →
      (Collection.items g n).Looks i x → Completes ⟨g, t, b⟩ x (n :: below) i := by
  induction h with
  | bottom =>
    intro n below i hs hi
    cases hs
    refine completes_of_closure hg ht (K := .start) ?_ (fun i hi => ?_) hi
    · rw [Collection.items_zero hg, ItemMap.said_closure hg (Collection.valid_startKernel hg),
        ItemMap.said_startKernel]
    · cases hi
  | @push k m below s h htarget ih =>
    intro n below' i hs hi
    cases hs
    obtain ⟨-, -, hitems, hvalid⟩ := Collection.target?_spec hg htarget
    refine completes_of_closure hg ht (K := ItemMap.said ((Collection.items g k).advance g s)) ?_
      (fun i hi => ?_) hi
    · rw [hitems, ItemMap.said_closure hg hvalid]
    · obtain ⟨j, hj, hnext, rfl⟩ :=
        ItemSet.says_advance.1 (show ItemSet.Says _ (i, some x) from hi)
      intro pushed hpath hlooks hnull
      have hdot : j.dot + 1 + pushed.length = j.dot + (pushed ++ [m]).length := by
        rw [List.length_append, List.length_singleton]
        omega
      rw [List.append_cons] at hpath hlooks ⊢
      simp only [hdot] at hlooks hnull
      exact ih rfl hj (pushed ++ [m]) hpath hlooks hnull

/-- All stacks that the collection allows settle. -/
theorem Path.settles (hg : g.WellFormed) (ht : (build g).result = .ok t) {states : List Nat}
    (h : Path g states) (x : Symbol) : Machine.Settles ⟨g, t, b⟩ x states := by
  obtain ⟨top, below, rfl⟩ : ∃ top below, states = top :: below := by
    cases h with
    | bottom => exact ⟨_, _, rfl⟩
    | push => exact ⟨_, _, rfl⟩
  cases hr : Machine.reduction? ⟨g, t, b⟩ x top with
  | none => exact .ends hr
  | some r =>
    obtain ⟨p, haction⟩ : ∃ p, t.action top x = .ok (.reduce p) := by
      unfold Machine.reduction? at hr
      split at hr
      · rename_i p haction
        exact ⟨p, haction⟩
      · cases hr
    have hlooks := ((action_reduce_iff hg ht).1 haction).2
    refine settles_of_looks hg ht h rfl hlooks [] h (fun top' htop => ?_) ?_
    · obtain rfl := Option.some.inj htop
      exact hlooks
    · rw [List.length_nil, Nat.add_zero, List.drop_length]
      exact .refl

end Table

end LanguageWorkbench
