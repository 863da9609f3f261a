import LanguageWorkbench.Proofs.Collection
import LanguageWorkbench.Table.Build

/-!
# Built tables follow the collection

A table that was built without a conflict does exactly what the sets of the canonical
collection dictate: it shifts the terminals after dots, accepts `$end` once the start
symbol is complete, reduces completed items on their lookaheads, and goes where
nonterminals lead.

Results:
* `CollectionState.mem_dictated_shift`, `CollectionState.mem_dictated_accept`,
  `CollectionState.mem_dictated_reduce`: the actions that a set dictates.
* `Collection.items`, `Collection.target?`: the set with a number, and where a symbol
  leads from it.
* `Table.action_shift_iff`, `Table.action_accept_iff`, `Table.action_reduce_iff`,
  `Table.goto?_iff`: the entries of a built table.
-/

namespace LanguageWorkbench

/-- With different keys, the first entry for a key is the only one. -/
theorem lookup_eq_some_iff_mem {α : Type} {l : List (Symbol × α)}
    (h : (l.map Prod.fst).Nodup) {k : Symbol} {v : α} :
    l.lookup k = some v ↔ (k, v) ∈ l := by
  induction l with
  | nil => simp
  | cons c l ih =>
    obtain ⟨k', v'⟩ := c
    obtain ⟨hnot, hl⟩ := List.nodup_cons.1 h
    rw [List.lookup_cons, List.mem_cons, Prod.mk.injEq]
    by_cases hk : k = k'
    · subst hk
      have : (k, v) ∉ l := fun hm => hnot (List.mem_map.2 ⟨(k, v), hm, rfl⟩)
      simp [this, eq_comm]
    · have : (k == k') = false := beq_eq_false_iff_ne.2 hk
      simp only [this, ih hl]
      simp [hk]

namespace CollectionState

/-! ## What a set dictates -/

variable {g : Lowered} {c : CollectionState} {x : Symbol}

theorem mem_dictated_shift {m : Nat} :
    (x, .shift m) ∈ c.dictated g ↔ g.isTerminal x = true ∧ (x, m) ∈ c.moves := by
  simp [dictated, and_comm]

theorem mem_dictated_accept :
    (x, .accept) ∈ c.dictated g ↔ x = endSymbol ∧ c.items.Has ⟨0, 1⟩ := by
  have hany : c.items.any (·.1 = ⟨0, 1⟩) = true ↔ c.items.Has ⟨0, 1⟩ := by
    simp [ItemSet.Has]
  rw [← hany]
  simp only [dictated]
  split_ifs with h <;> simp [h]

theorem mem_dictated_reduce (hc : c.items.Valid g) {p : Nat} :
    (x, .reduce p) ∈ c.dictated g ↔
      p ≠ 0 ∧ c.items.Looks ⟨p, (g.rhsOf p).length⟩ x := by
  simp only [dictated, List.mem_append, List.mem_flatMap]
  constructor
  · rintro ((hm | hm) | ⟨⟨i, la⟩, hi, hm⟩)
    · simp at hm
    · split_ifs at hm <;> simp at hm
    · split_ifs at hm with hcond
      · obtain ⟨t, ht, heq⟩ := List.mem_map.1 hm
        simp only [Prod.mk.injEq, Action.reduce.injEq] at heq
        obtain ⟨rfl, rfl⟩ := heq
        rw [← hcond.2]
        exact ⟨hcond.1, la, hi, (NatSet.mem_toList.1 ht).2⟩
      · simp at hm
  · rintro ⟨hp, la, hi, hx⟩
    have hlt := hc.below _ x ⟨la, hi, hx⟩
    refine .inr ⟨_, hi, ?_⟩
    simp only [ne_eq, hp, not_false_eq_true, and_self, if_true, List.mem_map]
    exact ⟨x, NatSet.mem_toList.2 ⟨hlt, hx⟩, rfl⟩

theorem not_mem_dictated_error : (x, .error) ∉ c.dictated g := by
  simp only [dictated]
  split_ifs <;> simp

end CollectionState

namespace Table

/-! ## Entering actions -/

/-- The actions of a state ascend by their terminals. -/
def Ascending (known : List (Symbol × Action)) : Prop := known.Pairwise fun a b => a.1 < b.1

theorem Ascending.lookup_eq_none {c : Symbol × Action} {known : List (Symbol × Action)}
    (h : Ascending (c :: known)) {s : Symbol} (hs : s ≤ c.1) : known.lookup s = none := by
  rw [List.lookup_eq_none_iff]
  intro b hb
  have := (List.pairwise_cons.1 h).1 b hb
  exact bne_iff_ne.2 (Nat.ne_of_lt (Nat.lt_of_le_of_lt hs this))

/-- Entering an action keeps all others, and it does not replace one. -/
theorem enter_spec {known known' : List (Symbol × Action)} {s : Symbol} {a : Action}
    (h : Ascending known) (he : enter s a known = .ok known') :
    Ascending known' ∧ (∀ c ∈ known', c.1 = s ∨ ∃ b ∈ known, b.1 = c.1) ∧
      known'.lookup s = some a ∧ (∀ t, t ≠ s → known'.lookup t = known.lookup t) ∧
      ∀ b, known.lookup s = some b → b = a := by
  induction known generalizing known' with
  | nil =>
    obtain rfl : [(s, a)] = known' := by simpa [enter] using he
    refine ⟨List.pairwise_singleton _ _, by simp, by simp, fun t ht => ?_, by simp⟩
    simp [List.lookup_cons, beq_eq_false_iff_ne.2 ht]
  | cons c known ih =>
    obtain ⟨t, b⟩ := c
    obtain ⟨hlt, hknown⟩ := List.pairwise_cons.1 h
    simp only [enter] at he
    split_ifs at he with h₁ h₂ h₃
    · obtain rfl : (s, a) :: (t, b) :: known = known' := by simpa using he
      refine ⟨List.pairwise_cons.2 ⟨fun c hc => ?_, h⟩, ?_, by simp, fun x hx => ?_, fun x hx => ?_⟩
      · rcases List.mem_cons.1 hc with rfl | hc
        · exact h₁
        · exact Nat.lt_trans h₁ (hlt c hc)
      · intro c hc
        rcases List.mem_cons.1 hc with rfl | hc
        · exact .inl rfl
        · exact .inr ⟨c, hc, rfl⟩
      · rw [List.lookup_cons, beq_eq_false_iff_ne.2 hx]
      · rw [List.lookup_cons, beq_eq_false_iff_ne.2 (Nat.ne_of_lt h₁),
          h.lookup_eq_none (Nat.le_of_lt h₁)] at hx
        cases hx
    · subst h₂ h₃
      obtain rfl : (s, b) :: known = known' := by simpa using he
      exact ⟨h, fun c hc => .inr ⟨c, hc, rfl⟩, by simp, fun _ _ => rfl, by simp [eq_comm]⟩
    · cases hrest : enter s a known with
      | error e => rw [hrest] at he; cases he
      | ok rest =>
        rw [hrest] at he
        obtain rfl : (t, b) :: rest = known' := by simpa using he
        obtain ⟨hasc, hmem, hself, hother, hsame⟩ := ih hknown hrest
        have hst : (s == t) = false := beq_eq_false_iff_ne.2 h₂
        refine ⟨List.pairwise_cons.2 ⟨fun c hc => ?_, hasc⟩, ?_, ?_, fun x hx => ?_, fun x hx => ?_⟩
        · rcases hmem c hc with hc | ⟨d, hd, hc⟩
          · rw [hc]
            exact Nat.lt_of_le_of_ne (Nat.le_of_not_lt h₁) (Ne.symm h₂)
          · exact hc ▸ hlt d hd
        · intro c hc
          rcases List.mem_cons.1 hc with rfl | hc
          · exact .inr ⟨_, List.mem_cons_self, rfl⟩
          · rcases hmem c hc with hc | ⟨d, hd, hc⟩
            · exact .inl hc
            · exact .inr ⟨d, List.mem_cons_of_mem _ hd, hc⟩
        · rw [List.lookup_cons, hst, hself]
        · rw [List.lookup_cons, List.lookup_cons, hother x hx]
        · rw [List.lookup_cons, hst] at hx
          exact hsame x hx

/-- Where no action was refused, exactly the known and the entered actions are
    there. -/
theorem enterAll_spec {entries known known' : List (Symbol × Action)} (h : Ascending known)
    (he : enterAll known entries = .ok known') (s : Symbol) (a : Action) :
    known'.lookup s = some a ↔ known.lookup s = some a ∨ (s, a) ∈ entries := by
  induction entries generalizing known with
  | nil =>
    obtain rfl : known = known' := by simpa [enterAll] using he
    simp
  | cons c entries ih =>
    obtain ⟨t, b⟩ := c
    simp only [enterAll] at he
    cases hrest : enter t b known with
    | error e => rw [hrest] at he; cases he
    | ok rest =>
      rw [hrest] at he
      obtain ⟨hasc, -, hself, hother, hsame⟩ := enter_spec h hrest
      rw [ih hasc he, List.mem_cons, Prod.mk.injEq]
      by_cases hs : s = t
      · subst hs
        rw [hself, Option.some.injEq]
        constructor
        · rintro (rfl | hm)
          · exact .inr (.inl ⟨rfl, rfl⟩)
          · exact .inr (.inr hm)
        · rintro (hk | ⟨-, rfl⟩ | hm)
          · exact .inl (hsame a hk).symm
          · exact .inl rfl
          · exact .inr hm
      · rw [hother s hs]
        simp [hs]

/-! ## States -/

/-- The state of a set has the actions that the set dictates, and its gotos. -/
theorem stateOf_eq_ok_iff {g : Lowered} {c : CollectionState} {s : TableState} :
    stateOf g c = .ok s ↔ ∃ actions, enterAll [] (c.dictated g) = .ok actions ∧
      s = ⟨.error, actions, c.gotos g⟩ := by
  simp only [stateOf]
  cases enterAll [] (c.dictated g) with
  | error e =>
    refine iff_of_false (fun h => ?_) (fun ⟨_, h, _⟩ => ?_)
    · cases h
    · cases h
  | ok actions =>
    constructor
    · intro h
      cases h
      exact ⟨actions, rfl, rfl⟩
    · rintro ⟨_, ⟨⟩, rfl⟩
      rfl

/-- What a state of a table does for a terminal. -/
theorem action_eq {t : Table} {n : Nat} {s : TableState} (h : t.states[n]? = some s) (x : Symbol) :
    t.action n x = .ok ((s.actions.lookup x).getD s.default) := by
  simp only [action, state, h]
  rfl

/-- Where a state of a table goes after a nonterminal. -/
theorem goto?_eq {t : Table} {n : Nat} {s : TableState} (h : t.states[n]? = some s) (x : Symbol) :
    t.goto? n x = .ok (s.gotos.lookup x) := by
  simp only [goto?, state, h]
  rfl

theorem statesOf_spec {g : Lowered} {n : Nat} {cs : List CollectionState}
    {states : List TableState} (h : (statesOf g n cs).result = .ok states) :
    List.Forall₂ (fun c s => stateOf g c = .ok s) cs states := by
  induction cs generalizing n states with
  | nil =>
    obtain rfl : [] = states := by simpa [statesOf] using h
    exact .nil
  | cons c cs ih =>
    simp only [statesOf] at h
    cases hc : stateOf g c with
    | error e => rw [hc] at h; cases h
    | ok s =>
      simp only [hc, Noted.result_bind] at h
      cases hrest : (statesOf g (n + 1) cs).result with
      | error e => rw [hrest] at h; cases h
      | ok rest =>
        rw [hrest] at h
        obtain rfl : s :: rest = states := by
          simpa [Noted.tell, Except.bind] using h
        exact .cons hc (ih hrest)

theorem build_spec {g : Lowered} {t : Table} (h : (build g).result = .ok t) :
    List.Forall₂ (fun c s => stateOf g c = .ok s) (Collection.ofLowered g) t.states.toList := by
  simp only [build, Noted.result_bind] at h
  cases hs : (statesOf g 0 (Collection.ofLowered g)).result with
  | error e => rw [hs] at h; cases h
  | ok states =>
    rw [hs] at h
    obtain rfl : (⟨states.toArray⟩ : Table) = t := by simpa [Noted.tell, Except.bind] using h
    exact statesOf_spec hs

end Table

/-! ## Sets by number -/

namespace Collection

/-- The item set with a number, empty if there is none. -/
def items (g : Lowered) (n : Nat) : ItemSet := (((ofLowered g)[n]?).map (·.items)).getD []

/-- The number of the set that a symbol leads to. -/
def target? (g : Lowered) (n : Nat) (s : Symbol) : Option Nat :=
  ((ofLowered g)[n]?).bind fun c => c.moves.lookup s

variable {g : Lowered}

theorem items_eq {n : Nat} {c : CollectionState} (h : (ofLowered g)[n]? = some c) :
    items g n = c.items := by
  simp [items, h]

theorem exists_of_has {n : Nat} {i : Item} (h : (items g n).Has i) :
    ∃ c, (ofLowered g)[n]? = some c := by
  cases hc : (ofLowered g)[n]? with
  | some c => exact ⟨c, rfl⟩
  | none =>
    obtain ⟨la, h⟩ := h
    simp [items, hc] at h

theorem target?_eq_some_iff (hg : g.WellFormed) {n m : Nat} {s : Symbol} {c : CollectionState}
    (h : (ofLowered g)[n]? = some c) : target? g n s = some m ↔ (s, m) ∈ c.moves := by
  obtain ⟨kernels, -, -, -, hspec⟩ := ofLowered_spec hg
  simp only [target?, h, Option.bind_some]
  refine lookup_eq_some_iff_mem ?_
  rw [(hspec n c h).2.symbols]
  exact (List.nodup_range.filter _).filter _

theorem exists_of_target? {n m : Nat} {s : Symbol} (h : target? g n s = some m) :
    ∃ c, (ofLowered g)[n]? = some c := by
  cases hc : (ofLowered g)[n]? with
  | some c => exact ⟨c, rfl⟩
  | none => simp [target?, hc] at h

/-- A target has the advanced items as its kernel. -/
theorem target?_spec (hg : g.WellFormed) {n m : Nat} {s : Symbol}
    (h : target? g n s = some m) :
    s ∈ (items g n).nextSymbols g ∧ m ≠ 0 ∧
      items g m = ((items g n).advance g s).closure g (.ofLowered g) ∧
      ((items g n).advance g s).Valid g := by
  obtain ⟨c, hc⟩ := exists_of_target? h
  obtain ⟨kernels, hknown, hzero, hlen, hspec⟩ := ofLowered_spec hg
  have hm := (target?_eq_some_iff hg hc).1 h
  have hd := (hspec n c hc).2
  have hk := hd.targets s m hm
  rw [items_eq hc]
  have hs : s ∈ c.items.nextSymbols g := hd.symbols ▸ List.mem_map.2 ⟨(s, m), hm, rfl⟩
  have hmlt : m < (ofLowered g).length := hlen ▸ (Array.getElem?_eq_some_iff.1 hk).1
  have hm' := hspec m _ (List.getElem?_eq_getElem hmlt)
  refine ⟨hs, ?_, ?_, hknown.valid _ (Array.mem_of_getElem? hk)⟩
  · -- the initial kernel has its dot at the beginning, an advanced item does not
    rintro rfl
    obtain ⟨-, -, i, ⟨la, hi⟩, hnext⟩ := ItemSet.mem_nextSymbols.1 hs
    have hadv := ItemSet.mem_advance.2 ⟨i, hi, hnext, rfl⟩
    rw [← Option.some.inj (hzero.symm.trans hk)] at hadv
    simp [startKernel] at hadv
  · rw [items_eq (List.getElem?_eq_getElem hmlt), hm'.2.items,
      Option.some.inj (hm'.1.symm.trans hk)]

/-- Nothing goes on with `$end`. -/
theorem ne_of_target? (hg : g.WellFormed) {n m : Nat} {s : Symbol}
    (h : target? g n s = some m) : s ≠ endSymbol :=
  (ItemSet.mem_nextSymbols.1 (target?_spec hg h).1).2.1

theorem items_zero (hg : g.WellFormed) :
    items g 0 = startKernel.closure g (.ofLowered g) := by
  obtain ⟨kernels, hknown, hzero, hlen, hspec⟩ := ofLowered_spec hg
  have hlt : 0 < (ofLowered g).length := hlen ▸ (Array.getElem?_eq_some_iff.1 hzero).1
  have h := hspec 0 _ (List.getElem?_eq_getElem hlt)
  rw [items_eq (List.getElem?_eq_getElem hlt), h.2.items, Option.some.inj (h.1.symm.trans hzero)]

theorem has_items_zero (hg : g.WellFormed) : (items g 0).Has ⟨0, 0⟩ := by
  rw [items_zero hg]
  exact ItemSet.says_closure_of_kernel (c := (⟨0, 0⟩, none)) ⟨.empty, List.mem_singleton.2 rfl⟩

theorem valid_items (hg : g.WellFormed) (n : Nat) : (items g n).Valid g := by
  cases hc : (ofLowered g)[n]? with
  | none =>
    simp only [items, hc, Option.map_none, Option.getD_none]
    exact ⟨List.Pairwise.nil, fun _ ⟨_, h⟩ => absurd h List.not_mem_nil,
      fun _ _ ⟨_, h, _⟩ => absurd h List.not_mem_nil⟩
  | some c =>
    obtain ⟨kernels, hknown, -, -, hspec⟩ := ofLowered_spec hg
    obtain ⟨hk, hd⟩ := hspec n c hc
    rw [items_eq hc, hd.items]
    exact (hknown.valid _ (Array.mem_of_getElem? hk)).closure (Firsts.within_ofLowered hg).1

theorem closed_items (hg : g.WellFormed) (n : Nat) :
    (items g n).Closed g (.ofLowered g) := by
  cases hc : (ofLowered g)[n]? with
  | none => simp [items, hc, ItemSet.Closed]
  | some c =>
    obtain ⟨kernels, hknown, -, -, hspec⟩ := ofLowered_spec hg
    obtain ⟨hk, hd⟩ := hspec n c hc
    rw [items_eq hc, hd.items]
    exact ItemSet.closed_closure (Firsts.within_ofLowered hg).1
      (hknown.valid _ (Array.mem_of_getElem? hk))

/-- A symbol after a dot leads to a set that says of the advanced item what was said
    of the item. -/
theorem exists_target? (hg : g.WellFormed) {n : Nat} {i : Item} {s : Symbol}
    (hi : (items g n).Has i) (hs : i.next? g = some s) (hne : s ≠ endSymbol) :
    ∃ m, target? g n s = some m ∧ ∀ o, (items g n).Says (i, o) →
      (items g m).Says (⟨i.production, i.dot + 1⟩, o) := by
  obtain ⟨c, hc⟩ := exists_of_has hi
  obtain ⟨kernels, -, -, -, hspec⟩ := ofLowered_spec hg
  have hlt : s < g.numSymbols := by
    have hmem : s ∈ g.rhsOf i.production := List.mem_of_mem_drop (List.mem_of_head? hs)
    cases hp : g.productions[i.production]? with
    | none => simp [Lowered.rhsOf, hp] at hmem
    | some production =>
      simp only [Lowered.rhsOf, hp, Option.map_some, Option.getD_some] at hmem
      exact hg.rhs_lt hp s hmem
  have hmem : s ∈ c.moves.map Prod.fst := by
    rw [(hspec n c hc).2.symbols, ← items_eq hc]
    exact ItemSet.mem_nextSymbols.2 ⟨hlt, hne, i, hi, hs⟩
  obtain ⟨⟨_, m⟩, hm, rfl⟩ := List.mem_map.1 hmem
  have htarget := (target?_eq_some_iff hg hc).2 hm
  refine ⟨m, htarget, fun o ho => ?_⟩
  rw [(target?_spec hg htarget).2.2.1]
  exact ItemSet.says_closure_of_kernel (ItemSet.says_advance.2 ⟨i, ho, hs, rfl⟩)

/-- An item that was begun came over the symbol before its dot. -/
theorem has_of_target? (hg : g.WellFormed) {n m : Nat} {s : Symbol}
    (h : target? g n s = some m) {p d : Nat} (hi : (items g m).Has ⟨p, d + 1⟩) :
    (items g n).Has ⟨p, d⟩ ∧ Item.next? g ⟨p, d⟩ = some s := by
  rw [(target?_spec hg h).2.2.1] at hi
  rcases ItemSet.has_closure hi with hi | ⟨hd, -⟩
  · obtain ⟨⟨q, e⟩, hj, hnext, heq⟩ := ItemSet.says_advance.1 (show ItemSet.Says _ (_, none) from hi)
    simp only [Item.mk.injEq, Nat.add_right_cancel_iff] at heq
    obtain ⟨rfl, rfl⟩ := heq
    exact ⟨hj, hnext⟩
  · exact absurd hd (Nat.succ_ne_zero d)

/-- The initial set has no item that was begun. -/
theorem not_has_items_zero (hg : g.WellFormed) {p d : Nat} : ¬ (items g 0).Has ⟨p, d + 1⟩ := by
  rw [items_zero hg]
  intro h
  rcases ItemSet.has_closure h with h | ⟨hd, -⟩
  · obtain ⟨la, h⟩ := h
    simp [startKernel] at h
  · exact absurd hd (Nat.succ_ne_zero d)

/-- The set that begins production 0 is the initial one, unless `$accept` stands for
    itself. -/
theorem eq_zero_or_start (hg : g.WellFormed) {n m : Nat} {s : Symbol}
    (h : target? g n s = some m) (hi : (items g m).Has ⟨0, 0⟩) :
    g.productions[0]? = some ⟨g.accept, [g.accept, endSymbol]⟩ := by
  rw [(target?_spec hg h).2.2.1] at hi
  rcases ItemSet.has_closure hi with hi | ⟨-, j, hj, x, hx, hq⟩
  · obtain ⟨_, _, _, heq⟩ := ItemSet.says_advance.1 (show ItemSet.Says _ (_, none) from hi)
    simp at heq
  · obtain ⟨start, hstart⟩ := hg.start
    obtain ⟨production, hp, rfl⟩ := ItemSet.mem_productionsOf.1 hq
    obtain rfl : production = _ := Option.some.inj (hp.symm.trans hstart)
    have hmem : g.accept ∈ g.rhsOf j.production := List.mem_of_mem_drop (List.mem_of_head? hx)
    rw [Lowered.rhsOf, Array.getElem?_eq_getElem hj, Option.map_some, Option.getD_some] at hmem
    by_cases hz : j.production = 0
    · have h0 := Array.getElem?_eq_getElem hj
      simp only [hz] at h0 hmem
      rw [Option.some.inj (h0.symm.trans hstart)] at hmem
      simp only [List.mem_cons, List.not_mem_nil, or_false] at hmem
      rcases hmem with hmem | hmem
      · rw [hstart, hmem]
      · have := hg.end_lt
        exact absurd hmem (Nat.ne_of_gt this)
    · exact absurd rfl (hg.rhs_ne (Array.getElem?_eq_getElem hj) hz _ hmem).2

end Collection

/-! ## Entries -/

namespace Table

open Collection

variable {g : Lowered} {t : Table}

theorem state_of_build (h : (build g).result = .ok t) (n : Nat) :
    match (ofLowered g)[n]? with
    | none => t.states[n]? = none
    | some c => ∃ s, t.states[n]? = some s ∧ stateOf g c = .ok s := by
  have hspec := build_spec h
  cases hc : (ofLowered g)[n]? with
  | none =>
    rw [List.getElem?_eq_none_iff, hspec.length_eq] at hc
    exact Array.getElem?_eq_none (by simpa using hc)
  | some c =>
    obtain ⟨hlt, rfl⟩ := List.getElem?_eq_some_iff.1 hc
    have hlt' : n < t.states.toList.length := hspec.length_eq ▸ hlt
    refine ⟨t.states.toList[n], ?_, hspec.get hlt hlt'⟩
    simp only [Array.length_toList] at hlt'
    simp [hlt']

/-- The actions of a built table other than the default are those that the sets
    dictate. -/
theorem action_iff (h : (build g).result = .ok t) {n : Nat} {x : Symbol} {a : Action}
    (ha : a ≠ .error) :
    t.action n x = .ok a ↔ ∃ c, (ofLowered g)[n]? = some c ∧ (x, a) ∈ c.dictated g := by
  have hs := state_of_build h n
  cases hc : (ofLowered g)[n]? with
  | none =>
    rw [hc] at hs
    simp [action, state, hs]
  | some c =>
    rw [hc] at hs
    obtain ⟨s, hs, hstate⟩ := hs
    obtain ⟨actions, he, rfl⟩ := stateOf_eq_ok_iff.1 hstate
    have henter := enterAll_spec List.Pairwise.nil he x a
    rw [action_eq hs, Except.ok.injEq]
    simp only [Option.some.injEq, exists_eq_left', List.lookup_nil, reduceCtorEq, false_or] at henter ⊢
    rw [← henter]
    cases actions.lookup x with
    | none => simpa using Ne.symm ha
    | some b => simp

theorem action_shift_iff (hg : g.WellFormed) (h : (build g).result = .ok t) {n m : Nat}
    {x : Symbol} : t.action n x = .ok (.shift m) ↔ g.isTerminal x = true ∧ target? g n x = some m := by
  rw [action_iff h (by simp)]
  constructor
  · rintro ⟨c, hc, hm⟩
    rw [target?_eq_some_iff hg hc]
    exact CollectionState.mem_dictated_shift.1 hm
  · rintro ⟨hx, ht⟩
    obtain ⟨c, hc⟩ := exists_of_target? ht
    rw [target?_eq_some_iff hg hc] at ht
    exact ⟨c, hc, CollectionState.mem_dictated_shift.2 ⟨hx, ht⟩⟩

theorem action_accept_iff (h : (build g).result = .ok t) {n : Nat} {x : Symbol} :
    t.action n x = .ok .accept ↔ x = endSymbol ∧ (items g n).Has ⟨0, 1⟩ := by
  rw [action_iff h (by simp)]
  constructor
  · rintro ⟨c, hc, hm⟩
    rw [items_eq hc]
    exact CollectionState.mem_dictated_accept.1 hm
  · rintro ⟨rfl, hi⟩
    obtain ⟨c, hc⟩ := exists_of_has hi
    rw [items_eq hc] at hi
    exact ⟨c, hc, CollectionState.mem_dictated_accept.2 ⟨rfl, hi⟩⟩

theorem action_reduce_iff (hg : g.WellFormed) (h : (build g).result = .ok t) {n p : Nat}
    {x : Symbol} : t.action n x = .ok (.reduce p) ↔
      p ≠ 0 ∧ (items g n).Looks ⟨p, (g.rhsOf p).length⟩ x := by
  rw [action_iff h (by simp)]
  constructor
  · rintro ⟨c, hc, hm⟩
    rw [CollectionState.mem_dictated_reduce (items_eq hc ▸ valid_items hg n)] at hm
    rwa [items_eq hc]
  · rintro ⟨hp, hx⟩
    obtain ⟨c, hc⟩ := exists_of_has hx.has
    refine ⟨c, hc, (CollectionState.mem_dictated_reduce (items_eq hc ▸ valid_items hg n)).2 ?_⟩
    rw [items_eq hc] at hx
    exact ⟨hp, hx⟩

theorem goto?_iff (hg : g.WellFormed) (h : (build g).result = .ok t) {n m : Nat} {x : Symbol} :
    t.goto? n x = .ok (some m) ↔ g.isTerminal x = false ∧ target? g n x = some m := by
  have hs := state_of_build h n
  cases hc : (ofLowered g)[n]? with
  | none =>
    rw [hc] at hs
    have : t.goto? n x = .error (.outOfRange t.size n) := by simp only [goto?, state, hs]; rfl
    simp [this, target?, hc]
  | some c =>
    rw [hc] at hs
    obtain ⟨s, hs, hstate⟩ := hs
    obtain ⟨actions, -, rfl⟩ := stateOf_eq_ok_iff.1 hstate
    obtain ⟨kernels, -, -, -, hspec⟩ := ofLowered_spec hg
    have hnodup : ((c.gotos g).map Prod.fst).Nodup := by
      have hall : (c.moves.map Prod.fst).Nodup := by
        rw [(hspec n c hc).2.symbols]
        exact (List.nodup_range.filter _).filter _
      exact List.Nodup.sublist (List.filter_sublist.map Prod.fst) hall
    rw [goto?_eq hs, Except.ok.injEq, lookup_eq_some_iff_mem hnodup, target?_eq_some_iff hg hc]
    simp [CollectionState.gotos, and_comm]

end Table

end LanguageWorkbench
