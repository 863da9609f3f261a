import LanguageWorkbench.Proofs.Scratch
import Mathlib.Data.Finset.Card
import Mathlib.Tactic.Ring

/-!
# Reductions that end, end soon

The reductions for one terminal read no input, so what a piece of the stack does
depends on that piece alone until a reduction pops all of it. If the reductions end,
no state can come back on top of itself at the same height, and no piece of the
stack can grow out of itself. This bounds their number by `Machine.bound`.

The lemmas hold for every table, whether it was built from a grammar or not.

Results:
* `Machine.Replays`: the reductions of a piece of the stack, counted.
* `Machine.Replays.lt_bound`: how many reductions there can be.
* `Machine.checkStack_bound`: fuel beyond the bound makes no difference.
-/

namespace LanguageWorkbench.Machine

variable {m : Machine} {t : Symbol}

/-! ## Counting reductions -/

/-- What a state on top reduces: how many symbols, and to which nonterminal. -/
def reduction? (m : Machine) (t : Symbol) (top : Nat) : Option (Nat × Symbol) :=
  match m.table.action top t with
  | .ok (.reduce p) =>
    match m.production p with
    | .ok production => some (production.rhs.length, production.lhs)
    | .error _ => none
  | _ => none

/-- The state that follows a nonterminal, if there is one. -/
def next? (m : Machine) (state : Nat) (s : Symbol) : Option Nat :=
  match m.table.goto? state s with
  | .ok next => next
  | .error _ => none

/-- `m.Replays t x c o`: on a stack with the piece `x` on top, `c` reductions happen
    until they end, when `o` is nothing, or until one of them has popped the piece and
    `k` states more for the nonterminal `s`, when `o` is `(k, s)`. -/
inductive Replays (m : Machine) (t : Symbol) :
    List Nat → Nat → Option (Nat × Symbol) → Prop
  | ends {top : Nat} {below : List Nat} (h : m.reduction? t top = none) :
      m.Replays t (top :: below) 0 none
  | falls {top n : Nat} {below : List Nat} {s : Symbol} (h : m.reduction? t top = some (n, s))
      (hn : (top :: below).length ≤ n) :
      m.Replays t (top :: below) 1 (some (n - (top :: below).length, s))
  | stuck {top n state : Nat} {below rest : List Nat} {s : Symbol}
      (h : m.reduction? t top = some (n, s)) (hd : (top :: below).drop n = state :: rest)
      (hnext : m.next? state s = none) : m.Replays t (top :: below) 1 none
  | goes {top n state next c : Nat} {below rest : List Nat} {s : Symbol}
      {o : Option (Nat × Symbol)}
      (h : m.reduction? t top = some (n, s)) (hd : (top :: below).drop n = state :: rest)
      (hnext : m.next? state s = some next) (hs : m.Replays t (next :: state :: rest) c o) :
      m.Replays t (top :: below) (c + 1) o

/-- A piece of the stack makes its reductions in one way only. -/
theorem Replays.unique {x : List Nat} {c c' : Nat} {o o' : Option (Nat × Symbol)}
    (h : m.Replays t x c o) (h' : m.Replays t x c' o') : c = c' ∧ o = o' := by
  induction h generalizing c' with
  | ends h => cases h' <;> simp_all
  | falls h hn =>
    cases h' with
    | ends => simp_all
    | falls h' hn' =>
      rw [h, Option.some.injEq, Prod.mk.injEq] at h'
      rw [h'.1, h'.2]
      exact ⟨rfl, rfl⟩
    | stuck h' hd | goes h' hd =>
      rw [h, Option.some.injEq, Prod.mk.injEq] at h'
      rw [← h'.1, List.drop_eq_nil_of_le hn] at hd
      cases hd
  | stuck h hd hnext =>
    cases h' with
    | ends => simp_all
    | falls h' hn =>
      rw [h, Option.some.injEq, Prod.mk.injEq] at h'
      rw [h'.1, List.drop_eq_nil_of_le hn] at hd
      cases hd
    | stuck => exact ⟨rfl, rfl⟩
    | goes h' hd' hnext' =>
      rw [h, Option.some.injEq, Prod.mk.injEq] at h'
      rw [h'.1, hd', List.cons.injEq] at hd
      rw [← hd.1, h'.2, hnext'] at hnext
      cases hnext
  | goes h hd hnext hs ih =>
    cases h' with
    | ends => simp_all
    | falls h' hn =>
      rw [h, Option.some.injEq, Prod.mk.injEq] at h'
      rw [h'.1, List.drop_eq_nil_of_le hn] at hd
      cases hd
    | stuck h' hd' hnext' =>
      rw [h, Option.some.injEq, Prod.mk.injEq] at h'
      rw [h'.1, hd', List.cons.injEq] at hd
      rw [← hd.1, h'.2, hnext'] at hnext
      cases hnext
    | goes h' hd' hnext' hs' =>
      rw [h, Option.some.injEq, Prod.mk.injEq] at h'
      obtain ⟨rfl, rfl⟩ := h'
      rw [hd', List.cons.injEq] at hd
      obtain ⟨rfl, rfl⟩ := hd
      rw [hnext, Option.some.injEq] at hnext'
      subst hnext'
      obtain ⟨rfl, rfl⟩ := ih hs'
      exact ⟨rfl, rfl⟩

theorem Replays.pos_of_some {x : List Nat} {c : Nat} {o : Option (Nat × Symbol)}
    (h : m.Replays t x c o) {k : Nat} {s : Symbol} (ho : o = some (k, s)) : 0 < c := by
  cases h with
  | ends => cases ho
  | falls => exact Nat.one_pos
  | stuck => cases ho
  | goes => exact Nat.succ_pos _

/-- The upper part of a piece makes its reductions first. Then the whole piece is
    done, or a state below comes to the top and is covered again. -/
theorem Replays.split {x y z : List Nat} {c : Nat} {o : Option (Nat × Symbol)}
    (h : m.Replays t z c o) (hz : z = x ++ y) (hx : x ≠ []) :
    ∃ c₁ o₁, m.Replays t x c₁ o₁ ∧ (c = c₁ ∨ ∃ k s state rest next c₂, o₁ = some (k, s) ∧
      y.drop k = state :: rest ∧ m.Replays t (next :: state :: rest) c₂ o ∧ c = c₁ + c₂) := by
  induction h generalizing x with
  | ends h =>
    cases x with
    | nil => exact absurd rfl hx
    | cons top below =>
      obtain ⟨rfl, -⟩ := List.cons.inj hz
      exact ⟨0, none, .ends h, .inl rfl⟩
  | @falls top n below s h hn =>
    cases x with
    | nil => exact absurd rfl hx
    | cons top below =>
      obtain ⟨rfl, rfl⟩ := List.cons.inj hz
      have : (top :: below).length ≤ (top :: (below ++ y)).length := by simp
      exact ⟨1, _, .falls h (this.trans hn), .inl rfl⟩
  | @stuck top n state below rest s h hd hnext =>
    cases x with
    | nil => exact absurd rfl hx
    | cons top below =>
      obtain ⟨rfl, rfl⟩ := List.cons.inj hz
      by_cases hn : (top :: below).length ≤ n
      · exact ⟨1, _, .falls h hn, .inl rfl⟩
      · rw [hz, List.drop_append_of_le_length (Nat.le_of_lt (Nat.lt_of_not_le hn))] at hd
        obtain ⟨state', rest', hd'⟩ := List.exists_cons_of_length_pos
          (l := (top :: below).drop n) (by rw [List.length_drop]; omega)
        rw [hd', List.cons_append, List.cons.injEq] at hd
        exact ⟨1, none, .stuck h hd' (hd.1 ▸ hnext), .inl rfl⟩
  | @goes top n state next c below rest s o h hd hnext hs ih =>
    cases x with
    | nil => exact absurd rfl hx
    | cons top below =>
      obtain ⟨rfl, rfl⟩ := List.cons.inj hz
      by_cases hn : (top :: below).length ≤ n
      · refine ⟨1, _, .falls h hn, .inr ⟨_, s, state, rest, next, c, rfl, ?_, hs, by omega⟩⟩
        rw [hz, List.drop_append, List.drop_eq_nil_of_le hn] at hd
        exact hd
      · rw [hz, List.drop_append_of_le_length (Nat.le_of_lt (Nat.lt_of_not_le hn))] at hd
        obtain ⟨state', rest', hd'⟩ := List.exists_cons_of_length_pos
          (l := (top :: below).drop n) (by rw [List.length_drop]; omega)
        rw [hd', List.cons_append, List.cons.injEq] at hd
        obtain ⟨rfl, rfl⟩ := hd
        obtain ⟨c₁, o₁, h₁, hc⟩ := ih (x := next :: state' :: rest') rfl (by simp)
        refine ⟨c₁ + 1, o₁, .goes h hd' hnext h₁, ?_⟩
        rcases hc with rfl | ⟨k, s', state, rest, next', c₂, ho, hdrop, h₂, rfl⟩
        · exact .inl rfl
        · exact .inr ⟨k, s', state, rest, next', c₂, ho, hdrop, h₂, by omega⟩

theorem reduction?_eq_none {top : Nat} (h : ¬ top < m.table.size) :
    m.reduction? t top = none := by
  have : m.table.states[top]? = none := Array.getElem?_eq_none (Nat.le_of_not_lt h)
  simp only [reduction?, Table.action, Table.state, this]
  rfl

theorem Replays.eq_zero {top : Nat} {below : List Nat} {c : Nat} {o : Option (Nat × Symbol)}
    (h : m.Replays t (top :: below) c o) (htop : ¬ top < m.table.size) : c = 0 := by
  have hnone := reduction?_eq_none (t := t) htop
  cases h <;> simp_all

/-! ## Bounding their number -/

open Classical in
/-- The states that need at most `c` reductions on top of a stack. -/
noncomputable def within (m : Machine) (t : Symbol) (base : List Nat) (c : Nat) : Finset Nat :=
  (Finset.range m.table.size).filter fun r => ∃ c' o, m.Replays t (r :: base) c' o ∧ c' ≤ c

theorem mem_within {base : List Nat} {c r : Nat} :
    r ∈ m.within t base c ↔ r < m.table.size ∧
      ∃ c' o, m.Replays t (r :: base) c' o ∧ c' ≤ c := by
  simp [within]

theorem card_within_le (base : List Nat) (c : Nat) :
    (m.within t base c).card ≤ m.table.size := by
  classical
  exact (Finset.card_filter_le _ _).trans_eq (Finset.card_range _)

theorem card_within_lt {base : List Nat} {r c c' : Nat} {o : Option (Nat × Symbol)}
    (hr : r < m.table.size) (h : m.Replays t (r :: base) c o) (hlt : c' < c) :
    (m.within t base c').card < (m.within t base c).card := by
  refine Finset.card_lt_card ((Finset.ssubset_iff_of_subset ?_).2 ⟨r, ?_, ?_⟩)
  · intro q hq
    obtain ⟨hq, c₁, o₁, h₁, hle⟩ := mem_within.1 hq
    exact mem_within.2 ⟨hq, c₁, o₁, h₁, by omega⟩
  · exact mem_within.2 ⟨hr, c, o, h, le_rfl⟩
  · intro hm
    obtain ⟨-, c₁, o₁, h₁, hle⟩ := mem_within.1 hm
    have := (h.unique h₁).1
    omega

/-- On one level of the stack, no state comes to the top twice. So there are at most as
    many returns to the level as there are states, and then at most `l` reductions on
    the levels below. -/
theorem Replays.le_level {base : List Nat} {b l : Nat} :
    ∀ (c r : Nat) (o : Option (Nat × Symbol)), m.Replays t (r :: base) c o →
      (∀ r c₁ o₁, r < m.table.size → m.Replays t [r] c₁ o₁ → c₁ ≤ c → c₁ ≤ b) →
      (∀ k state rest next c₂ o₂, base.drop (k + 1) = state :: rest →
        m.Replays t (next :: state :: rest) c₂ o₂ → c₂ ≤ l) →
      c ≤ (m.within t base c).card * b + l := by
  intro c
  induction c using Nat.strong_induction_on with
  | _ c ih =>
    intro r o h hb hl
    by_cases hr : r < m.table.size
    · have hpos : 1 ≤ (m.within t base c).card :=
        Finset.card_pos.2 ⟨r, mem_within.2 ⟨hr, c, o, h, le_rfl⟩⟩
      have hmul := Nat.mul_le_mul_right b hpos
      obtain ⟨c₁, o₁, h₁, hc⟩ := h.split (x := [r]) rfl (by simp)
      rcases hc with rfl | ⟨k, s, state, rest, next, c₂, ho, hdrop, h₂, rfl⟩
      · have := hb r c o₁ hr h₁ le_rfl
        omega
      · have hc₁ := hb r c₁ o₁ hr h₁ (by omega)
        have hc₁pos := h₁.pos_of_some ho
        cases k with
        | zero =>
          rw [List.drop_zero] at hdrop
          subst hdrop
          have hc₂ := ih c₂ (by omega) next o h₂ (fun r c o hr h hle => hb r c o hr h (by omega)) hl
          have hcard := card_within_lt hr h (show c₂ < c₁ + c₂ by omega)
          have hmul' := Nat.mul_le_mul_right b (Nat.succ_le_of_lt hcard)
          rw [Nat.succ_mul] at hmul'
          omega
        | succ k =>
          have := hl k state rest next c₂ o hdrop h₂
          omega
    · rw [h.eq_zero hr]
      exact Nat.zero_le _

/-- The reductions of a single state. -/
theorem Replays.le_single :
    ∀ (c q : Nat) (o : Option (Nat × Symbol)), m.Replays t [q] c o →
      c ≤ (m.table.size + 1) ^ ((m.within t [] c).card - 1) := by
  intro c
  induction c using Nat.strong_induction_on with
  | _ c ih =>
    intro q o h
    have hone : 1 ≤ (m.table.size + 1) ^ ((m.within t [] c).card - 1) :=
      Nat.one_le_pow _ _ (Nat.succ_pos _)
    cases h with
    | ends => exact Nat.zero_le _
    | falls => exact hone
    | stuck => exact hone
    | @goes _ n state next c below rest s _ hr hd hnext hs =>
      -- only a reduction of nothing leaves the state on the stack
      have hn : n = 0 := by
        by_contra hne
        rw [List.drop_eq_nil_of_le (by simp; omega)] at hd
        cases hd
      subst hn
      obtain ⟨rfl, rfl⟩ := List.cons.inj hd
      have hq : q < m.table.size := by
        by_contra hq
        rw [reduction?_eq_none hq] at hr
        cases hr
      have hself : m.Replays t [q] (c + 1) o := .goes hr rfl hnext hs
      have hlevel := fun b hb => Replays.le_level (b := b) (l := 0) c next o hs hb (by simp)
      have hcard := card_within_le (m := m) (t := t) [q] c
      by_cases hsmall : (m.within t [] (c + 1)).card ≤ 1
      · -- no state needs fewer reductions, so none happen on top
        have := hlevel 0 fun r c₁ o₁ hr h₁ hle => by
          have := card_within_lt hq hself (show c < c + 1 by omega)
          have hm : r ∈ m.within t [] c := mem_within.2 ⟨hr, c₁, o₁, h₁, hle⟩
          have := Finset.card_pos.2 ⟨r, hm⟩
          omega
        omega
      · have hb := hlevel ((m.table.size + 1) ^ ((m.within t [] (c + 1)).card - 2))
          fun r c₁ o₁ hr h₁ hle => by
            refine (ih c₁ (by omega) r o₁ h₁).trans (Nat.pow_le_pow_right (Nat.succ_pos _) ?_)
            have hlt := card_within_lt hq hself (show c₁ < c + 1 by omega)
            omega
        have hpow : (m.table.size + 1) ^ ((m.within t [] (c + 1)).card - 1) =
            (m.table.size + 1) ^ ((m.within t [] (c + 1)).card - 2) *
              (m.table.size + 1) := by
          rw [← pow_succ]
          congr 1
          omega
        have hpos : 1 ≤ (m.table.size + 1) ^ ((m.within t [] (c + 1)).card - 2) :=
          Nat.one_le_pow _ _ (Nat.succ_pos _)
        have hmul := Nat.mul_le_mul_right
          ((m.table.size + 1) ^ ((m.within t [] (c + 1)).card - 2)) hcard
        rw [hpow, Nat.mul_succ, Nat.mul_comm _ m.table.size]
        omega

/-- The reductions on a stack with one state on top of `base`. -/
theorem Replays.le_stack :
    ∀ (base : List Nat) (r c : Nat) (o : Option (Nat × Symbol)), m.Replays t (r :: base) c o →
      c ≤ (base.length + 1) * (m.table.size + 1) ^ (m.table.size + 1) := by
  intro base
  induction hlen : base.length using Nat.strong_induction_on generalizing base with
  | _ n ih =>
    intro r c o h
    have hlevel := Replays.le_level (b := (m.table.size + 1) ^ m.table.size)
      (l := n * (m.table.size + 1) ^ (m.table.size + 1)) c r o h ?_ ?_
    · have hcard := Nat.mul_le_mul_right ((m.table.size + 1) ^ m.table.size)
        (card_within_le (m := m) (t := t) base c)
      have hpow : (m.table.size + 1) ^ (m.table.size + 1) =
          m.table.size * (m.table.size + 1) ^ m.table.size +
            (m.table.size + 1) ^ m.table.size := by
        rw [pow_succ, Nat.mul_succ, Nat.mul_comm]
      rw [Nat.add_mul, Nat.one_mul]
      omega
    · intro r c₁ o₁ _ h₁ _
      refine (h₁.le_single c₁ r o₁).trans (Nat.pow_le_pow_right (Nat.succ_pos _) ?_)
      have := card_within_le (m := m) (t := t) [] c₁
      omega
    · intro k state rest next c₂ o₂ hdrop h₂
      have hrest : (state :: rest).length ≤ n - 1 := by
        rw [← hdrop, List.length_drop, hlen]
        omega
      have hn : 0 < n := by
        by_contra hn
        have : base = [] := List.length_eq_zero_iff.1 (by omega)
        rw [this, List.drop_nil] at hdrop
        cases hdrop
      refine (ih _ (by omega) (state :: rest) rfl next c₂ o₂ h₂).trans ?_
      exact Nat.mul_le_mul_right _ (by omega)

/-- Reductions that end stay below the bound. -/
theorem Replays.lt_bound {states : List Nat} {c : Nat} {o : Option (Nat × Symbol)}
    (h : m.Replays t states c o) : c < m.bound states.length := by
  have hpow : (m.table.size + 1) ^ (m.table.size + 1) ≤
      (m.table.size + 1) ^ (m.table.size + 2) :=
    Nat.pow_le_pow_right (Nat.succ_pos _) (Nat.le_succ _)
  have hpos : 1 ≤ (m.table.size + 1) ^ (m.table.size + 2) := Nat.one_le_pow _ _ (Nat.succ_pos _)
  have hbound : m.bound states.length =
      states.length * (m.table.size + 1) ^ (m.table.size + 2) +
        (m.table.size + 1) ^ (m.table.size + 2) := by
    rw [← Nat.succ_mul]
    rfl
  cases states with
  | nil => cases h
  | cons r base =>
    have hle := (h.le_stack base r c o).trans (Nat.mul_le_mul_left (base.length + 1) hpow)
    simp only [List.length_cons] at hbound ⊢
    omega

/-! ## Fuel -/

/-- Checking looks at the top of the stack and at what the reduction uncovers. -/
theorem checkStack_of_reduction? {top n fuel : Nat} {below : List Nat} {s : Symbol}
    (h : m.reduction? t top = some (n, s)) :
    m.checkStack t (fuel + 1) (top :: below) =
      match (top :: below).drop n with
      | [] => .ok false
      | state :: rest =>
        match m.table.goto? state s with
        | .error f => .error f
        | .ok none => .ok false
        | .ok (some next) => m.checkStack t fuel (next :: state :: rest) := by
  unfold reduction? at h
  split at h
  · rename_i p hp
    split at h
    · rename_i production hprod
      simp only [Option.some.injEq, Prod.mk.injEq] at h
      obtain ⟨rfl, rfl⟩ := h
      simp only [checkStack, hp, hprod, bind, Except.bind]
      cases (top :: below).drop production.rhs.length with
      | nil => rfl
      | cons state rest =>
        cases hgoto : m.table.goto? state production.lhs with
        | error f => simp only [hgoto]
        | ok next =>
          simp only [hgoto]
          cases next <;> rfl
    · cases h
  · cases h

/-- A state without a reduction decides at once. -/
theorem checkStack_of_none {top : Nat} {below : List Nat} (h : m.reduction? t top = none)
    (fuel : Nat) : m.checkStack t (fuel + 1) (top :: below) = m.checkStack t 1 (top :: below) ∧
      m.checkStack t (fuel + 1) (top :: below) ≠ .error .endlessReductions := by
  unfold reduction? at h
  simp only [checkStack, bind, Except.bind]
  cases haction : m.table.action top t with
  | error f =>
    refine ⟨rfl, fun he => ?_⟩
    simp only [Table.action, Table.state] at haction
    cases hs : m.table.states[top]? with
    | some s => simp [hs, bind, Except.bind, pure, Except.pure] at haction
    | none =>
      simp only [hs, bind, Except.bind, Except.error.injEq] at haction he
      rw [← haction] at he
      cases he
  | ok a =>
    cases a with
    | shift => simp [pure, Except.pure]
    | accept => simp [pure, Except.pure]
    | error => simp [pure, Except.pure]
    | reduce p =>
      simp only [haction] at h
      cases hprod : m.production p with
      | ok production => rw [hprod] at h; cases h
      | error f =>
        simp only [hprod]
        refine ⟨trivial, fun he => ?_⟩
        simp only [production] at hprod
        split at hprod
        · cases hprod
        · simp only [Except.error.injEq] at hprod he
          rw [← hprod] at he
          cases he

theorem goto?_ne_endless (state : Nat) (s : Symbol) :
    m.table.goto? state s ≠ .error .endlessReductions := by
  simp only [Table.goto?, Table.state]
  cases m.table.states[state]? <;> simp [bind, Except.bind, pure, Except.pure]

theorem next?_eq_none_iff {state : Nat} {s : Symbol} :
    m.next? state s = none ↔ ¬ ∃ next, m.table.goto? state s = .ok (some next) := by
  unfold next?
  cases m.table.goto? state s with
  | error f => simp
  | ok next => cases next <;> simp

theorem next?_eq_some_iff {state next : Nat} {s : Symbol} :
    m.next? state s = some next ↔ m.table.goto? state s = .ok (some next) := by
  unfold next?
  cases m.table.goto? state s <;> simp

/-- An answer of a check comes from reductions that end. -/
theorem exists_replays_of_checkStack :
    ∀ (fuel : Nat) (states : List Nat), states ≠ [] →
      m.checkStack t fuel states ≠ .error .endlessReductions →
      ∃ c o, m.Replays t states c o := by
  intro fuel
  induction fuel with
  | zero => intro states _ h; exact absurd rfl h
  | succ fuel ih =>
    intro states hne h
    cases states with
    | nil => exact absurd rfl hne
    | cons top below =>
      cases hr : m.reduction? t top with
      | none => exact ⟨0, none, .ends hr⟩
      | some r =>
        obtain ⟨n, s⟩ := r
        rw [checkStack_of_reduction? hr] at h
        cases hd : (top :: below).drop n with
        | nil => exact ⟨1, _, .falls hr (List.drop_eq_nil_iff.1 hd)⟩
        | cons state rest =>
          cases hnext : m.next? state s with
          | none => exact ⟨1, none, .stuck hr hd hnext⟩
          | some next =>
            simp only [hd, next?_eq_some_iff.1 hnext] at h
            obtain ⟨c, o, hc⟩ := ih _ (by simp) h
            exact ⟨c + 1, o, .goes hr hd hnext hc⟩

/-- More fuel does not change an answer. -/
theorem checkStack_add : ∀ {fuel : Nat} {states : List Nat},
    m.checkStack t fuel states ≠ .error .endlessReductions → ∀ more,
      m.checkStack t (fuel + more) states = m.checkStack t fuel states := by
  intro fuel
  induction fuel with
  | zero => intro states h; exact absurd rfl h
  | succ fuel ih =>
    intro states h more
    rw [Nat.succ_add]
    cases states with
    | nil => rfl
    | cons top below =>
      cases hr : m.reduction? t top with
      | none => exact ((checkStack_of_none hr _).1).trans (checkStack_of_none hr fuel).1.symm
      | some r =>
        obtain ⟨n, s⟩ := r
        rw [checkStack_of_reduction? hr] at h
        rw [checkStack_of_reduction? hr, checkStack_of_reduction? hr]
        cases hd : (top :: below).drop n with
        | nil => rfl
        | cons state rest =>
          simp only [hd] at h ⊢
          cases hg : m.table.goto? state s with
          | error f => rfl
          | ok next =>
            cases next with
            | none => rfl
            | some next =>
              simp only [hg] at h
              exact ih h more

/-- Reductions that end give an answer, and further fuel does not change it. -/
theorem Replays.checkStack_eq {states : List Nat} {c : Nat} {o : Option (Nat × Symbol)}
    (h : m.Replays t states c o) : ∀ fuel, c < fuel →
      m.checkStack t fuel states = m.checkStack t (c + 1) states ∧
        m.checkStack t fuel states ≠ .error .endlessReductions := by
  induction h with
  | ends hr =>
    intro fuel hfuel
    obtain ⟨fuel, rfl⟩ := Nat.exists_eq_succ_of_ne_zero (Nat.ne_of_gt hfuel)
    exact checkStack_of_none hr fuel
  | falls hr hn =>
    intro fuel hfuel
    obtain ⟨fuel, rfl⟩ := Nat.exists_eq_succ_of_ne_zero (Nat.ne_zero_of_lt hfuel)
    simp [checkStack_of_reduction? hr, List.drop_eq_nil_of_le hn]
  | @stuck top n state below rest s hr hd hnext =>
    intro fuel hfuel
    obtain ⟨fuel, rfl⟩ := Nat.exists_eq_succ_of_ne_zero (Nat.ne_zero_of_lt hfuel)
    have hgoto := goto?_ne_endless (m := m) state s
    rw [next?_eq_none_iff] at hnext
    simp only [checkStack_of_reduction? hr, hd]
    cases hg : m.table.goto? state s with
    | error f =>
      rw [hg] at hgoto
      exact ⟨rfl, fun he => hgoto (by simpa using he)⟩
    | ok next =>
      cases next with
      | none => simp
      | some next => exact absurd ⟨next, hg⟩ hnext
  | @goes top n state next c below rest s o hr hd hnext hs ih =>
    intro fuel hfuel
    obtain ⟨fuel, rfl⟩ := Nat.exists_eq_succ_of_ne_zero (Nat.ne_zero_of_lt hfuel)
    simp only [checkStack_of_reduction? hr, hd, next?_eq_some_iff.1 hnext]
    exact ih fuel (by omega)

/-- An answer that some fuel gives is the answer that the bound gives. -/
theorem checkStack_bound {fuel : Nat} {states : List Nat} (hne : states ≠ [])
    (h : m.checkStack t fuel states ≠ .error .endlessReductions) :
    m.checkStack t (m.bound states.length) states = m.checkStack t fuel states := by
  obtain ⟨c, o, hc⟩ := exists_replays_of_checkStack fuel states hne h
  have hbound := (hc.checkStack_eq _ hc.lt_bound).1
  have hmax := hc.checkStack_eq (max fuel (c + 1)) (by omega)
  have hmono := checkStack_add h (max fuel (c + 1) - fuel)
  rw [show fuel + (max fuel (c + 1) - fuel) = max fuel (c + 1) by omega] at hmono
  rw [hbound, ← hmax.1, hmono]

end LanguageWorkbench.Machine
