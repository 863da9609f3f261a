import LanguageWorkbench.Proofs.Table

/-!
# Refused tables

A table is refused only for a conflict: a set of the collection dictates two different
actions for one terminal. The failure names the first such set, the terminal and both
actions.

Results:
* `Table.build_error`: what a failure to build says.
* `Table.exists_build_iff`: the grammars with a table are those without conflicts.
-/

namespace LanguageWorkbench

namespace Table

/-- Both actions are among the entries of one terminal, and they differ. -/
structure Conflict.Among (e : Conflict) (entries : List (Symbol × Action)) : Prop where
  first : (e.symbol, e.first) ∈ entries
  second : (e.symbol, e.second) ∈ entries
  ne : e.first ≠ e.second

/-! ## Entering actions -/

/-- An action is refused where another one is known. -/
theorem enter_error {known : List (Symbol × Action)} {s : Symbol} {a : Action} {e : Conflict}
    (he : enter s a known = .error e) :
    e.symbol = s ∧ e.second = a ∧ known.lookup s = some e.first ∧ e.first ≠ a := by
  induction known with
  | nil => cases he
  | cons c known ih =>
    obtain ⟨t, b⟩ := c
    simp only [enter] at he
    split_ifs at he with h₁ h₂ h₃
    · subst h₂
      cases he
      exact ⟨rfl, rfl, by simp, h₃⟩
    · cases hrest : enter s a known with
      | ok rest => rw [hrest] at he; cases he
      | error e' =>
        rw [hrest] at he
        cases he
        obtain ⟨hs, ha, hlookup, hne⟩ := ih hrest
        rw [List.lookup_cons, beq_eq_false_iff_ne.2 h₂]
        exact ⟨hs, ha, hlookup, hne⟩

theorem enterAll_error {entries known : List (Symbol × Action)} {e : Conflict}
    (h : Ascending known) (he : enterAll known entries = .error e) :
    (known.lookup e.symbol = some e.first ∨ (e.symbol, e.first) ∈ entries) ∧
      (e.symbol, e.second) ∈ entries ∧ e.first ≠ e.second := by
  induction entries generalizing known with
  | nil => cases he
  | cons c entries ih =>
    obtain ⟨s, a⟩ := c
    simp only [enterAll] at he
    cases hrest : enter s a known with
    | error e' =>
      rw [hrest] at he
      cases he
      obtain ⟨rfl, rfl, hlookup, hne⟩ := enter_error hrest
      exact ⟨.inl hlookup, List.mem_cons_self, hne⟩
    | ok rest =>
      rw [hrest] at he
      obtain ⟨hasc, -, hself, hother, -⟩ := enter_spec h hrest
      obtain ⟨hfirst, hsecond, hne⟩ := ih hasc he
      refine ⟨?_, List.mem_cons_of_mem _ hsecond, hne⟩
      rcases hfirst with hfirst | hfirst
      · by_cases hs : e.symbol = s
        · rw [hs, hself] at hfirst
          rw [← Option.some.inj hfirst, ← hs]
          exact .inr List.mem_cons_self
        · exact .inl (hother _ hs ▸ hfirst)
      · exact .inr (List.mem_cons_of_mem _ hfirst)

/-! ## States -/

variable {g : Lowered}

theorem stateOf_error {c : CollectionState} {e : Conflict} (h : stateOf g c = .error e) :
    e.Among (c.dictated g) := by
  simp only [stateOf] at h
  cases he : enterAll [] (c.dictated g) with
  | ok actions => rw [he] at h; cases h
  | error e' =>
    rw [he] at h
    cases h
    obtain ⟨hfirst, hsecond, hne⟩ := enterAll_error List.Pairwise.nil he
    exact ⟨hfirst.resolve_left (by simp), hsecond, hne⟩

theorem not_among_of_stateOf {c : CollectionState} {s : TableState} (h : stateOf g c = .ok s)
    (e : Conflict) : ¬ e.Among (c.dictated g) := by
  rintro ⟨hfirst, hsecond, hne⟩
  obtain ⟨actions, he, -⟩ := stateOf_eq_ok_iff.1 h
  have hone := (enterAll_spec List.Pairwise.nil he e.symbol e.first).2 (.inr hfirst)
  have htwo := (enterAll_spec List.Pairwise.nil he e.symbol e.second).2 (.inr hsecond)
  exact hne (Option.some.inj (hone.symm.trans htwo))

/-- States are refused for a conflict of the first set that has one. -/
theorem statesOf_error {n : Nat} {cs : List CollectionState} {f : Failure}
    (h : (statesOf g n cs).result = .error f) :
    ∃ (i : Nat) (c : CollectionState) (e : Conflict), cs[i]? = some c ∧ e.Among (c.dictated g) ∧
      f = .error (.conflict (n + i) (g.nameOf e.symbol) [g.describe e.first, g.describe e.second]) ∧
      ∀ j < i, ∀ c', cs[j]? = some c' → ∀ e', ¬ Conflict.Among e' (c'.dictated g) := by
  induction cs generalizing n with
  | nil => cases h
  | cons c cs ih =>
    simp only [statesOf] at h
    cases hc : stateOf g c with
    | error e =>
      rw [hc] at h
      cases h
      exact ⟨0, c, e, rfl, stateOf_error hc, rfl, fun j hj => absurd hj (Nat.not_lt_zero j)⟩
    | ok s =>
      simp only [hc, Noted.result_bind] at h
      cases hrest : (statesOf g (n + 1) cs).result with
      | ok rest => rw [hrest] at h; cases h
      | error f' =>
        rw [hrest] at h
        obtain rfl : f' = f := by simpa [Noted.tell, Except.bind] using h
        obtain ⟨i, c', e, hi, hamong, rfl, hbefore⟩ := ih hrest
        refine ⟨i + 1, c', e, hi, hamong, by rw [Nat.add_assoc, Nat.add_comm 1], ?_⟩
        intro j hj c'' hc'' e'
        cases j with
        | zero =>
          obtain rfl : c = c'' := by simpa using hc''
          exact not_among_of_stateOf hc e'
        | succ j => exact hbefore j (by omega) c'' hc'' e'

/-- A table is refused for a conflict of the first set that has one, and the failure
    names the set, the terminal and the two actions. -/
theorem build_error {f : Failure} (h : (build g).result = .error f) :
    ∃ (n : Nat) (c : CollectionState) (e : Conflict),
      (Collection.ofLowered g)[n]? = some c ∧ e.Among (c.dictated g) ∧
      f = .error (.conflict n (g.nameOf e.symbol) [g.describe e.first, g.describe e.second]) ∧
      ∀ m < n, ∀ c', (Collection.ofLowered g)[m]? = some c' →
        ∀ e', ¬ Conflict.Among e' (c'.dictated g) := by
  simp only [build, Noted.result_bind] at h
  cases hs : (statesOf g 0 (Collection.ofLowered g)).result with
  | ok states => rw [hs] at h; cases h
  | error f' =>
    rw [hs] at h
    cases h
    simpa using statesOf_error hs

theorem not_among_of_build {t : Table} (h : (build g).result = .ok t) {c : CollectionState}
    (hc : c ∈ Collection.ofLowered g) (e : Conflict) : ¬ e.Among (c.dictated g) := by
  obtain ⟨n, hn⟩ := List.getElem?_of_mem hc
  have hstate := state_of_build h n
  rw [hn] at hstate
  obtain ⟨s, -, hs⟩ := hstate
  exact not_among_of_stateOf hs e

/-- A grammar has a table iff no set of its collection has a conflict. -/
theorem exists_build_iff : (∃ t, (build g).result = .ok t) ↔
    ∀ c ∈ Collection.ofLowered g, ∀ e, ¬ Conflict.Among e (c.dictated g) := by
  constructor
  · rintro ⟨t, h⟩ c hc
    exact not_among_of_build h hc
  · intro h
    cases hb : (build g).result with
    | ok t => exact ⟨t, rfl⟩
    | error f =>
      obtain ⟨n, c, e, hn, he, -⟩ := build_error hb
      exact absurd he (h c (List.mem_of_getElem? hn) e)

end Table

end LanguageWorkbench
