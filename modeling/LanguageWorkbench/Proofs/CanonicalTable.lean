import LanguageWorkbench.Proofs.Canonical
import LanguageWorkbench.Proofs.Conflicts
import LanguageWorkbench.Proofs.Recognition

/-!
# Tables are canonical

A table has a state for each kernel of the canonical collection and exactly the entries
that the closures of the kernels dictate. It is refused if and only if two of the
actions that one closure dictates for one terminal differ, and the failure tells such a
conflict.

Results:
* `Collection.dictates_iff`: a set of the collection dictates what its map dictates.
* `Table.build_canonical`: tables, conflicts and their reports.
-/

namespace LanguageWorkbench

namespace ItemMap

/-- What a map dictates to do for a terminal, where the kernels are known by number:
    terminals after dots are shifted, `$end` is accepted once the start symbol is
    complete, and other complete items are reduced on their lookaheads. -/
inductive Dictates (g : Lowered) (kernels : List ItemMap) (S : ItemMap) : Symbol → Action → Prop
  | shift {i : Item} {x : Symbol} {n : Nat} (hi : (i, none) ∈ S) (hx : i.next? g = some x)
      (hterminal : g.isTerminal x = true) (hne : x ≠ endSymbol)
      (hn : kernels[n]? = some (S.advance g x)) : Dictates g kernels S x (.shift n)
  | accept (hi : (⟨0, 1⟩, none) ∈ S) : Dictates g kernels S endSymbol .accept
  | reduce {p : Nat} {x : Symbol} (hp : p ≠ 0)
      (hi : (⟨p, (g.rhsOf p).length⟩, some x) ∈ S) : Dictates g kernels S x (.reduce p)

/-- Where a map leads after a nonterminal. -/
def Leads (g : Lowered) (kernels : List ItemMap) (S : ItemMap) (x : Symbol) (n : Nat) : Prop :=
  g.isTerminal x = false ∧ (∃ i : Item, (i, none) ∈ S ∧ i.next? g = some x) ∧
    kernels[n]? = some (S.advance g x)

/-- A map dictates two different actions for a terminal. -/
structure Conflict (g : Lowered) (kernels : List ItemMap) (S : ItemMap) (x : Symbol)
    (a b : Action) : Prop where
  first : S.Dictates g kernels x a
  second : S.Dictates g kernels x b
  ne : a ≠ b

end ItemMap

/-- A table has a state for each kernel, with the entries that its closure dictates and no
    others. -/
structure Table.Follows (t : Table) (g : Lowered) (kernels : List ItemMap) : Prop where
  size : t.size = kernels.length
  action : ∀ {n : Nat} {K : ItemMap}, kernels[n]? = some K → ∀ x a,
    (K.closure g).Dictates g kernels x a → t.action n x = .ok a
  error : ∀ {n : Nat} {K : ItemMap}, kernels[n]? = some K → ∀ x,
    (∀ a, ¬ (K.closure g).Dictates g kernels x a) → t.action n x = .ok .error
  goto : ∀ {n : Nat} {K : ItemMap}, kernels[n]? = some K → ∀ x m,
    (K.closure g).Leads g kernels x m → t.goto? n x = .ok (some m)
  none : ∀ {n : Nat} {K : ItemMap}, kernels[n]? = some K → ∀ x,
    (∀ m, ¬ (K.closure g).Leads g kernels x m) → t.goto? n x = .ok none

namespace Collection

open ItemMap (said)

variable {g : Lowered} {c : CollectionState} {x : Symbol}

/-- A set of the collection dictates what its map dictates. -/
theorem dictates_iff (hg : g.WellFormed) (hc : c ∈ ofLowered g) {a : Action} :
    (said c.items).Dictates g (kernels g) x a ↔ (x, a) ∈ c.dictated g := by
  have hvalid : c.items.Valid g := by
    obtain ⟨n, hn⟩ := List.getElem?_of_mem hc
    exact items_eq hn ▸ valid_items hg n
  constructor
  · intro h
    cases h with
    | shift hi hx hterminal hne hn =>
      exact CollectionState.mem_dictated_shift.2
        ⟨hterminal, (mem_moves hg hc).2 ⟨⟨_, hi, hx⟩, hne, hn⟩⟩
    | accept hi => exact CollectionState.mem_dictated_accept.2 ⟨rfl, hi⟩
    | reduce hp hi => exact (CollectionState.mem_dictated_reduce hvalid).2 ⟨hp, hi⟩
  · intro h
    cases a with
    | shift m =>
      obtain ⟨hterminal, hm⟩ := CollectionState.mem_dictated_shift.1 h
      obtain ⟨⟨i, hi, hx⟩, hne, hn⟩ := (mem_moves hg hc).1 hm
      exact .shift hi hx hterminal hne hn
    | reduce p =>
      obtain ⟨hp, hi⟩ := (CollectionState.mem_dictated_reduce hvalid).1 h
      exact .reduce hp hi
    | accept =>
      obtain ⟨rfl, hi⟩ := CollectionState.mem_dictated_accept.1 h
      exact .accept hi
    | error => exact absurd h CollectionState.not_mem_dictated_error

theorem conflict_iff (hg : g.WellFormed) (hc : c ∈ ofLowered g) {e : Table.Conflict} :
    e.Among (c.dictated g) ↔
      (said c.items).Conflict g (kernels g) e.symbol e.first e.second := by
  constructor
  · rintro ⟨hfirst, hsecond, hne⟩
    exact ⟨(dictates_iff hg hc).2 hfirst, (dictates_iff hg hc).2 hsecond, hne⟩
  · rintro ⟨hfirst, hsecond, hne⟩
    exact ⟨(dictates_iff hg hc).1 hfirst, (dictates_iff hg hc).1 hsecond, hne⟩

/-- A number of a kernel is the number of the explored set with the kernel. -/
theorem exists_of_getElem?_kernels (hg : g.WellFormed) {n : Nat} {K : ItemMap}
    (h : (kernels g)[n]? = some K) :
    ∃ c, (ofLowered g)[n]? = some c ∧ c ∈ ofLowered g ∧ said c.items = K.closure g := by
  obtain ⟨c, hn, rfl⟩ := getElem?_kernels.1 h
  exact ⟨c, hn, List.mem_of_getElem? hn, said_items hg (List.mem_of_getElem? hn)⟩

end Collection

namespace Table

open Collection

open ItemMap (said)

variable {g : Lowered} {t : Table}

/-! ## Built tables -/

theorem action_of_not_dictated (h : (build g).result = .ok t) {n : Nat} {c : CollectionState}
    (hn : (ofLowered g)[n]? = some c) {x : Symbol} (hx : ∀ a, (x, a) ∉ c.dictated g) :
    t.action n x = .ok .error := by
  have hs := state_of_build h n
  rw [hn] at hs
  obtain ⟨s, hs, -⟩ := hs
  have hsome := action_eq hs x
  rw [hsome, Except.ok.injEq]
  by_contra hne
  obtain ⟨c', hc', hm⟩ := (action_iff h hne).1 hsome
  rw [hn] at hc'
  exact hx _ (Option.some.inj hc' ▸ hm)

theorem goto?_of_not_target (h : (build g).result = .ok t) {n : Nat} {c : CollectionState}
    (hn : (ofLowered g)[n]? = some c) {x : Symbol} (hx : ∀ m, t.goto? n x ≠ .ok (some m)) :
    t.goto? n x = .ok none := by
  have hs := state_of_build h n
  rw [hn] at hs
  obtain ⟨s, hs, -⟩ := hs
  rw [goto?_eq hs] at hx ⊢
  cases hlookup : s.gotos.lookup x with
  | none => rfl
  | some m => exact absurd (hlookup ▸ rfl) (hx m)

theorem follows_of_build (hg : g.WellFormed) (h : (build g).result = .ok t) :
    t.Follows g (kernels g) := by
  have hgoto : ∀ {n : Nat} {K : ItemMap} {x : Symbol} {m : Nat}, (kernels g)[n]? = some K →
      (t.goto? n x = .ok (some m) ↔ (K.closure g).Leads g (kernels g) x m) := by
    intro n K x m hK
    obtain ⟨c, hn, hc, hitems⟩ := exists_of_getElem?_kernels hg hK
    rw [goto?_iff hg h, target?_eq_some_iff hg hn, mem_moves hg hc, hitems, ItemMap.Leads]
    refine and_congr_right fun hx => and_congr_right fun _ => and_iff_right ?_
    rintro rfl
    simp [Lowered.isTerminal, hg.end_lt] at hx
  refine ⟨?_, fun hK x a ha => ?_, fun hK x hx => ?_, fun hK x m hm => (hgoto hK).2 hm,
    fun hK x hx => ?_⟩
  · have := (build_spec h).length_eq
    simpa [kernels, size] using this.symm
  · obtain ⟨c, hn, hc, hitems⟩ := exists_of_getElem?_kernels hg hK
    rw [← hitems, dictates_iff hg hc] at ha
    have hne : a ≠ .error := fun he => CollectionState.not_mem_dictated_error (he ▸ ha)
    exact (action_iff h hne).2 ⟨c, hn, ha⟩
  · obtain ⟨c, hn, hc, hitems⟩ := exists_of_getElem?_kernels hg hK
    refine action_of_not_dictated h hn fun a ha => hx a ?_
    rwa [← hitems, dictates_iff hg hc]
  · obtain ⟨c, hn, -⟩ := exists_of_getElem?_kernels hg hK
    exact goto?_of_not_target h hn fun m hm => hx m ((hgoto hK).1 hm)

/-! ## The main result -/

/-- The kernels of the canonical collection have numbers such that a table is built if and
    only if no closure dictates two actions for a terminal, a built table follows the
    collection, and a failure is a conflict of the first kernel that has one. -/
theorem build_canonical (hg : g.Made) : ∃ kernels : List ItemMap, g.Numbering kernels ∧
    ((∃ t, (build g).result = .ok t) ↔
      ∀ K, g.Kernel K → ∀ x a b, ¬ (K.closure g).Conflict g kernels x a b) ∧
    (∀ t, (build g).result = .ok t → t.Follows g kernels) ∧
    ∀ f, (build g).result = .error f → ∃ n K x a b, kernels[n]? = some K ∧
      (K.closure g).Conflict g kernels x a b ∧
      f = .error (.conflict n (g.nameOf x) [g.describe a, g.describe b]) ∧
      ∀ m < n, ∀ K', kernels[m]? = some K' →
        ∀ x' a' b', ¬ (K'.closure g).Conflict g kernels x' a' b' := by
  have hg := hg.wellFormed
  have hnumbering := numbering_kernels hg
  refine ⟨kernels g, hnumbering, ?_, fun t ht => follows_of_build hg ht, fun f hf => ?_⟩
  · rw [exists_build_iff]
    constructor
    · intro h K hK x a b hconflict
      obtain ⟨n, hn⟩ := List.getElem?_of_mem ((hnumbering.mem_iff K).2 hK)
      obtain ⟨c, -, hc, hitems⟩ := exists_of_getElem?_kernels hg hn
      rw [← hitems] at hconflict
      exact h c hc ⟨x, a, b⟩ ((conflict_iff hg hc).2 hconflict)
    · intro h c hc e he
      refine h _ (kernel_of_mem hg hc) e.symbol e.first e.second ?_
      rw [← said_items hg hc]
      exact (conflict_iff hg hc).1 he
  · obtain ⟨n, c, e, hn, he, rfl, hbefore⟩ := build_error hf
    have hc := List.mem_of_getElem? hn
    refine ⟨n, said c.kernel, e.symbol, e.first, e.second, getElem?_kernels.2 ⟨c, hn, rfl⟩, ?_, rfl,
      fun m hm K' hK' x' a' b' hconflict => ?_⟩
    · rw [← said_items hg hc]
      exact (conflict_iff hg hc).1 he
    · obtain ⟨c', hn', hc', hitems⟩ := exists_of_getElem?_kernels hg hK'
      rw [← hitems] at hconflict
      exact hbefore m hm c' hn' ⟨x', a', b'⟩ ((conflict_iff hg hc').2 hconflict)

/-- The table of nested pairs follows its canonical collection. -/
theorem build_canonical_nested : ∃ kernels : List ItemMap,
    Lowered.nested.Numbering kernels ∧
      ∃ t, (build .nested).result = .ok t ∧ t.Follows .nested kernels := by
  obtain ⟨kernels, hnumbering, -, hfollows, -⟩ :=
    build_canonical (.inr ⟨_, _, _, _, Lowered.ofParts_nested⟩)
  cases h : (build .nested).result with
  | error f =>
    have : ((build .nested).result.toOption.isSome) = true := by decide +kernel
    rw [h] at this
    cases this
  | ok t => exact ⟨kernels, hnumbering, t, rfl, hfollows t h⟩

end Table

end LanguageWorkbench
