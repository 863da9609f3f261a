import LanguageWorkbench.Proofs.ItemSets
import LanguageWorkbench.Table.Collection
import Mathlib.Data.Finset.Powerset
import Mathlib.Data.List.Dedup

/-!
# The canonical collection is complete

The search of `Collection.explore` visits every kernel that it finds, since there
are no more kernels than `Collection.bound` allows.

Results:
* `Collection.length_le_bound`: how many kernels there can be.
* `Collection.ofLowered_spec`: the first set starts production 0, every set is the
  closure of its kernel, and every symbol after a dot leads to the set whose kernel
  has the dot moved over the symbol.
-/

namespace LanguageWorkbench

namespace ItemSet

variable {g : Lowered}

/-! ## Moving the dot -/

theorem mem_nextSymbols {s : ItemSet} {x : Symbol} :
    x ∈ nextSymbols g s ↔ x < g.numSymbols ∧ x ≠ endSymbol ∧
      ∃ i, s.Has i ∧ i.next? g = some x := by
  simp only [nextSymbols, List.mem_filter, NatSet.mem_toList, NatSet.mem_ofList,
    List.mem_filterMap, Prod.exists, decide_eq_true_eq, Has]
  constructor
  · rintro ⟨⟨hlt, i, la, hm, hi⟩, hne⟩
    exact ⟨hlt, hne, i, ⟨la, hm⟩, hi⟩
  · rintro ⟨hlt, hne, i, ⟨la, hm⟩, hi⟩
    exact ⟨⟨hlt, i, la, hm, hi⟩, hne⟩

theorem mem_advance {s : ItemSet} {x : Symbol} {i : Item} {la : NatSet} :
    (i, la) ∈ advance g s x ↔ ∃ j, (j, la) ∈ s ∧ j.next? g = some x ∧
      i = ⟨j.production, j.dot + 1⟩ := by
  simp only [advance, List.mem_map, List.mem_filter, Prod.exists, Prod.mk.injEq,
    decide_eq_true_eq]
  constructor
  · rintro ⟨j, la', ⟨hm, hj⟩, rfl, rfl⟩
    exact ⟨j, hm, hj, rfl⟩
  · rintro ⟨j, hm, hj, rfl⟩
    exact ⟨j, la, ⟨hm, hj⟩, rfl, rfl⟩

theorem says_advance {s : ItemSet} {x : Symbol} {i : Item} {o : Option Symbol} :
    (advance g s x).Says (i, o) ↔ ∃ j, s.Says (j, o) ∧ j.next? g = some x ∧
      i = ⟨j.production, j.dot + 1⟩ := by
  cases o with
  | none =>
    constructor
    · rintro ⟨la, h⟩
      obtain ⟨j, hm, hj⟩ := mem_advance.1 h
      exact ⟨j, ⟨la, hm⟩, hj⟩
    · rintro ⟨j, ⟨la, hm⟩, hj⟩
      exact ⟨la, mem_advance.2 ⟨j, hm, hj⟩⟩
  | some t =>
    constructor
    · rintro ⟨la, h, ht⟩
      obtain ⟨j, hm, hj⟩ := mem_advance.1 h
      exact ⟨j, ⟨la, hm, ht⟩, hj⟩
    · rintro ⟨j, ⟨la, hm, ht⟩, hj⟩
      exact ⟨la, mem_advance.2 ⟨j, hm, hj⟩, ht⟩

theorem dot_lt_of_next? {i : Item} {x : Symbol} (h : i.next? g = some x) :
    i.dot < (g.rhsOf i.production).length := by
  by_contra hn
  simp [Item.next?, Item.rest, List.drop_eq_nil_of_le (Nat.le_of_not_lt hn)] at h

theorem Valid.advance {s : ItemSet} (h : s.Valid g) (x : Symbol) :
    (ItemSet.advance g s x).Valid g where
  ascending := by
    refine List.pairwise_map.2 (List.Pairwise.imp ?_ (List.Pairwise.filter _ h.ascending))
    rintro ⟨i, _⟩ ⟨j, _⟩ hij
    simp only [Item.before_iff] at hij ⊢
    omega
  inRange i hi := by
    obtain ⟨j, hj, hnext, rfl⟩ := says_advance.1 (show Says _ (i, none) from hi)
    exact ⟨(h.inRange j hj).1, dot_lt_of_next? hnext⟩
  below i t ht := by
    obtain ⟨j, hj, -, -⟩ := says_advance.1 (show Says _ (i, some t) from ht)
    exact h.below j t hj

/-! ## Counting item sets -/

/-- All items of productions, the first of which has number `k`. -/
def itemsFrom (k : Nat) (ps : List Production) : List Item :=
  (ps.zipIdx k).flatMap fun (p, n) => (List.range (p.rhs.length + 1)).map (Item.mk n)

/-- All items of a grammar. -/
def allItems (g : Lowered) : Finset Item := (itemsFrom 0 g.productions.toList).toFinset

theorem length_itemsFrom (k n : Nat) (ps : List Production) :
    ps.foldl (fun n p => n + (p.rhs.length + 1)) n = n + (itemsFrom k ps).length := by
  induction ps generalizing k n with
  | nil => simp [itemsFrom]
  | cons p ps ih =>
    rw [List.foldl_cons, ih (k + 1)]
    simp [itemsFrom]
    omega

theorem mem_allItems {i : Item} (hp : i.production < g.productions.size)
    (hd : i.dot ≤ (g.rhsOf i.production).length) : i ∈ allItems g := by
  rw [allItems, List.mem_toFinset, itemsFrom, List.mem_flatMap]
  refine ⟨(g.productions[i.production], i.production), ?_, ?_⟩
  · rw [List.mem_zipIdx_iff_getElem?]
    simp [hp]
  · refine List.mem_map.2 ⟨i.dot, List.mem_range.2 ?_, rfl⟩
    simp only [Lowered.rhsOf, Array.getElem?_eq_getElem hp, Option.map_some,
      Option.getD_some] at hd
    omega

end ItemSet

namespace Collection

open ItemSet

variable {g : Lowered}

/-- There are no more different item sets than the bound says. -/
theorem length_le_bound {kernels : List ItemSet} (hnodup : kernels.Nodup)
    (hvalid : ∀ k ∈ kernels, k.Valid g) : kernels.length ≤ bound g := by
  classical
  let all := allItems g ×ˢ Finset.insertNone (Finset.range g.numTerminals)
  have hcard : all.card ≤
      g.productions.toList.foldl (fun n p => n + (p.rhs.length + 1)) 0 * (g.numTerminals + 1) := by
    rw [Finset.card_product, Finset.card_insertNone, Finset.card_range, length_itemsFrom 0 0,
      Nat.zero_add]
    exact Nat.mul_le_mul_right _ (List.toFinset_card_le _)
  have hinj : Set.InjOn (cells (allItems g) g.numTerminals) (kernels.toFinset : Set ItemSet) := by
    intro s hs s' hs' heq
    have h := hvalid s (List.mem_toFinset.1 hs)
    have h' := hvalid s' (List.mem_toFinset.1 hs')
    have hcell : ∀ {s : ItemSet}, s.Valid g → ∀ c, s.Says c ↔
        c ∈ s.cells (allItems g) g.numTerminals := by
      intro s h c
      rw [mem_cells]
      refine ⟨fun hc => ⟨?_, h.lt_of_cell hc, hc⟩, fun hc => hc.2.2⟩
      exact mem_allItems (h.inRange c.1 (says_has hc)).1 (h.inRange c.1 (says_has hc)).2
    exact h.ext_of_cells h' fun c => by rw [hcell h, hcell h', heq]
  have hmaps : ∀ s ∈ kernels.toFinset, s.cells (allItems g) g.numTerminals ∈ all.powerset :=
    fun s _ => Finset.mem_powerset.2 (Finset.filter_subset _ _)
  calc kernels.length = kernels.toFinset.card := (List.toFinset_card_of_nodup hnodup).symm
    _ ≤ all.powerset.card := Finset.card_le_card_of_injOn _ hmaps hinj
    _ = 2 ^ all.card := Finset.card_powerset _
    _ ≤ bound g := Nat.pow_le_pow_right (by omega) hcard

/-! ## Exploring -/

/-- Known kernels: each is within the bounds of the grammar, and none is known
    twice. -/
structure Known (g : Lowered) (kernels : Array ItemSet) : Prop where
  nodup : kernels.toList.Nodup
  valid : ∀ k ∈ kernels, k.Valid g

theorem Known.size_le {kernels : Array ItemSet} (h : Known g kernels) :
    kernels.size ≤ bound g := by
  rw [← Array.length_toList]
  exact length_le_bound h.nodup fun k hk => h.valid k (Array.mem_toList_iff.1 hk)

/-- Kernels keep their numbers when others are found. -/
def Extends (kernels kernels' : Array ItemSet) : Prop :=
  ∀ (n : Nat) (k : ItemSet), kernels[n]? = some k → kernels'[n]? = some k

theorem Extends.trans {a b c : Array ItemSet} (h : Extends a b) (h' : Extends b c) :
    Extends a c := fun n k hk => h' n k (h n k hk)

theorem Extends.size_le {a b : Array ItemSet} (h : Extends a b) : a.size ≤ b.size := by
  by_contra hlt
  have hb : b.size < a.size := Nat.lt_of_not_le hlt
  have := h b.size _ (Array.getElem?_eq_getElem hb)
  simp at this

theorem intern_spec {kernels : Array ItemSet} (h : Known g kernels) {k : ItemSet}
    (hk : k.Valid g) :
    Known g (intern kernels k).2 ∧ Extends kernels (intern kernels k).2 ∧
      (intern kernels k).2[(intern kernels k).1]? = some k := by
  unfold intern
  split
  · rename_i n hn
    rw [Array.findIdx?_eq_some_iff_getElem] at hn
    obtain ⟨hlt, heq, _⟩ := hn
    exact ⟨h, fun _ _ h => h, by simpa [hlt] using heq⟩
  · rename_i hn
    have hnew : k ∉ kernels := by
      intro hm
      simpa using Array.findIdx?_eq_none_iff.1 hn k hm
    refine ⟨⟨?_, ?_⟩, ?_, by simp⟩
    · rw [Array.toList_push]
      refine List.nodup_append.2 ⟨h.nodup, List.nodup_singleton k, ?_⟩
      rintro a ha b hb rfl
      exact hnew (List.mem_singleton.1 hb ▸ Array.mem_toList_iff.1 ha)
    · intro a ha
      rcases Array.mem_push.1 ha with ha | rfl
      · exact h.valid a ha
      · exact hk
    · intro n a ha
      have hlt := (Array.getElem?_eq_some_iff.1 ha).1
      rwa [Array.getElem?_push_lt hlt, ← Array.getElem?_eq_getElem hlt]

theorem moves_spec {items : ItemSet} (hitems : items.Valid g) (ss : List Symbol)
    {kernels : Array ItemSet} (h : Known g kernels) :
    Known g (moves g items kernels ss).2 ∧ Extends kernels (moves g items kernels ss).2 ∧
      (moves g items kernels ss).1.map Prod.fst = ss ∧
      ∀ s n, (s, n) ∈ (moves g items kernels ss).1 →
        (moves g items kernels ss).2[n]? = some (items.advance g s) := by
  induction ss generalizing kernels with
  | nil => exact ⟨h, fun _ _ h => h, rfl, by simp [moves]⟩
  | cons s ss ih =>
    obtain ⟨hknown, hext, hget⟩ := intern_spec h (hitems.advance s)
    obtain ⟨hknown', hext', hfst, hmem⟩ := ih hknown
    refine ⟨hknown', hext.trans hext', by simp [moves, hfst], fun x n hx => ?_⟩
    simp only [moves, List.mem_cons, Prod.mk.injEq] at hx
    rcases hx with ⟨rfl, rfl⟩ | hx
    · exact hext' _ _ hget
    · exact hmem x n hx

/-- What is known of a set of the collection, where `kernels` are all kernels. -/
structure Describes (g : Lowered) (f : Firsts) (kernels : Array ItemSet) (c : CollectionState) :
    Prop where
  items : c.items = c.kernel.closure g f
  symbols : c.moves.map Prod.fst = c.items.nextSymbols g
  targets : ∀ s n, (s, n) ∈ c.moves → kernels[n]? = some (c.items.advance g s)

theorem explore_spec {f : Firsts} (hf : f.Within g) :
    ∀ (fuel n : Nat) (kernels : Array ItemSet), Known g kernels → n ≤ kernels.size →
      bound g < fuel + n →
      ∃ all, Known g all ∧ Extends kernels all ∧
        n + (explore g f fuel n kernels).length = all.size ∧
        ∀ i c, (explore g f fuel n kernels)[i]? = some c →
          all[n + i]? = some c.kernel ∧ Describes g f all c := by
  intro fuel
  induction fuel with
  | zero =>
    intro n kernels h hn hfuel
    have := h.size_le
    omega
  | succ fuel ih =>
    intro n kernels h hn hfuel
    cases hk : kernels[n]? with
    | none =>
      have hsize : n = kernels.size := by
        have := Array.getElem?_eq_none_iff.1 hk
        omega
      exact ⟨kernels, h, fun _ _ h => h, by simp [explore, hsize], by simp [explore, hk]⟩
    | some k =>
      have hlt := (Array.getElem?_eq_some_iff.1 hk).1
      have hvalid : k.Valid g := h.valid k (Array.mem_of_getElem? hk)
      obtain ⟨hknown, hext, hsymbols, htargets⟩ :=
        moves_spec (hvalid.closure hf) ((k.closure g f).nextSymbols g) h
      have hsize := hext.size_le
      -- the rest of the search only adds kernels, so the numbers given here stay right
      obtain ⟨all, hall, hext', hlen, hspec⟩ := ih (n + 1) _ hknown (by omega) (by omega)
      refine ⟨all, hall, hext.trans hext', ?_, ?_⟩
      · simp only [explore, hk, List.length_cons]
        omega
      · intro i c hc
        simp only [explore, hk] at hc
        cases i with
        | zero =>
          obtain rfl : _ = c := by simpa using hc
          exact ⟨hext' _ _ (hext _ _ hk), rfl, hsymbols,
            fun s m hm => hext' _ _ (htargets s m hm)⟩
        | succ i =>
          rw [List.getElem?_cons_succ] at hc
          have := hspec i c hc
          rwa [show n + 1 + i = n + (i + 1) by omega] at this

/-- The start is one item without lookaheads. -/
theorem says_startKernel {i : Item} {o : Option Symbol} :
    startKernel.Says (i, o) ↔ i = ⟨0, 0⟩ ∧ o = none := by
  cases o with
  | none => simp [Says, Has, startKernel]
  | some t => simp [Says, Looks, startKernel, NatSet.not_mem_empty]

theorem valid_startKernel (hg : g.WellFormed) : startKernel.Valid g where
  ascending := List.pairwise_singleton _ _
  inRange i hi := by
    obtain ⟨s, hs⟩ := hg.start
    obtain ⟨rfl, -⟩ := says_startKernel.1 (show Says _ (i, none) from hi)
    exact ⟨(Array.getElem?_eq_some_iff.1 hs).1, Nat.zero_le _⟩
  below i t ht := absurd (says_startKernel.1 (show Says _ (i, some t) from ht)).2 (by simp)

/-- The collection of a well-formed grammar: its sets have numbers, the kernels of
    which are those of `kernels`, and `kernels` begins with the initial one. -/
theorem ofLowered_spec (hg : g.WellFormed) :
    ∃ kernels : Array ItemSet, Known g kernels ∧ kernels[0]? = some startKernel ∧
      (ofLowered g).length = kernels.size ∧
      ∀ (n : Nat) (c : CollectionState), (ofLowered g)[n]? = some c →
        kernels[n]? = some c.kernel ∧ Describes g (.ofLowered g) kernels c := by
  have hstart : Known g #[startKernel] := by
    refine ⟨List.nodup_singleton _, fun k hk => ?_⟩
    rw [Array.mem_singleton.1 hk]
    exact valid_startKernel hg
  obtain ⟨all, hall, hext, hlen, hspec⟩ :=
    explore_spec (Firsts.within_ofLowered hg).1 (bound g + 1) 0 _ hstart (Nat.zero_le _)
      (by omega)
  refine ⟨all, hall, hext 0 _ rfl, by simpa [ofLowered] using hlen, fun n c hc => ?_⟩
  simpa using hspec n c hc

end Collection

end LanguageWorkbench
