import LanguageWorkbench.Proofs.First
import LanguageWorkbench.Proofs.Outcome
import LanguageWorkbench.Table.Items
import Mathlib.Data.Finset.Option
import Mathlib.Data.Finset.Prod

/-!
# Item sets and their closure

An item set says which items it has and which terminals it looks ahead to after
each. Sets kept in ascending order are determined by what they say, and within the
bounds of a grammar they can say only finitely many things. So closing an item set
ends, and the closed set has everything that its items bring along.

Results:
* `ItemSet.Ascending.ext`: ascending sets that say the same are equal.
* `ItemSet.closed_closure`: a closure is closed under `ItemSet.arrivals`.
* `ItemSet.closure_induction`: it says nothing but what that forces it to say.
* `ItemSet.has_closure`: an item with the dot further on comes from the kernel.
* `ItemSet.cells`: what a set says, as a finite set.
-/

namespace LanguageWorkbench

namespace Item

theorem before_iff {i j : Item} : i.before j = true ↔
    i.production < j.production ∨ i.production = j.production ∧ i.dot < j.dot := by
  simp [before]

theorem before_trans {i j k : Item} (h : i.before j = true) (h' : j.before k = true) :
    i.before k = true := by
  rw [before_iff] at *
  omega

theorem before_irrefl (i : Item) : ¬ i.before i = true := by
  rw [before_iff]
  omega

theorem before_or_before_of_ne {i j : Item} (h : i ≠ j) :
    i.before j = true ∨ j.before i = true := by
  obtain ⟨p, d⟩ := i
  obtain ⟨q, e⟩ := j
  simp only [before_iff]
  by_contra hn
  exact h (by congr 1 <;> omega)

end Item

namespace ItemSet

/-! ## What a set says -/

/-- The item is in the set. -/
def Has (s : ItemSet) (i : Item) : Prop := ∃ la, (i, la) ∈ s

/-- The terminal is a lookahead of the item in the set. -/
def Looks (s : ItemSet) (i : Item) (t : Symbol) : Prop := ∃ la, (i, la) ∈ s ∧ t ∈ la

theorem Looks.has {s : ItemSet} {i : Item} {t : Symbol} (h : s.Looks i t) : s.Has i :=
  let ⟨la, h, _⟩ := h
  ⟨la, h⟩

theorem has_insert {s : ItemSet} {i j : Item} {la : NatSet} :
    (s.insert i la).Has j ↔ j = i ∨ s.Has j := by
  induction s with
  | nil => simp [insert, Has]
  | cons c s ih =>
    obtain ⟨other, known⟩ := c
    simp only [insert]
    split_ifs with h₁ h₂
    · subst h₁
      simp only [Has, List.mem_cons, Prod.mk.injEq, exists_or, exists_and_left, exists_eq,
        and_true]
      tauto
    · simp [Has, exists_or]
    · simp only [Has, List.mem_cons, Prod.mk.injEq, exists_or, exists_and_left, exists_eq,
        and_true] at ih ⊢
      rw [ih]
      tauto

theorem looks_insert {s : ItemSet} {i j : Item} {la : NatSet} {t : Symbol} :
    (s.insert i la).Looks j t ↔ j = i ∧ t ∈ la ∨ s.Looks j t := by
  induction s with
  | nil => simp [insert, Looks, and_assoc]
  | cons c s ih =>
    obtain ⟨other, known⟩ := c
    simp only [insert]
    split_ifs with h₁ h₂
    · subst h₁
      simp only [Looks, List.mem_cons, Prod.mk.injEq, or_and_right, exists_or, and_assoc,
        exists_and_left, exists_eq_left, NatSet.mem_union]
      tauto
    · simp [Looks, or_and_right, exists_or, and_assoc]
    · simp only [Looks, List.mem_cons, Prod.mk.injEq, or_and_right, exists_or, and_assoc,
        exists_and_left, exists_eq_left] at ih ⊢
      rw [ih]
      tauto

/-! ## Ascending sets -/

/-- The items ascend. -/
def Ascending (s : ItemSet) : Prop := s.Pairwise fun a b => a.1.before b.1 = true

theorem Ascending.insert {s : ItemSet} (h : s.Ascending) (i : Item) (la : NatSet) :
    (s.insert i la).Ascending := by
  induction s with
  | nil => exact List.pairwise_singleton _ _
  | cons c s ih =>
    obtain ⟨other, known⟩ := c
    obtain ⟨hlt, hs⟩ := List.pairwise_cons.1 h
    simp only [ItemSet.insert]
    split_ifs with h₁ h₂
    · exact List.pairwise_cons.2 ⟨hlt, hs⟩
    · refine List.pairwise_cons.2 ⟨fun c hc => ?_, h⟩
      rcases List.mem_cons.1 hc with rfl | hc
      · exact h₂
      · exact Item.before_trans h₂ (hlt c hc)
    · refine List.pairwise_cons.2 ⟨fun c hc => ?_, ih hs⟩
      obtain hc | hc := (has_insert (s := s) (j := c.1)).1 ⟨c.2, hc⟩
      · rw [hc]
        exact (Item.before_or_before_of_ne h₁).resolve_left h₂
      · obtain ⟨known', hc⟩ := hc
        exact hlt (c.1, known') hc

theorem Ascending.not_has_of_cons {c : Item × NatSet} {s : ItemSet}
    (h : Ascending (c :: s)) : ¬ s.Has c.1 := by
  rintro ⟨la, hla⟩
  exact Item.before_irrefl c.1 ((List.pairwise_cons.1 h).1 (c.1, la) hla)

theorem Ascending.mem_unique {s : ItemSet} (h : s.Ascending) {i : Item} {la la' : NatSet}
    (hm : (i, la) ∈ s) (hm' : (i, la') ∈ s) : la = la' := by
  induction s with
  | nil => cases hm
  | cons c s ih =>
    have hc := h.not_has_of_cons
    rcases List.mem_cons.1 hm with hm | hm <;> rcases List.mem_cons.1 hm' with hm' | hm'
    · exact (Prod.mk.inj (hm.trans hm'.symm)).2
    · exact absurd ⟨la', hm ▸ hm'⟩ hc
    · exact absurd ⟨la, hm' ▸ hm⟩ hc
    · exact ih (List.pairwise_cons.1 h).2 hm hm'

theorem Ascending.mem_of_has {s s' : ItemSet} (h : s.Ascending)
    (hhas : ∀ i, s.Has i ↔ s'.Has i) (hlooks : ∀ i t, s.Looks i t ↔ s'.Looks i t)
    (h' : s'.Ascending) {c : Item × NatSet} (hc : c ∈ s) : c ∈ s' := by
  obtain ⟨i, la⟩ := c
  obtain ⟨la', hla'⟩ := (hhas i).1 ⟨la, hc⟩
  have : la = la' := by
    refine NatSet.ext fun t => ⟨fun ht => ?_, fun ht => ?_⟩
    · obtain ⟨la₁, hm, ht⟩ := (hlooks i t).1 ⟨la, hc, ht⟩
      rwa [h'.mem_unique hla' hm]
    · obtain ⟨la₁, hm, ht⟩ := (hlooks i t).2 ⟨la', hla', ht⟩
      rwa [h.mem_unique hc hm]
  rwa [this]

/-- Ascending sets that say the same are equal. -/
theorem Ascending.ext {s s' : ItemSet} (h : s.Ascending) (h' : s'.Ascending)
    (hhas : ∀ i, s.Has i ↔ s'.Has i) (hlooks : ∀ i t, s.Looks i t ↔ s'.Looks i t) : s = s' := by
  have hmem : ∀ c, c ∈ s ↔ c ∈ s' := fun c =>
    ⟨h.mem_of_has hhas hlooks h', h'.mem_of_has (fun i => (hhas i).symm)
      (fun i t => (hlooks i t).symm) h⟩
  have hasymm : ∀ a b : Item × NatSet, a.1.before b.1 = true → b.1.before a.1 = true → a = b :=
    fun a b hab hba => absurd (Item.before_trans hab hba) (Item.before_irrefl _)
  have hnodup : ∀ {l : ItemSet}, l.Ascending → List.Nodup l := by
    intro l hl
    refine List.Pairwise.imp ?_ hl
    rintro a _ hab rfl
    exact Item.before_irrefl a.1 hab
  exact List.Perm.eq_of_pairwise (fun a b _ _ => hasymm a b) h h'
    ((List.perm_ext_iff_of_nodup (hnodup h) (hnodup h')).2 hmem)

/-! ## Sets within the bounds of a grammar -/

/-- An ascending set of items and lookaheads of a grammar. -/
structure Valid (g : Lowered) (s : ItemSet) : Prop where
  ascending : s.Ascending
  inRange : ∀ i, s.Has i → i.production < g.productions.size ∧
    i.dot ≤ (g.rhsOf i.production).length
  below : ∀ i t, s.Looks i t → t < g.numTerminals

/-- A set says that it has an item, or that it looks ahead to a terminal after it. -/
def Says (s : ItemSet) : Item × Option Symbol → Prop
  | (i, none) => s.Has i
  | (i, some t) => s.Looks i t

open Classical in
/-- What a set says about the items of a finite set. -/
noncomputable def cells (domain : Finset Item) (bound : Nat) (s : ItemSet) :
    Finset (Item × Option Symbol) :=
  (domain ×ˢ Finset.insertNone (Finset.range bound)).filter fun c => s.Says c

theorem mem_cells {domain : Finset Item} {bound : Nat} {s : ItemSet} {c : Item × Option Symbol} :
    c ∈ s.cells domain bound ↔ c.1 ∈ domain ∧ (∀ t ∈ c.2, t < bound) ∧ s.Says c := by
  simp [cells, and_assoc]

theorem card_cells_le (domain : Finset Item) (bound : Nat) (s : ItemSet) :
    (s.cells domain bound).card ≤ domain.card * (bound + 1) := by
  classical
  refine (Finset.card_filter_le _ _).trans_eq ?_
  rw [Finset.card_product, Finset.card_insertNone, Finset.card_range]

/-- Sets with items and lookaheads within bounds say the same if their cells agree. -/
theorem Valid.ext_of_cells {g : Lowered} {s s' : ItemSet} (h : s.Valid g) (h' : s'.Valid g)
    (hs : ∀ c, s.Says c ↔ s'.Says c) : s = s' :=
  h.ascending.ext h'.ascending (fun i => hs (i, none)) fun i t => hs (i, some t)

theorem Valid.lt_of_cell {g : Lowered} {s : ItemSet} (h : s.Valid g) {i : Item}
    {o : Option Symbol} (hs : s.Says (i, o)) : ∀ t ∈ o, t < g.numTerminals := by
  rintro t rfl
  exact h.below i t hs

theorem says_has {s : ItemSet} {i : Item} {o : Option Symbol} (h : s.Says (i, o)) : s.Has i := by
  cases o with
  | none => exact h
  | some t => exact Looks.has h

/-! ## Arrivals -/

theorem mem_productionsOf {g : Lowered} {s : Symbol} {q : Nat} :
    q ∈ productionsOf g s ↔ ∃ production, g.productions[q]? = some production ∧
      production.lhs = s := by
  simp only [productionsOf, List.mem_filter, List.mem_range, Option.any_eq_true,
    decide_eq_true_eq, and_iff_right_iff_imp]
  rintro ⟨production, h, _⟩
  exact (Array.getElem?_eq_some_iff.1 h).1

theorem mem_arrivals {g : Lowered} {f : Firsts} {i j : Item} {la la' : NatSet} :
    (j, la') ∈ arrivals g f i la ↔ ∃ s rest, i.rest g = s :: rest ∧ g.isTerminal s = false ∧
      j.production ∈ productionsOf g s ∧ j.dot = 0 ∧ la' = f.ofSequence la rest := by
  unfold arrivals
  split
  · rename_i h
    simp [h]
  · rename_i s rest h
    simp only [h, List.cons.injEq]
    split_ifs with hs
    · simp [hs]
    · obtain ⟨p, d⟩ := j
      simp only [List.mem_map, Prod.mk.injEq, Item.mk.injEq]
      constructor
      · rintro ⟨q, hq, ⟨rfl, rfl⟩, rfl⟩
        exact ⟨s, rest, ⟨rfl, rfl⟩, by simpa using hs, hq, rfl, rfl⟩
      · rintro ⟨_, _, ⟨rfl, rfl⟩, _, hq, rfl, rfl⟩
        exact ⟨p, hq, ⟨rfl, rfl⟩, rfl⟩

/-- What an item of a set brings along is in the set. -/
def Closed (g : Lowered) (f : Firsts) (s : ItemSet) : Prop :=
  ∀ i la, (i, la) ∈ s → ∀ j la', (j, la') ∈ arrivals g f i la →
    s.Has j ∧ ∀ t, t ∈ la' → s.Looks j t

section

variable {g : Lowered} {f : Firsts}

/-- The items that begin productions. -/
def openings (g : Lowered) : Finset Item := (Finset.range g.productions.size).image (⟨·, 0⟩)

/-- Items that begin productions arrive, with terminals for lookaheads. -/
def Arrives (g : Lowered) (c : Item × NatSet) : Prop :=
  c.1 ∈ openings g ∧ c.2.Below g.numTerminals

theorem Valid.arrives (hf : f.Within g) {s : ItemSet} (h : s.Valid g) {i : Item} {la : NatSet}
    (hi : (i, la) ∈ s) {c : Item × NatSet} (hc : c ∈ arrivals g f i la) : Arrives g c := by
  obtain ⟨j, la'⟩ := c
  obtain ⟨_, rest, _, _, hq, hd, rfl⟩ := mem_arrivals.1 hc
  obtain ⟨_, hp, _⟩ := mem_productionsOf.1 hq
  refine ⟨Finset.mem_image.2 ⟨j.production, Finset.mem_range.2 ?_, ?_⟩, ?_⟩
  · exact (Array.getElem?_eq_some_iff.1 hp).1
  · cases j; cases hd; rfl
  · exact Firsts.below_ofSequence hf.first (fun n hn => h.below i n ⟨la, hi, hn⟩) rest

/-! ## One arrival -/

theorem says_insert {s : ItemSet} {i j : Item} {la : NatSet} {o : Option Symbol} :
    (s.insert i la).Says (j, o) ↔ s.Says (j, o) ∨ j = i ∧ ∀ t ∈ o, t ∈ la := by
  cases o with
  | none => simp [Says, has_insert, or_comm]
  | some t => simp [Says, looks_insert, or_comm]

/-- Only the entry of the item that arrives changes. -/
theorem mem_of_mem_insert {s : ItemSet} {i j : Item} {la la' : NatSet} (hne : j ≠ i)
    (h : (j, la') ∈ s.insert i la) : (j, la') ∈ s := by
  induction s with
  | nil => exact absurd (Prod.mk.inj (List.mem_singleton.1 h)).1 hne
  | cons c s ih =>
    obtain ⟨other, known⟩ := c
    simp only [insert] at h
    split_ifs at h with h₁ h₂
    · rcases List.mem_cons.1 h with h | h
      · exact absurd ((Prod.mk.inj h).1.trans h₁.symm) hne
      · exact List.mem_cons_of_mem _ h
    · rcases List.mem_cons.1 h with h | h
      · exact absurd (Prod.mk.inj h).1 hne
      · exact h
    · rcases List.mem_cons.1 h with h | h
      · exact h ▸ List.mem_cons_self
      · exact List.mem_cons_of_mem _ (ih h)

theorem Valid.insert {s : ItemSet} (h : s.Valid g) {c : Item × NatSet} (hc : Arrives g c) :
    (ItemSet.insert c.1 c.2 s).Valid g where
  ascending := h.ascending.insert c.1 c.2
  inRange i hi := by
    rcases has_insert.1 hi with rfl | hi
    · obtain ⟨p, hp, heq⟩ := Finset.mem_image.1 hc.1
      rw [← heq]
      exact ⟨Finset.mem_range.1 hp, Nat.zero_le _⟩
    · exact h.inRange i hi
  below i t ht := by
    rcases looks_insert.1 ht with ⟨-, ht⟩ | ht
    · exact hc.2 t ht
    · exact h.below i t ht

/-- An arrival that changes a set makes it say more about the items that begin
    productions. -/
theorem card_cells_lt_insert {s : ItemSet} (h : s.Valid g) {c : Item × NatSet}
    (hc : Arrives g c) (hne : ItemSet.insert c.1 c.2 s ≠ s) :
    (s.cells (openings g) g.numTerminals).card <
      ((ItemSet.insert c.1 c.2 s).cells (openings g) g.numTerminals).card := by
  have hvalid := h.insert hc
  refine Finset.card_lt_card ((Finset.ssubset_iff_of_subset ?_).2 ?_)
  · intro d hd
    rw [mem_cells] at hd ⊢
    exact ⟨hd.1, hd.2.1, says_insert.2 (.inl hd.2.2)⟩
  · obtain ⟨⟨j, o⟩, hd, hnd⟩ : ∃ d, (ItemSet.insert c.1 c.2 s).Says d ∧ ¬ s.Says d := by
      by_contra hall
      push Not at hall
      exact hne (hvalid.ext_of_cells h fun d => ⟨hall d, fun hd => says_insert.2 (.inl hd)⟩)
    refine ⟨(j, o), mem_cells.2 ⟨?_, hvalid.lt_of_cell hd, hd⟩, fun hm => hnd (mem_cells.1 hm).2.2⟩
    rw [((says_insert.1 hd).resolve_left hnd).1]
    exact hc.1

/-- An arrival that says nothing new changes nothing; any other joins those that wait. -/
theorem arrive_cases (closing : ItemSet × List Item) (c : Item × NatSet) :
    arrive closing c = closing ∨ ItemSet.insert c.1 c.2 closing.1 ≠ closing.1 ∧
      arrive closing c = (ItemSet.insert c.1 c.2 closing.1, closing.2 ++ [c.1]) := by
  by_cases h : ItemSet.insert c.1 c.2 closing.1 = closing.1
  · exact .inl (by simp [arrive, h])
  · exact .inr ⟨h, by simp [arrive, h]⟩

/-! ## All arrivals of an item -/

theorem says_foldl_arrive {arr : List (Item × NatSet)} {closing : ItemSet × List Item} {j : Item}
    {o : Option Symbol} : (arr.foldl arrive closing).1.Says (j, o) ↔
      closing.1.Says (j, o) ∨ ∃ la, (j, la) ∈ arr ∧ ∀ t ∈ o, t ∈ la := by
  induction arr generalizing closing with
  | nil => simp
  | cons c arr ih =>
    obtain ⟨i, la⟩ := c
    rw [List.foldl_cons, ih, arrive, says_insert]
    constructor
    · rintro ((h | ⟨rfl, h⟩) | ⟨la', hm, h⟩)
      · exact .inl h
      · exact .inr ⟨la, List.mem_cons_self, h⟩
      · exact .inr ⟨la', List.mem_cons_of_mem _ hm, h⟩
    · rintro (h | ⟨la', hm, h⟩)
      · exact .inl (.inl h)
      · rcases List.mem_cons.1 hm with hm | hm
        · obtain ⟨rfl, rfl⟩ := Prod.mk.inj hm
          exact .inl (.inr ⟨rfl, h⟩)
        · exact .inr ⟨la', hm, h⟩

/-- An item that does not wait after arrivals did not wait before, and its entry is what
    it was. -/
theorem not_mem_of_foldl_arrive {arr : List (Item × NatSet)} {closing : ItemSet × List Item}
    {i : Item} (h : i ∉ (arr.foldl arrive closing).2) :
    i ∉ closing.2 ∧ ∀ la, (i, la) ∈ (arr.foldl arrive closing).1 → (i, la) ∈ closing.1 := by
  induction arr generalizing closing with
  | nil => exact ⟨h, fun _ hm => hm⟩
  | cons c arr ih =>
    obtain ⟨hwait, hsame⟩ := ih h
    rw [List.foldl_cons]
    rcases arrive_cases closing c with heq | ⟨-, heq⟩
    · rw [heq] at hwait hsame ⊢
      exact ⟨hwait, hsame⟩
    · rw [heq] at hwait hsame ⊢
      rw [List.mem_append, List.mem_singleton, not_or] at hwait
      exact ⟨hwait.1, fun la hm => mem_of_mem_insert hwait.2 (hsame la hm)⟩

theorem has_of_mem_foldl_arrive {arr : List (Item × NatSet)} {closing : ItemSet × List Item}
    (h : ∀ i ∈ closing.2, closing.1.Has i) :
    ∀ i ∈ (arr.foldl arrive closing).2, (arr.foldl arrive closing).1.Has i := by
  induction arr generalizing closing with
  | nil => exact h
  | cons c arr ih =>
    refine ih ?_
    rcases arrive_cases closing c with heq | ⟨-, heq⟩
    · rwa [heq]
    · rw [heq]
      intro i hi
      rcases List.mem_append.1 hi with hi | hi
      · exact has_insert.2 (.inr (h i hi))
      · exact has_insert.2 (.inl (List.mem_singleton.1 hi))

/-- Each item that joins those that wait is paid for by something new that is said. -/
theorem Valid.foldl_arrive {arr : List (Item × NatSet)} (harr : ∀ c ∈ arr, Arrives g c)
    {closing : ItemSet × List Item} (h : closing.1.Valid g) :
    (arr.foldl arrive closing).1.Valid g ∧
      (arr.foldl arrive closing).2.length +
          (closing.1.cells (openings g) g.numTerminals).card ≤
        closing.2.length +
          ((arr.foldl arrive closing).1.cells (openings g) g.numTerminals).card := by
  induction arr generalizing closing with
  | nil => exact ⟨h, le_rfl⟩
  | cons c arr ih =>
    have hc := harr c List.mem_cons_self
    have hrest : ∀ d ∈ arr, Arrives g d := fun d hd => harr d (List.mem_cons_of_mem c hd)
    rw [List.foldl_cons]
    rcases arrive_cases closing c with heq | ⟨hne, heq⟩
    · rw [heq]
      exact ih hrest h
    · rw [heq]
      have hinsert : (ItemSet.insert c.1 c.2 closing.1, closing.2 ++ [c.1]).1.Valid g := h.insert hc
      obtain ⟨hvalid, hcard⟩ := ih hrest hinsert
      have hlt := card_cells_lt_insert h hc hne
      simp only [List.length_append, List.length_singleton] at hcard
      exact ⟨hvalid, by omega⟩

/-! ## Closures -/

/-- What the items that do not wait bring along is in the set. -/
def Settled (g : Lowered) (f : Firsts) (s : ItemSet) (waiting : List Item) : Prop :=
  ∀ i la, (i, la) ∈ s → i ∉ waiting → ∀ j la', (j, la') ∈ arrivals g f i la →
    s.Has j ∧ ∀ t, t ∈ la' → s.Looks j t

theorem mem_lookaheads {s : ItemSet} {i : Item} (h : s.Has i) : (i, s.lookaheads i) ∈ s := by
  obtain ⟨la, h⟩ := h
  cases hl : s.lookup i with
  | none => exact absurd h (not_mem_of_lookup hl la)
  | some la' =>
    rw [lookaheads, hl, Option.getD_some]
    exact mem_of_lookup hl

/-- The next item that waits can be taken off: what it brings along arrives, and items
    about which something new is said wait again. -/
theorem Settled.foldl_arrive {s : ItemSet} {i : Item} {waiting : List Item}
    (hs : s.Ascending) (hi : s.Has i) (h : Settled g f s (i :: waiting)) :
    Settled g f ((arrivals g f i (s.lookaheads i)).foldl arrive (s, waiting)).1
      ((arrivals g f i (s.lookaheads i)).foldl arrive (s, waiting)).2 := by
  intro k la hk hwait j la' hj
  obtain ⟨hnot, hsame⟩ := not_mem_of_foldl_arrive hwait
  have hm := hsame la hk
  by_cases hki : k = i
  · -- the entry of the item is still the one whose arrivals were added
    subst hki
    obtain rfl := hs.mem_unique hm (mem_lookaheads hi)
    exact ⟨(says_foldl_arrive (o := none)).2 (.inr ⟨la', hj, by simp⟩),
      fun t ht => (says_foldl_arrive (o := some t)).2 (.inr ⟨la', hj, by simpa using ht⟩)⟩
  · obtain ⟨hhas, hlooks⟩ := h k la hm (by simp [hki, hnot]) j la' hj
    exact ⟨(says_foldl_arrive (o := none)).2 (.inl hhas),
      fun t ht => (says_foldl_arrive (o := some t)).2 (.inl (hlooks t ht))⟩

/-- With enough fuel nothing waits in the end. -/
theorem close_spec (hf : f.Within g) : ∀ {fuel : Nat} {s : ItemSet} {waiting : List Item},
    s.Valid g → (∀ i ∈ waiting, s.Has i) → Settled g f s waiting →
    waiting.length + g.productions.size * (g.numTerminals + 1) <
      fuel + (s.cells (openings g) g.numTerminals).card →
    (close g f fuel s waiting).Valid g ∧ (close g f fuel s waiting).Closed g f := by
  intro fuel
  induction fuel with
  | zero =>
    intro s waiting _ _ _ hfuel
    have hopen : (openings g).card ≤ g.productions.size :=
      Finset.card_image_le.trans_eq (Finset.card_range _)
    have := (card_cells_le (openings g) g.numTerminals s).trans (Nat.mul_le_mul_right _ hopen)
    omega
  | succ fuel ih =>
    intro s waiting h hhas hsettled hfuel
    cases waiting with
    | nil => exact ⟨h, fun i la hi => hsettled i la hi List.not_mem_nil⟩
    | cons i waiting =>
      have hi := hhas i List.mem_cons_self
      have hs : (s, waiting).1.Valid g := h
      obtain ⟨hvalid, hcard⟩ := hs.foldl_arrive fun c hc => h.arrives hf (mem_lookaheads hi) hc
      refine ih hvalid ?_ (hsettled.foldl_arrive h.ascending hi) ?_
      · exact has_of_mem_foldl_arrive fun j hj => hhas j (List.mem_cons_of_mem i hj)
      · rw [List.length_cons] at hfuel
        simp only at hcard
        omega

theorem valid_and_closed_closure (hf : f.Within g) {kernel : ItemSet} (h : kernel.Valid g) :
    (closure g f kernel).Valid g ∧ (closure g f kernel).Closed g f := by
  refine close_spec hf h (fun i hi => ?_) (fun i la hi hnot => ?_) ?_
  · obtain ⟨⟨_, la⟩, hm, rfl⟩ := List.mem_map.1 hi
    exact ⟨la, hm⟩
  · exact absurd (List.mem_map.2 ⟨_, hi, rfl⟩) hnot
  · rw [List.length_map]
    omega

theorem Valid.closure (hf : f.Within g) {kernel : ItemSet} (h : kernel.Valid g) :
    (ItemSet.closure g f kernel).Valid g := (valid_and_closed_closure hf h).1

/-- A closure is closed. -/
theorem closed_closure (hf : f.Within g) {kernel : ItemSet} (h : kernel.Valid g) :
    (closure g f kernel).Closed g f := (valid_and_closed_closure hf h).2

theorem says_close {c : Item × Option Symbol} : ∀ {fuel : Nat} {s : ItemSet}
    {waiting : List Item}, s.Says c → (close g f fuel s waiting).Says c := by
  intro fuel
  induction fuel with
  | zero => exact fun h => h
  | succ fuel ih =>
    intro s waiting h
    cases waiting with
    | nil => exact h
    | cons i waiting => exact ih (says_foldl_arrive.2 (.inl h))

/-- A closure says what the kernel says. -/
theorem says_closure_of_kernel {kernel : ItemSet} {c : Item × Option Symbol}
    (h : kernel.Says c) : (closure g f kernel).Says c := says_close h

/-- What holds of all that a set says holds of all that it says when it is closed, if
    with an item it holds of what the item brings along. -/
theorem close_induction {P : Item × Option Symbol → Prop}
    (hstep : ∀ i la j la', (j, la') ∈ arrivals g f i la → P (i, none) →
      (∀ t, t ∈ la → P (i, some t)) → ∀ o : Option Symbol, (∀ t ∈ o, t ∈ la') → P (j, o)) :
    ∀ {fuel : Nat} {s : ItemSet} {waiting : List Item}, (∀ c, s.Says c → P c) →
      (∀ i ∈ waiting, s.Has i) → ∀ c, (close g f fuel s waiting).Says c → P c := by
  intro fuel
  induction fuel with
  | zero => exact fun h _ => h
  | succ fuel ih =>
    intro s waiting h hhas
    cases waiting with
    | nil => exact h
    | cons i waiting =>
      have hi := hhas i List.mem_cons_self
      refine ih ?_ (has_of_mem_foldl_arrive fun j hj => hhas j (List.mem_cons_of_mem i hj))
      rintro ⟨j, o⟩ hj
      rcases says_foldl_arrive.1 hj with hj | ⟨la', hj, ho⟩
      · exact h _ hj
      · exact hstep i _ j la' hj (h (i, none) hi)
          (fun t ht => h (i, some t) ⟨_, mem_lookaheads hi, ht⟩) o ho

theorem closure_induction {P : Item × Option Symbol → Prop}
    (hstep : ∀ i la j la', (j, la') ∈ arrivals g f i la → P (i, none) →
      (∀ t, t ∈ la → P (i, some t)) → ∀ o : Option Symbol, (∀ t ∈ o, t ∈ la') → P (j, o))
    {kernel : ItemSet} (hkernel : ∀ c, kernel.Says c → P c) {c : Item × Option Symbol}
    (h : (closure g f kernel).Says c) : P c := by
  refine close_induction hstep hkernel (fun i hi => ?_) c h
  obtain ⟨⟨_, la⟩, hm, rfl⟩ := List.mem_map.1 hi
  exact ⟨la, hm⟩

/-- An item of a closure is in the kernel, or it begins a production of a symbol that
    stands after the dot of an item of the closure. -/
theorem has_closure {kernel : ItemSet} {i : Item} (h : (closure g f kernel).Has i) :
    kernel.Has i ∨ i.dot = 0 ∧ ∃ j : Item, j.production < g.productions.size ∧
      ∃ s, j.next? g = some s ∧ i.production ∈ productionsOf g s := by
  refine closure_induction (c := (i, none)) (P := fun c => kernel.Has c.1 ∨
    c.1.dot = 0 ∧ ∃ j : Item, j.production < g.productions.size ∧
      ∃ s, j.next? g = some s ∧ c.1.production ∈ productionsOf g s)
    ?_ (fun c hc => .inl (says_has hc)) h
  intro j la i la' hi _ _ _ _
  obtain ⟨s, rest, hrest, _, hq, hd, _⟩ := mem_arrivals.1 hi
  refine .inr ⟨hd, j, ?_, s, by simp [Item.next?, hrest], hq⟩
  by_contra hlt
  have : g.productions[j.production]? = none := Array.getElem?_eq_none (by omega)
  simp [Item.rest, Lowered.rhsOf, this] at hrest

end

end ItemSet

end LanguageWorkbench
