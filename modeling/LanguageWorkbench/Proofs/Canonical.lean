import LanguageWorkbench.Proofs.Beginnings
import LanguageWorkbench.Proofs.Table
import Mathlib.Data.Set.Lattice
import Mathlib.Order.Bounds.Defs

/-!
# The canonical LR(1) collection

The collection as the theory of LR parsing has it, in terms of derivations and without
a way to compute it: closures are least maps from items to lookaheads, and kernels are
reached by moving dots. The collection that is explored has exactly these kernels.

Results:
* `ItemMap.said_closure`: a computed closure says what the least map says.
* `Collection.numbering_kernels`: the explored sets number the reachable kernels.
* `Collection.mem_moves`: where the symbols after dots lead.
-/

namespace LanguageWorkbench

/-- A map from items to sets of lookaheads, as what it says: `(i, none)` that `i` is one
    of its items, `(i, some t)` that `t` is a lookahead of `i`. -/
abbrev ItemMap := Set (Item × Option Symbol)

namespace ItemMap

/-! ## Closures -/

/-- What the items of a map bring along: the items that begin the nonterminal `s` after a
    dot. They look ahead to what can begin the rest of the right side, and past a rest
    that derives the empty list to the lookaheads of the item itself. -/
inductive Brings (g : Lowered) (S : ItemMap) : Item × Option Symbol → Prop
  | item {i : Item} {s : Symbol} {rest : List Symbol} {q : Nat} (hi : (i, none) ∈ S)
      (hs : i.rest g = s :: rest) (hq : (g.productions[q]?).map (·.lhs) = some s) :
      Brings g S (⟨q, 0⟩, none)
  | first {i : Item} {s : Symbol} {rest : List Symbol} {q : Nat} {t : Symbol}
      (hi : (i, none) ∈ S) (hs : i.rest g = s :: rest)
      (hq : (g.productions[q]?).map (·.lhs) = some s) (ht : g.Begins rest t) :
      Brings g S (⟨q, 0⟩, some t)
  | follow {i : Item} {s : Symbol} {rest : List Symbol} {q : Nat} {t : Symbol}
      (hi : (i, none) ∈ S) (hs : i.rest g = s :: rest)
      (hq : (g.productions[q]?).map (·.lhs) = some s) (hrest : g.Derives rest [])
      (ht : (i, some t) ∈ S) : Brings g S (⟨q, 0⟩, some t)

/-- A map that has what its items bring along. -/
def Closed (g : Lowered) (S : ItemMap) : Prop := ∀ c, Brings g S c → c ∈ S

/-- The least closed map that contains a kernel. -/
def closure (g : Lowered) (K : ItemMap) : ItemMap := ⋂₀ {S | K ⊆ S ∧ Closed g S}

variable {g : Lowered}

theorem Brings.mono {S S' : ItemMap} (h : S ⊆ S') {c : Item × Option Symbol}
    (hc : Brings g S c) : Brings g S' c := by
  cases hc with
  | item hi hs hq => exact .item (h hi) hs hq
  | first hi hs hq ht => exact .first (h hi) hs hq ht
  | follow hi hs hq hrest ht => exact .follow (h hi) hs hq hrest (h ht)

theorem isLeast_closure (K : ItemMap) : IsLeast {S | K ⊆ S ∧ Closed g S} (closure g K) := by
  refine ⟨⟨?_, ?_⟩, fun S hS => Set.sInter_subset_of_mem hS⟩
  · exact Set.subset_sInter fun S hS => hS.1
  · intro c hc
    rw [closure, Set.mem_sInter]
    exact fun S hS => hS.2 c (hc.mono (Set.sInter_subset_of_mem hS))

/-- What holds of a kernel holds of its closure, if it holds of what items of which it holds
    bring along. -/
theorem closure_induction {K : ItemMap} {P : Item × Option Symbol → Prop} (hK : ∀ c ∈ K, P c)
    (hbrings : ∀ c, Brings g {d | d ∈ closure g K ∧ P d} c → P c) : ∀ c ∈ closure g K, P c := by
  have hclosure := (isLeast_closure (g := g) K).1
  have hle : closure g K ⊆ {d | d ∈ closure g K ∧ P d} := by
    refine (isLeast_closure K).2 ⟨fun c hc => ⟨hclosure.1 hc, hK c hc⟩, fun c hc => ⟨?_, hbrings c hc⟩⟩
    exact hclosure.2 c (hc.mono fun d hd => hd.1)
  exact fun c hc => (hle hc).2

/-- The map with the dots before a symbol moved over it. -/
def advance (g : Lowered) (S : ItemMap) (x : Symbol) : ItemMap :=
  {c | ∃ i : Item, (i, c.2) ∈ S ∧ i.next? g = some x ∧ c.1 = ⟨i.production, i.dot + 1⟩}

/-- The map that starts production 0, with no lookahead. -/
def start : ItemMap := {(⟨0, 0⟩, none)}

/-! ## Maps of item sets -/

/-- The map of an item set. -/
def said (s : ItemSet) : ItemMap := {c | s.Says c}

theorem said_advance (s : ItemSet) (x : Symbol) : said (s.advance g x) = (said s).advance g x := by
  ext ⟨i, o⟩
  exact ItemSet.says_advance

theorem said_startKernel : said Collection.startKernel = start := by
  ext ⟨i, o⟩
  exact Collection.says_startKernel.trans (by simp [start])

/-- A closed item set says what its items bring along. -/
theorem closed_said (hg : g.WellFormed) {s : ItemSet} (hs : s.Closed g (.ofLowered g)) :
    Closed g (said s) := by
  have harrives : ∀ {i : Item} {la : NatSet} {x : Symbol} {rest : List Symbol} {q : Nat},
      i.rest g = x :: rest → (g.productions[q]?).map (·.lhs) = some x →
      (⟨q, 0⟩, (Firsts.ofLowered g).ofSequence la rest) ∈
        ItemSet.arrivals g (.ofLowered g) i la := by
    intro i la x rest q hrest hq
    obtain ⟨production, hp, rfl⟩ := Option.map_eq_some_iff.1 hq
    have hx : g.isTerminal production.lhs = false := by
      simpa [Lowered.isTerminal] using (hg.lhs_bounds hp).1
    exact ItemSet.mem_arrivals.2
      ⟨_, rest, hrest, hx, ItemSet.mem_productionsOf.2 ⟨production, hp, rfl⟩, rfl, rfl⟩
  intro c hc
  cases hc with
  | item hi hrest hq =>
    obtain ⟨la, hi⟩ := hi
    exact (hs _ la hi _ _ (harrives hrest hq)).1
  | first hi hrest hq ht =>
    obtain ⟨la, hi⟩ := hi
    refine (hs _ la hi _ _ (harrives hrest hq)).2 _ ?_
    exact (Firsts.mem_ofSequence_iff_begins hg).2 (.inl ht)
  | follow hi hrest hq hnull ht =>
    obtain ⟨la, hi, ht⟩ := ht
    refine (hs _ la hi _ _ (harrives hrest hq)).2 _ ?_
    exact (Firsts.mem_ofSequence_iff_begins hg).2 (.inr ⟨hnull, ht⟩)

/-- A computed closure says what the least closed map says. -/
theorem said_closure (hg : g.WellFormed) {kernel : ItemSet} (hk : kernel.Valid g) :
    said (kernel.closure g (.ofLowered g)) = closure g (said kernel) := by
  refine Set.Subset.antisymm ?_ (Set.sInter_subset_of_mem ⟨?_, ?_⟩)
  · refine fun c hc => ItemSet.closure_induction (P := (· ∈ closure g (said kernel))) ?_
      (fun d hd => (isLeast_closure _).1.1 hd) hc
    intro i la j la' hj hi hla o ho
    obtain ⟨s, rest, hrest, -, hq, hdot, rfl⟩ := ItemSet.mem_arrivals.1 hj
    obtain ⟨production, hp, rfl⟩ := ItemSet.mem_productionsOf.1 hq
    replace hq : (g.productions[j.production]?).map (·.lhs) = some production.lhs := by rw [hp]; rfl
    obtain ⟨q, _⟩ := j
    obtain rfl : _ = 0 := hdot
    refine (isLeast_closure _).1.2 _ ?_
    cases o with
    | none => exact .item hi hrest hq
    | some t =>
      rcases (Firsts.mem_ofSequence_iff_begins hg).1 (ho t rfl) with ht | ⟨hnull, ht⟩
      · exact .first hi hrest hq ht
      · exact .follow hi hrest hq hnull (hla t ht)
  · exact fun c hc => ItemSet.says_closure_of_kernel hc
  · exact closed_said hg (ItemSet.closed_closure (Firsts.within_ofLowered hg).1 hk)

end ItemMap

/-! ## Reachable kernels -/

/-- The kernels of the canonical collection. From a kernel, every symbol but `$end` after
    a dot of its closure leads to another. -/
inductive Lowered.Kernel (g : Lowered) : ItemMap → Prop
  | start : g.Kernel .start
  | move {K : ItemMap} {i : Item} {x : Symbol} (hK : g.Kernel K) (hi : (i, none) ∈ K.closure g)
      (hx : i.next? g = some x) (hne : x ≠ endSymbol) : g.Kernel ((K.closure g).advance g x)

/-- Each reachable kernel has one number, and the start has number 0. -/
structure Lowered.Numbering (g : Lowered) (kernels : List ItemMap) : Prop where
  nodup : kernels.Nodup
  start : kernels[0]? = some .start
  mem_iff : ∀ K, K ∈ kernels ↔ g.Kernel K

namespace Collection

open ItemMap (said)

variable {g : Lowered} {c : CollectionState}

/-! ## What is explored is reachable -/

/-- The explored sets and their kernels, by number. -/
theorem explored (hg : g.WellFormed) : ((ofLowered g).map (·.kernel)).Nodup ∧
    ((ofLowered g).map (·.kernel))[0]? = some startKernel ∧
    ∀ c ∈ ofLowered g, c.kernel.Valid g ∧ c.items = c.kernel.closure g (.ofLowered g) ∧
      c.moves.map Prod.fst = c.items.nextSymbols g ∧ ∀ x m, (x, m) ∈ c.moves →
        ((ofLowered g).map (·.kernel))[m]? = some (c.items.advance g x) := by
  obtain ⟨all, hknown, hzero, hlen, hspec⟩ := ofLowered_spec hg
  have hall : (ofLowered g).map (·.kernel) = all.toList := by
    refine List.ext_getElem (by simp [hlen]) fun n hn hn' => ?_
    rw [List.getElem_map]
    have hc := List.getElem?_eq_getElem (show n < (ofLowered g).length by simpa using hn)
    rw [← Option.some.injEq, ← List.getElem?_eq_getElem hn', Array.getElem?_toList]
    exact (hspec n _ hc).1.symm
  rw [hall]
  refine ⟨hknown.nodup, by rw [Array.getElem?_toList, hzero], fun c hc => ?_⟩
  obtain ⟨n, hn⟩ := List.getElem?_of_mem hc
  obtain ⟨hkernel, hd⟩ := hspec n c hn
  refine ⟨hknown.valid _ (Array.mem_of_getElem? hkernel), hd.items, hd.symbols, fun x m hm => ?_⟩
  rw [Array.getElem?_toList, hd.targets x m hm]

/-- What holds of the known kernels and of those that a set leads to holds of all that
    are known then. -/
theorem forall_moves {P : ItemSet → Prop} {items : ItemSet} {ss : List Symbol}
    {kernels : Array ItemSet} (hkernels : ∀ k ∈ kernels, P k)
    (hss : ∀ s ∈ ss, P (items.advance g s)) : ∀ k ∈ (moves g items kernels ss).2, P k := by
  induction ss generalizing kernels with
  | nil => exact hkernels
  | cons s ss ih =>
    have hintern : ∀ k ∈ (intern kernels (items.advance g s)).2, P k := by
      intro k hk
      unfold intern at hk
      split at hk
      · exact hkernels k hk
      · rcases Array.mem_push.1 hk with hk | rfl
        · exact hkernels k hk
        · exact hss s List.mem_cons_self
    exact ih hintern fun s' hs' => hss s' (List.mem_cons_of_mem s hs')

theorem forall_explore {P : ItemSet → Prop} {f : Firsts}
    (hmove : ∀ k, P k → ∀ x ∈ (k.closure g f).nextSymbols g, P ((k.closure g f).advance g x))
    {fuel n : Nat} {kernels : Array ItemSet} (hkernels : ∀ k ∈ kernels, P k) :
    ∀ c ∈ explore g f fuel n kernels, P c.kernel := by
  induction fuel generalizing n kernels with
  | zero => exact fun c hc => absurd hc List.not_mem_nil
  | succ fuel ih =>
    intro c hc
    cases hk : kernels[n]? with
    | none => simp [explore, hk] at hc
    | some k =>
      have hPk := hkernels k (Array.mem_of_getElem? hk)
      simp only [explore, hk, List.mem_cons] at hc
      rcases hc with rfl | hc
      · exact hPk
      · exact ih (forall_moves hkernels (hmove k hPk)) c hc

/-- The kernels of the explored sets, by number. -/
def kernels (g : Lowered) : List ItemMap := ((ofLowered g).map (·.kernel)).map said

theorem kernel_of_mem (hg : g.WellFormed) (hc : c ∈ ofLowered g) : g.Kernel (said c.kernel) := by
  refine (forall_explore (P := fun k => k.Valid g ∧ g.Kernel (said k)) ?_ ?_ c hc).2
  · rintro k ⟨hvalid, hk⟩ x hx
    refine ⟨(hvalid.closure (Firsts.within_ofLowered hg).1).advance x, ?_⟩
    obtain ⟨-, hne, i, hi, hnext⟩ := ItemSet.mem_nextSymbols.1 hx
    rw [ItemMap.said_advance, ItemMap.said_closure hg hvalid]
    refine .move hk ?_ hnext hne
    rw [← ItemMap.said_closure hg hvalid]
    exact hi
  · intro k hk
    rw [Array.mem_singleton.1 hk]
    exact ⟨valid_startKernel hg, ItemMap.said_startKernel ▸ .start⟩

/-! ## What is reachable is explored -/

/-- The items of an explored set say what the closure of its kernel says. -/
theorem said_items (hg : g.WellFormed) (hc : c ∈ ofLowered g) :
    said c.items = (said c.kernel).closure g := by
  obtain ⟨hvalid, hitems, -⟩ := (explored hg).2.2 c hc
  rw [hitems, ItemMap.said_closure hg hvalid]

theorem nodup_kernels (hg : g.WellFormed) : (kernels g).Nodup := by
  obtain ⟨hnodup, -, hspec⟩ := explored hg
  have hvalid : ∀ k ∈ (ofLowered g).map (·.kernel), k.Valid g := by
    intro k hk
    obtain ⟨c, hc, rfl⟩ := List.mem_map.1 hk
    exact (hspec c hc).1
  refine hnodup.map_on fun k hk k' hk' heq => ?_
  exact (hvalid k hk).ext_of_cells (hvalid k' hk') fun d => Set.ext_iff.1 heq d

/-- Every symbol but `$end` after a dot leads to an explored set. -/
theorem exists_mem_moves (hg : g.WellFormed) (hc : c ∈ ofLowered g) {i : Item} {x : Symbol}
    (hi : c.items.Has i) (hx : i.next? g = some x) (hne : x ≠ endSymbol) :
    ∃ m, (x, m) ∈ c.moves := by
  obtain ⟨n, hn⟩ := List.getElem?_of_mem hc
  obtain ⟨m, hm, -⟩ := exists_target? hg (items_eq hn ▸ hi) hx hne
  exact ⟨m, (target?_eq_some_iff hg hn).1 hm⟩

/-- Where the symbols after the dots of an explored set lead. -/
theorem mem_moves (hg : g.WellFormed) (hc : c ∈ ofLowered g) {x : Symbol} {m : Nat} :
    (x, m) ∈ c.moves ↔ (∃ i : Item, (i, none) ∈ said c.items ∧ i.next? g = some x) ∧
      x ≠ endSymbol ∧ (kernels g)[m]? = some ((said c.items).advance g x) := by
  obtain ⟨-, -, hsymbols, htargets⟩ := (explored hg).2.2 c hc
  have hkernel : ∀ m, (x, m) ∈ c.moves →
      (kernels g)[m]? = some ((said c.items).advance g x) := by
    intro m hm
    rw [kernels, List.getElem?_map, htargets x m hm, Option.map_some, ItemMap.said_advance]
  constructor
  · intro hm
    have hx : x ∈ c.items.nextSymbols g := hsymbols ▸ List.mem_map.2 ⟨(x, m), hm, rfl⟩
    obtain ⟨-, hne, i, hi, hnext⟩ := ItemSet.mem_nextSymbols.1 hx
    exact ⟨⟨i, hi, hnext⟩, hne, hkernel m hm⟩
  · rintro ⟨⟨i, hi, hnext⟩, hne, hm⟩
    obtain ⟨m', hm'⟩ := exists_mem_moves hg hc hi hnext hne
    have hlt := (List.getElem?_eq_some_iff.1 hm).1
    rwa [(List.getElem?_inj hlt (nodup_kernels hg)).1 (hm.trans (hkernel m' hm').symm)]

theorem getElem?_kernels_zero (hg : g.WellFormed) : (kernels g)[0]? = some .start := by
  rw [kernels, List.getElem?_map, (explored hg).2.1, Option.map_some, ItemMap.said_startKernel]

theorem mem_kernels (hg : g.WellFormed) {K : ItemMap} (hK : g.Kernel K) : K ∈ kernels g := by
  induction hK with
  | start => exact List.mem_of_getElem? (getElem?_kernels_zero hg)
  | move _ hi hx hne ih =>
    rw [kernels, List.map_map] at ih
    obtain ⟨c, hc, rfl⟩ := List.mem_map.1 ih
    simp only [Function.comp_apply, ← said_items hg hc] at hi ⊢
    obtain ⟨m, hm⟩ := exists_mem_moves hg hc hi hx hne
    exact List.mem_of_getElem? ((mem_moves hg hc).1 hm).2.2

theorem getElem?_kernels {n : Nat} {K : ItemMap} : (kernels g)[n]? = some K ↔
    ∃ c, (ofLowered g)[n]? = some c ∧ said c.kernel = K := by
  simp [kernels, Option.map_eq_some_iff]

/-- The explored sets number the reachable kernels. -/
theorem numbering_kernels (hg : g.WellFormed) : g.Numbering (kernels g) where
  nodup := nodup_kernels hg
  start := getElem?_kernels_zero hg
  mem_iff K := by
    refine ⟨fun hK => ?_, mem_kernels hg⟩
    obtain ⟨n, hn⟩ := List.getElem?_of_mem hK
    obtain ⟨c, hc, rfl⟩ := getElem?_kernels.1 hn
    exact kernel_of_mem hg (List.mem_of_getElem? hc)

end Collection

end LanguageWorkbench
