import LanguageWorkbench.Proofs.First

/-!
# First terminals say nothing too much

The tables of `Firsts.ofLowered` are closed, so they cover what derivations begin
with. They are also the least closed tables: every round adds only what some
derivation shows. Together, they say exactly which terminals begin what a list of
symbols derives, and which lists derive the empty list.

Results:
* `Firsts.sound_ofLowered`: derivations bear out what the tables say.
* `Firsts.isNullable_iff_derives`: the lists that derive the empty list.
* `Firsts.mem_ofSequence_iff_begins`: the first terminals of a list.
-/

namespace LanguageWorkbench

namespace Lowered

/-- The terminal begins a list that is derived from the symbols. -/
def Begins (g : Lowered) (ss : List Symbol) (t : Symbol) : Prop :=
  g.isTerminal t = true ∧ ∃ rest, g.Derives ss (t :: rest)

variable {g : Lowered} {a b ss : List Symbol} {t : Symbol}

theorem derives_production {p : Nat} {production : Production}
    (hp : g.productions[p]? = some production) : g.Derives [production.lhs] production.rhs := by
  have h := Rewrites.replace [] [] hp
  rw [List.append_nil] at h
  exact .single h

/-- A derivation in the middle of a list. -/
theorem Derives.inside (h : g.Derives a b) (before after : List Symbol) :
    g.Derives (before ++ (a ++ after)) (before ++ (b ++ after)) :=
  Derives.append .refl (h.append .refl)

theorem Begins.of_derives (h : g.Derives a b) (hb : g.Begins b t) : g.Begins a t :=
  let ⟨ht, rest, hb⟩ := hb
  ⟨ht, rest, Relation.ReflTransGen.trans h hb⟩

theorem Begins.append_right (h : g.Begins a t) (b : List Symbol) : g.Begins (a ++ b) t :=
  let ⟨ht, rest, h⟩ := h
  ⟨ht, rest ++ b, h.append .refl⟩

theorem Begins.append_left (ha : g.Derives a []) (h : g.Begins b t) : g.Begins (a ++ b) t :=
  let ⟨ht, rest, h⟩ := h
  ⟨ht, rest, ha.append h⟩

end Lowered

namespace Firsts

variable {f : Firsts} {g : Lowered} {follow : NatSet} {ss rs : List Symbol} {t : Symbol}

/-! ## Lists one after the other -/

theorem isNullable_append :
    f.isNullable (ss ++ rs) = true ↔ f.isNullable ss = true ∧ f.isNullable rs = true := by
  simp [isNullable]

theorem ofSequence_append :
    f.ofSequence follow (ss ++ rs) = f.ofSequence (f.ofSequence follow rs) ss := by
  induction ss with
  | nil => rfl
  | cons s ss ih => rw [List.cons_append, ofSequence, ofSequence, ih]

/-- What may follow a list counts if the list is nullable. -/
theorem mem_ofSequence : t ∈ f.ofSequence follow ss ↔
    t ∈ f.ofSequence .empty ss ∨ f.isNullable ss = true ∧ t ∈ follow := by
  induction ss with
  | nil => simp [ofSequence, isNullable, NatSet.not_mem_empty]
  | cons s ss ih =>
    rw [mem_ofSequence_cons, mem_ofSequence_cons, isNullable_cons, ih]
    tauto

/-! ## Derivations bear out the tables -/

/-- Tables that derivations bear out. -/
structure Sound (f : Firsts) (g : Lowered) : Prop where
  nullable : ∀ s, s ∈ f.nullable → g.Derives [s] []
  first : ∀ s t, t ∈ f.of s → g.Begins [s] t

theorem Sound.derives_of_isNullable (h : f.Sound g) (hs : f.isNullable ss = true) :
    g.Derives ss [] := by
  induction ss with
  | nil => exact .refl
  | cons s ss ih =>
    obtain ⟨hs, hss⟩ := isNullable_cons.1 hs
    exact (h.nullable s hs).append (ih hss)

theorem Sound.begins_of_mem (h : f.Sound g) (ht : t ∈ f.ofSequence .empty ss) :
    g.Begins ss t := by
  induction ss with
  | nil => exact absurd ht (NatSet.not_mem_empty t)
  | cons s ss ih =>
    rcases mem_ofSequence_cons.1 ht with ht | ⟨hs, ht⟩
    · exact (h.first s t ht).append_right ss
    · exact (ih ht).append_left (h.nullable s hs)

theorem sound_initial (g : Lowered) : (initial g).Sound g where
  nullable s hs := absurd hs (NatSet.not_mem_empty s)
  first s t ht := by
    have hs : s < g.numSymbols := by
      by_contra hs
      simp [of, initial, hs, NatSet.not_mem_empty] at ht
    by_cases hterm : g.isTerminal s = true
    · simp only [of, initial, List.getElem?_map, List.getElem?_range hs, Option.map_some,
        hterm, if_true, Option.getD_some, NatSet.mem_singleton] at ht
      subst ht
      exact ⟨hterm, [], .refl⟩
    · simp [of, initial, hs, hterm, NatSet.not_mem_empty] at ht

theorem Sound.addProduction (h : f.Sound g) {p : Nat} {production : Production}
    (hp : g.productions[p]? = some production) : (f.addProduction production).Sound g where
  nullable s hs := by
    simp only [Firsts.addProduction] at hs
    split_ifs at hs with hnull
    · rcases NatSet.mem_insert.1 hs with hs | rfl
      · exact h.nullable s hs
      · exact (Lowered.derives_production hp).trans (h.derives_of_isNullable hnull)
    · exact h.nullable s hs
  first s t ht := by
    rw [of_addProduction] at ht
    split_ifs at ht with hs
    · rcases NatSet.mem_union.1 ht with ht | ht
      · exact h.first s t ht
      · exact hs.1 ▸ .of_derives (Lowered.derives_production hp) (h.begins_of_mem ht)
    · exact h.first s t ht

theorem Sound.foldl_addProduction {ps : List Production}
    (hps : ∀ production ∈ ps, ∃ p : Nat, g.productions[p]? = some production) {f : Firsts}
    (h : f.Sound g) : (ps.foldl Firsts.addProduction f).Sound g := by
  induction ps generalizing f with
  | nil => exact h
  | cons production ps ih =>
    obtain ⟨p, hp⟩ := hps production List.mem_cons_self
    exact ih (fun q hq => hps q (List.mem_cons_of_mem production hq)) (h.addProduction hp)

/-- Derivations bear out what the tables of a grammar say. -/
theorem sound_ofLowered (g : Lowered) : (ofLowered g).Sound g := by
  have hps : ∀ production ∈ g.productions.toList, ∃ p : Nat,
      g.productions[p]? = some production := by
    intro production hp
    obtain ⟨p, hlt, rfl⟩ := List.getElem_of_mem hp
    exact ⟨p, Array.getElem?_eq_getElem hlt⟩
  have hround : ∀ f : Firsts, f.Sound g → (g.productions.toList.foldl addProduction f).Sound g :=
    fun f hf => hf.foldl_addProduction hps
  exact saturate_induction hround _ _ (sound_initial g)

/-! ## Closed tables cover derivations -/

theorem Closed.isNullable_of_derives (hf : f.Closed g) (h : g.Derives ss []) :
    f.isNullable ss = true := by
  induction h using Relation.ReflTransGen.head_induction_on with
  | refl => rfl
  | head hstep _ ih =>
    obtain ⟨before, after, hp⟩ := hstep
    obtain ⟨hbefore, hrest⟩ := isNullable_append.1 ih
    obtain ⟨hrhs, hafter⟩ := isNullable_append.1 hrest
    exact isNullable_append.2 ⟨hbefore, isNullable_cons.2 ⟨hf.nullable hp hrhs, hafter⟩⟩

/-- A left side begins with all that its right side begins with. -/
theorem Closed.mem_ofSequence_lhs (hf : f.Closed g) {p : Nat} {production : Production}
    (hp : g.productions[p]? = some production) (h : t ∈ f.ofSequence follow production.rhs) :
    t ∈ f.ofSequence follow [production.lhs] := by
  rw [mem_ofSequence_cons, ofSequence]
  rcases mem_ofSequence.1 h with h | ⟨hnull, h⟩
  · exact .inl (hf.first hp t h)
  · exact .inr ⟨hf.nullable hp hnull, h⟩

theorem Closed.mem_of_begins (hf : f.Closed g) (h : g.Begins ss t) :
    t ∈ f.ofSequence follow ss := by
  obtain ⟨ht, rest, h⟩ := h
  induction h using Relation.ReflTransGen.head_induction_on with
  | refl => exact mem_ofSequence_cons.2 (.inl (hf.terminal t ht))
  | head hstep _ ih =>
    obtain ⟨before, after, hp⟩ := hstep
    rw [ofSequence_append, ofSequence_append] at ih
    rw [List.append_cons, ofSequence_append, ofSequence_append]
    exact ofSequence_mono f (fun _ hn => hf.mem_ofSequence_lhs hp hn) before t ih

/-! ## What the tables of a grammar say -/

/-- The lists that derive the empty list. -/
theorem isNullable_iff_derives (hg : g.WellFormed) :
    (ofLowered g).isNullable ss = true ↔ g.Derives ss [] :=
  ⟨(sound_ofLowered g).derives_of_isNullable, (closed_ofLowered hg).isNullable_of_derives⟩

/-- The first terminals of a list begin what it derives, or they may follow a list that
    derives the empty list. -/
theorem mem_ofSequence_iff_begins (hg : g.WellFormed) :
    t ∈ (ofLowered g).ofSequence follow ss ↔ g.Begins ss t ∨ g.Derives ss [] ∧ t ∈ follow := by
  constructor
  · intro h
    rcases mem_ofSequence.1 h with h | ⟨hnull, h⟩
    · exact .inl ((sound_ofLowered g).begins_of_mem h)
    · exact .inr ⟨(isNullable_iff_derives hg).1 hnull, h⟩
  · rintro (h | ⟨hnull, h⟩)
    · exact (closed_ofLowered hg).mem_of_begins h
    · exact mem_ofSequence.2 (.inr ⟨(isNullable_iff_derives hg).2 hnull, h⟩)

end Firsts

end LanguageWorkbench
