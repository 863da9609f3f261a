import LanguageWorkbench.Proofs.Constructing
import LanguageWorkbench.Proofs.Preservation
import LanguageWorkbench.Proofs.ValidChoices

/-!
# Slots of absent bits

A production leaves out the absent bits of its sequence, and its derivation keeps the places
where they were. The places are those of the finished list of arguments, so putting nothing
into them one after the other gives every value back the place of its bit.

Results:
* `Grammar.Records`: a production and a derivation that say which bits are absent.
* `TreeBuilder.Splices`: the arguments that values are spliced into.
* `Grammar.LowersTo.expanded`: all choices of bits are productions.
* `Lowered.slots_of_ofGrammar`: the productions of a sequence are its valid patterns, each
  once, and the values of a production become the arguments of its pattern.
-/

namespace LanguageWorkbench

/-! ## Places of absent bits -/

namespace Grammar

theorem mem_absentPlaces {place i : Nat} {choice : List (Option Symbol)} :
    i ∈ absentPlaces place choice ↔
      ∃ k, i = place + k ∧ (choice.map Option.isNone)[k]? = some true := by
  induction choice generalizing place with
  | nil => simp [absentPlaces]
  | cons r choice ih =>
    -- the first bit is in the place itself, the others come after it
    rw [← Nat.or_exists_add_one]
    cases r with
    | none => simp [absentPlaces, ih, Nat.add_assoc, Nat.add_comm 1]
    | some s => simp [absentPlaces, ih, Nat.add_assoc, Nat.add_comm 1]

theorem pairwise_absentPlaces (place : Nat) (choice : List (Option Symbol)) :
    (absentPlaces place choice).Pairwise (· < ·) := by
  induction choice generalizing place with
  | nil => exact .nil
  | cons r choice ih =>
    cases r with
    | some s => exact ih _
    | none =>
      refine List.pairwise_cons.2 ⟨fun i hi => ?_, ih _⟩
      obtain ⟨k, rfl, -⟩ := mem_absentPlaces.1 hi
      omega

theorem Chosen.length_eq {g : Grammar} {symbols : SymbolMap} {afterAbsent : Bool}
    {bits : List RuleId} {choice : List (Option Symbol)}
    (h : Chosen g symbols afterAbsent bits choice) : choice.length = bits.length := by
  induction h with
  | nil => rfl
  | cons _ _ ih => rw [List.length_cons, List.length_cons, ih]

end Grammar

/-! ## Spliced values -/

namespace TreeBuilder

open Grammar (absentPlaces presentSymbols)

variable {choice : List (Option Symbol)} {values : List Node}

theorem getElem?_fill_eq_nothing_iff (hlen : values.length = (presentSymbols choice).length)
    (hlive : ∀ v ∈ values, v.isNothing = false) {i : Nat} :
    (fill choice values)[i]? = some .nothing ↔ (choice.map Option.isNone)[i]? = some true := by
  induction choice generalizing values i with
  | nil =>
    obtain rfl := List.length_eq_zero_iff.1 hlen
    simp [fill]
  | cons r choice ih =>
    cases r with
    | none =>
      cases i with
      | zero => simp [fill]
      | succ i => simpa [fill] using ih hlen hlive
    | some s =>
      cases values with
      | nil => simp at hlen
      | cons value values =>
        obtain ⟨hvalue, hlive⟩ := List.forall_mem_cons.1 hlive
        cases i with
        | zero =>
          suffices value ≠ .nothing by simpa [fill] using this
          rintro rfl
          cases hvalue
        | succ i => simpa [fill] using ih (by simpa using hlen) hlive

theorem filter_fill (hlen : values.length = (presentSymbols choice).length)
    (hlive : ∀ v ∈ values, v.isNothing = false) :
    (fill choice values).filter (!·.isNothing) = values := by
  induction choice generalizing values with
  | nil => exact (List.length_eq_zero_iff.1 hlen) ▸ rfl
  | cons r choice ih =>
    cases r with
    | none => exact ih hlen hlive
    | some s =>
      cases values with
      | nil => simp at hlen
      | cons value values =>
        obtain ⟨hvalue, hlive⟩ := List.forall_mem_cons.1 hlive
        rw [fill, List.filter_cons_of_pos (by rw [hvalue]; rfl), ih (by simpa using hlen) hlive]

/-- The values of production `n` are spliced into `count` arguments, of which those in the
    slots of its derivation are nothing and the others the values in order. The reduction is
    made of these arguments. -/
structure Splices (b : TreeBuilder) (n : Nat) (d : Derivation) (count : Nat)
    (values arguments : List Node) : Prop where
  splice_eq : splice d.name values d.omitted = .ok arguments
  length_eq : arguments.length = count
  nothing_iff : ∀ i, arguments[i]? = some .nothing ↔ i ∈ d.omitted
  live_eq : arguments.filter (!·.isNothing) = values
  reduce_eq : ∃ kind, b.kinds[n]? = some (some kind) ∧ ∀ store, b.reduce store n values = .ok
    (match if d.collapse then onlyLive? arguments else none with
      | some only => (only, store)
      | none => store.tree kind arguments)

end TreeBuilder

/-! ## Each production once -/

namespace Grammar

variable {g : Grammar} {symbols : SymbolMap} {l l' : Lowered}

theorem nodup_of_addUnlessKnown {p : Production} {d : Derivation}
    (h : (g.addUnlessKnown l p d).result = .ok l') (hl : l.productions.toList.Nodup) :
    l'.productions.toList.Nodup := by
  unfold addUnlessKnown at h
  split at h
  · obtain ⟨-, -, h⟩ := Noted.result_bind_eq_ok_iff.1 h
    cases h
    exact hl
  · rename_i hnone
    obtain ⟨-, -, h⟩ := Noted.result_bind_eq_ok_iff.1 h
    cases h
    have hnew : p ∉ l.productions.toList := by
      intro hp
      simpa using List.findIdx?_eq_none_iff.1 hnone p hp
    rw [Lowered.addProduction, Array.toList_push]
    exact (List.perm_append_singleton p _).nodup_iff.2 (List.nodup_cons.2 ⟨hnew, hl⟩)

theorem nodup_of_addChoices {lhs : Symbol} {built : RuleId} {found : List (List (Option Symbol))}
    (h : (g.addChoices lhs built l found).result = .ok l') (hl : l.productions.toList.Nodup) :
    l'.productions.toList.Nodup := by
  induction found generalizing l with
  | nil =>
    cases h
    exact hl
  | cons choice rest ih =>
    obtain ⟨l₁, h₁, h⟩ := Noted.result_bind_eq_ok_iff.1 h
    exact ih h (nodup_of_addUnlessKnown h₁ hl)

theorem nodup_of_addContributions {cs : List (RuleId × List RuleId × RuleId)}
    (h : (g.addContributions symbols l cs).result = .ok l') (hl : l.productions.toList.Nodup) :
    l'.productions.toList.Nodup := by
  induction cs generalizing l with
  | nil =>
    cases h
    exact hl
  | cons c cs ih =>
    obtain ⟨id, bits, built⟩ := c
    obtain ⟨found, -, h⟩ := Noted.result_bind_eq_ok_iff.1 h
    split at h
    · obtain ⟨l₁, h₁, h⟩ := Noted.result_bind_eq_ok_iff.1 h
      exact ih h (nodup_of_addChoices h₁ hl)
    · cases h

theorem nodup_of_addRules {rules : List (Rule × RuleId)}
    (h : (g.addRules symbols l rules).result = .ok l') (hl : l.productions.toList.Nodup) :
    l'.productions.toList.Nodup := by
  induction rules generalizing l with
  | nil =>
    cases h
    exact hl
  | cons r rules ih =>
    unfold addRules at h
    split at h
    · cases h
    · cases h
    · obtain ⟨l₁, h₁, h⟩ := Noted.result_bind_eq_ok_iff.1 h
      exact ih h (nodup_of_addContributions h₁ hl)

theorem nodup_of_ofGrammar (h : (Lowered.ofGrammar g).result = .ok l) :
    l.productions.toList.Nodup := by
  obtain ⟨l₀, symbols, start, s, h₀, -, -, h⟩ := exists_addRules_of_ofGrammar h
  obtain ⟨-, hproductions, -⟩ := numbers_of_symbols h₀
  refine nodup_of_addRules h ?_
  simp [Lowered.addProduction, hproductions]

/-! ## What sequences record -/

/-- The production and the derivation of a pattern of absent bits: the symbols of the bits
    that are present, and the places of the others. -/
structure Records (g : Grammar) (l : Lowered) (bits : List RuleId) (absent : List Bool)
    (p : Production) (d : Derivation) : Prop where
  valid : g.Valid false bits absent
  symbols : List.Forall₂ (g.HasSymbol l) (presentBits bits absent) p.rhs
  ascending : d.omitted.Pairwise (· < ·)
  omitted_iff : ∀ i, i ∈ d.omitted ↔ absent[i]? = some true
  total : p.rhs.length + d.omitted.length = bits.length

/-- The productions of a sequence belong to the sequence itself or, for the line of an
    alternative, to the alternative. -/
inductive Heads (g : Grammar) : RuleId → RuleId → Prop
  | own {id : RuleId} {bits : List RuleId} : g.shape? id = some (.sequence bits false) →
      Heads g id id
  | line {alt id : RuleId} {branches bits : List RuleId} :
      g.shape? alt = some (.alternative branches) → id ∈ branches →
      g.shape? id = some (.sequence bits true) → Heads g alt id

variable {text : String} {head id : RuleId} {bits : List RuleId} {anonymous : Bool}
variable {choice : List (Option Symbol)}

theorem records_of_chosen (hload : load text = .ok g) (hn : g.Numbers l symbols)
    (h : Chosen g symbols false bits choice) (built : RuleId) {p : Production}
    (hp : p.rhs = presentSymbols choice) :
    g.Records l bits (choice.map Option.isNone) p (g.derivationOf built choice) where
  valid := (h.valid hload hn).1
  symbols := hp ▸ (h.valid hload hn).2
  ascending := pairwise_absentPlaces 0 choice
  omitted_iff i := by
    show i ∈ absentPlaces 0 choice ↔ _
    rw [mem_absentPlaces]
    simp only [Nat.zero_add, exists_eq_left']
  total := by
    have hcount := TreeBuilder.length_absentPlaces 0 choice
    rw [hp, ← h.length_eq, ← hcount]
    exact Nat.add_comm _ _

/-- The values of a recorded choice are spliced. -/
theorem splices_of_chosen (h : Chosen g symbols false bits choice) (hlong : 2 ≤ bits.length)
    {built : RuleId} {rule : Rule} (hrule : g.rule? built = some rule)
    (hconcrete : rule.shape.isConcrete = true) {n : Nat}
    (hd : l.derivations[n]? = some (g.derivationOf built choice)) {values : List Node}
    (hlen : values.length = (presentSymbols choice).length)
    (hlive : ∀ v ∈ values, v.isNothing = false) :
    (TreeBuilder.ofLowered l (.ofGrammar g)).Splices n (g.derivationOf built choice) bits.length
      values (TreeBuilder.fill choice values) where
  splice_eq := TreeBuilder.splice_absentPlaces _ hlen
  length_eq := (TreeBuilder.length_fill hlen).trans h.length_eq
  nothing_iff i := by
    rw [TreeBuilder.getElem?_fill_eq_nothing_iff hlen hlive]
    show _ ↔ i ∈ absentPlaces 0 choice
    rw [mem_absentPlaces]
    simp only [Nat.zero_add, exists_eq_left']
  live_eq := TreeBuilder.filter_fill hlen hlive
  reduce_eq := by
    obtain ⟨kind, hkind⟩ := Schema.exists_kind?_of_concrete hrule hconcrete
    have hbuilt : (TreeBuilder.ofLowered l (.ofGrammar g)).kinds[n]? = some (some kind) := by
      simp [TreeBuilder.ofLowered, hd, derivationOf, hkind]
    exact ⟨kind, hbuilt, fun store => TreeBuilder.reduce_several hd rfl hbuilt
      (h.length_eq ▸ hlong) hlen⟩

/-- The first rule has productions for the bits. -/
inductive Expands (g : Grammar) : RuleId → List RuleId → Prop
  | sequence {id : RuleId} {bits : List RuleId} : g.shape? id = some (.sequence bits false) →
      Expands g id bits
  | line {alt id : RuleId} {branches bits : List RuleId} :
      g.shape? alt = some (.alternative branches) → id ∈ branches →
      g.shape? id = some (.sequence bits true) → Expands g alt bits
  | branch {alt bit : RuleId} {branches : List RuleId} :
      g.shape? alt = some (.alternative branches) → bit ∈ branches →
      (∀ bits, g.shape? bit ≠ some (.sequence bits true)) → Expands g alt [bit]
  | element {id child : RuleId} : g.shape? id = some (.plus child) → Expands g id [child]

theorem Heads.expands (h : g.Heads head id)
    (hshape : g.shape? id = some (.sequence bits anonymous)) : g.Expands head bits := by
  cases h with
  | own hown =>
    obtain ⟨rfl, -⟩ := Shape.sequence.inj (Option.some.inj (hshape.symm.trans hown))
    exact .sequence hown
  | line halt hbit hline =>
    obtain ⟨rfl, -⟩ := Shape.sequence.inj (Option.some.inj (hshape.symm.trans hline))
    exact .line halt hbit hline

/-- All choices of bits are productions of the rule that expands them. -/
theorem LowersTo.expanded (h : g.LowersTo symbols l) (hg : g.Sound) (he : g.Expands head bits) :
    ∃ lhs found, symbols.lookup head = some lhs ∧ g.choices symbols false bits = .ok found ∧
      ∀ choice ∈ found, ⟨lhs, presentSymbols choice⟩ ∈ l.productions := by
  have hbranch : ∀ {branches : List RuleId} {bit : RuleId},
      g.shape? head = some (.alternative branches) → bit ∈ branches → ∃ lhs found,
        symbols.lookup head = some lhs ∧ g.choices symbols false (g.inlineBits [bit]) = .ok found ∧
          ∀ choice ∈ found, ⟨lhs, presentSymbols choice⟩ ∈ l.productions := by
    intro branches bit halt hbit
    obtain ⟨rule, hrule, hr⟩ := Option.map_eq_some_iff.1 halt
    refine h.served hrule (head, [bit], bit) ?_
    rw [contributions, hr]
    exact List.mem_map.2 ⟨bit, hbit, rfl⟩
  cases he with
  | sequence hshape =>
    obtain ⟨rule, hrule, hr⟩ := Option.map_eq_some_iff.1 hshape
    have hserved := h.served hrule (head, bits, head) (by simp [contributions, hr])
    rwa [inlineBits_of_two_le (hg.long hshape)] at hserved
  | @line id _ _ halt hbit hline =>
    have hinline : g.inlineBits [id] = bits := by simp [inlineBits, hline]
    exact hinline ▸ hbranch halt hbit
  | @branch bit _ halt hbit hno =>
    rcases inlineBits_singleton g bit with ⟨inner, hinner, -⟩ | ⟨-, heq⟩
    · exact absurd hinner (hno inner)
    · exact heq ▸ hbranch halt hbit
  | @element child hshape =>
    obtain ⟨rule, hrule, hr⟩ := Option.map_eq_some_iff.1 hshape
    have hserved := h.served hrule (head, [child], head) (by simp [contributions, hr])
    rwa [h.inlineBits_plus hrule hr] at hserved

/-- A production with a derivation for a sequence comes from a choice of its bits, or is a
    branch of an alternative that leads to the sequence. -/
theorem LowersTo.exists_chosen (h : g.LowersTo symbols l) (hg : g.Sound) (hc : g.check = .ok ())
    (hshape : g.shape? id = some (.sequence bits anonymous)) {n : Nat} (hn : n ≠ 0)
    {p : Production} {d : Derivation} (hp : l.productions[n]? = some p)
    (hd : l.derivations[n]? = some d) (hid : d.rule = some id) :
    (∃ head choice, g.Heads head id ∧ symbols.lookup head = some p.lhs ∧
      p.rhs = presentSymbols choice ∧ d = g.derivationOf id choice ∧
      Chosen g symbols false bits choice) ∨
    ∃ alt branches s, g.shape? alt = some (.alternative branches) ∧ id ∈ branches ∧
      anonymous = false ∧ symbols.lookup alt = some p.lhs ∧ symbols.lookup id = some s ∧
      p.rhs = [s] ∧ d.omitted = [] := by
  obtain ⟨head, built, choice, hlhs, hrhs, hd', hstands⟩ := h.exists_stands hg hc hn hp
  obtain rfl := Option.some.inj (hd.symm.trans hd')
  obtain rfl := Option.some.inj hid
  have hother : ∀ {shape : Shape}, g.shape? built = some shape →
      shape = .sequence bits anonymous := fun hother =>
    Option.some.inj (hother.symm.trans hshape)
  cases hstands with
  | sequence hown _ hchosen =>
    obtain ⟨rfl, rfl⟩ := Shape.sequence.inj (hother hown)
    exact .inl ⟨head, choice, .own hown, hlhs, hrhs, rfl, hchosen⟩
  | line halt hbit hline _ hchosen =>
    obtain ⟨rfl, rfl⟩ := Shape.sequence.inj (hother hline)
    exact .inl ⟨head, choice, .line halt hbit hline, hlhs, hrhs, rfl, hchosen⟩
  | @branch branches _ s halt hbit hr =>
    refine .inr ⟨head, branches, s, halt, hbit, ?_⟩
    cases hr with
    | rule hrule hkind hs =>
      obtain ⟨rule, hrule', hr⟩ := Option.map_eq_some_iff.1 hshape
      obtain rfl := Option.some.inj (hrule.symm.trans hrule')
      rw [hr] at hkind
      have hown : anonymous = false := by simpa [Shape.isTerm, hasNonterminal] using hkind
      exact ⟨hown, hlhs, hs, hrhs, rfl⟩
    | aliasOf hlink _ => cases hother hlink
    | option hlink _ => cases hother hlink
    | dependent hlink _ _ => cases hother hlink
  | element hlist _ => cases hother hlist
  | longer hlist _ _ => cases hother hlist

/-- A production of a head with a derivation for its sequence comes from a choice of the bits. -/
theorem LowersTo.exists_chosen_of_head (h : g.LowersTo symbols l) (hg : g.Sound)
    (hc : g.check = .ok ()) (hhead : g.Heads head id)
    (hshape : g.shape? id = some (.sequence bits anonymous)) {n : Nat} {p : Production}
    {d : Derivation} (hlhs : symbols.lookup head = some p.lhs) (hp : l.productions[n]? = some p)
    (hd : l.derivations[n]? = some d) (hid : d.rule = some id) :
    ∃ choice, p.rhs = presentSymbols choice ∧ d = g.derivationOf id choice ∧
      Chosen g symbols false bits choice := by
  rcases h.exists_chosen hg hc hshape (h.ne_zero_of_lookup hp hlhs) hp hd hid with
    ⟨_, choice, -, -, hrhs, hd, hchosen⟩ | ⟨alt, branches, s, halt, -, hown, hlhs', -⟩
  · exact ⟨choice, hrhs, hd, hchosen⟩
  · -- the head of a sequence with a name of its own is no alternative
    subst hown
    cases hhead with
    | own _ =>
      obtain rfl := h.numbers.lookup_inj hlhs hlhs'
      cases hshape.symm.trans halt
    | line _ _ hline => cases hshape.symm.trans hline

/-- The first derivation is that of the first production, which belongs to no rule. -/
theorem derivations_zero (h : (Lowered.ofGrammar g).result = .ok l) :
    l.derivations[0]? = some (.plain "$accept") := by
  obtain ⟨l₀, symbols, start, s, h₀, -, -, h⟩ := exists_addRules_of_ofGrammar h
  obtain ⟨-, -, hderivations⟩ := numbers_of_symbols h₀
  obtain ⟨-, -, more, -, hmore, -⟩ := (addRules_spec h fun _ hr => hr).1
  rw [hmore, Lowered.addProduction, hderivations]
  simp

/-- The branch of an alternative that leads to a rule: the symbol of the rule alone. -/
def IsBranchTo (g : Grammar) (l : Lowered) (id : RuleId) (p : Production) : Prop :=
  ∃ alt branches s, g.shape? alt = some (.alternative branches) ∧ id ∈ branches ∧
    l.symbol? (g.nameOf alt) = some p.lhs ∧ l.symbol? (g.nameOf id) = some s ∧ p.rhs = [s]

end Grammar

/-! ## The main result -/

/-- There are no two productions with the same sides. A production that is recorded for a
    sequence leaves out the absent bits of a valid pattern, and its values are spliced into as
    many arguments as there are bits. Every valid pattern has a production. Other productions
    whose nodes are of the sequence are branches of alternatives, which leave out nothing. -/
theorem Lowered.slots_of_ofGrammar {text : String} {g : Grammar} {l : Lowered}
    (hload : Grammar.load text = .ok g) (hl : (Lowered.ofGrammar g).result = .ok l) :
    l.productions.toList.Nodup ∧
    ∀ id bits anonymous, g.shape? id = some (.sequence bits anonymous) →
      (∀ head, g.Heads head id → ∃ lhs, l.symbol? (g.nameOf head) = some lhs ∧
        (∀ (n : Nat) (p : Production) (d : Derivation), l.productions[n]? = some p →
          l.derivations[n]? = some d → p.lhs = lhs → d.rule = some id →
          (∃ absent, g.Records l bits absent p d) ∧
          ∀ values : List Node, values.length = p.rhs.length →
            (∀ v ∈ values, v.isNothing = false) →
            ∃ arguments, (TreeBuilder.ofLowered l (.ofGrammar g)).Splices n d bits.length
              values arguments) ∧
        ∀ absent, g.Valid false bits absent → ∃ rhs,
          List.Forall₂ (g.HasSymbol l) (Grammar.presentBits bits absent) rhs ∧
            ⟨lhs, rhs⟩ ∈ l.productions) ∧
      ∀ (n : Nat) (p : Production) (d : Derivation), l.productions[n]? = some p →
        l.derivations[n]? = some d → d.rule = some id →
        (∃ head, g.Heads head id ∧ l.symbol? (g.nameOf head) = some p.lhs) ∨
          anonymous = false ∧ g.IsBranchTo l id p ∧ d.omitted = [] := by
  obtain ⟨symbols, h⟩ := Grammar.lowersTo_of_ofGrammar hl
  have hg := Grammar.sound_of_load hload
  have hc := Grammar.check_of_load hload
  refine ⟨Grammar.nodup_of_ofGrammar hl, fun id bits anonymous hshape => ⟨?_, ?_⟩⟩
  · intro head hhead
    obtain ⟨lhs, found, hlhs, hfound, hmem⟩ := h.expanded hg (hhead.expands hshape)
    refine ⟨lhs, h.numbers.symbol?_nameOf hlhs, ?_, ?_⟩
    · rintro n p d hp hd rfl hid
      obtain ⟨choice, hrhs, rfl, hchosen⟩ :=
        h.exists_chosen_of_head hg hc hhead hshape hlhs hp hd hid
      refine ⟨⟨_, Grammar.records_of_chosen hload h.numbers hchosen id hrhs⟩, ?_⟩
      intro values hlen hlive
      obtain ⟨rule, hrule, hr⟩ := Option.map_eq_some_iff.1 hshape
      rw [hrhs] at hlen
      exact ⟨_, Grammar.splices_of_chosen hchosen (hg.long hshape) hrule (by rw [hr]; rfl) hd hlen
        hlive⟩
    · intro absent hvalid
      obtain ⟨choice, hchosen, rfl⟩ := hvalid.exists_chosen hload hfound
      exact ⟨_, (hchosen.valid hload h.numbers).2,
        hmem choice ((Grammar.mem_choices_iff hfound).2 hchosen)⟩
  -- a node of the sequence that is built elsewhere
  · intro n p d hp hd hid
    have hn : n ≠ 0 := by
      rintro rfl
      obtain rfl := Option.some.inj (hd.symm.trans (Grammar.derivations_zero hl))
      cases hid
    rcases h.exists_chosen hg hc hshape hn hp hd hid with
      ⟨head, -, hhead, hlhs, -⟩ | ⟨alt, branches, s, halt, hbit, hown, hlhs, hs, hrhs, hnone⟩
    · exact .inl ⟨head, hhead, h.numbers.symbol?_nameOf hlhs⟩
    · exact .inr ⟨hown, ⟨alt, branches, s, halt, hbit, h.numbers.symbol?_nameOf hlhs,
        h.numbers.symbol?_nameOf hs, hrhs⟩, hnone⟩

/-- A sum of one summand leaves out the option and the dependent after it. -/
theorem Lowered.slots_of_sums : ∃ g l, Grammar.load Grammar.sums = .ok g ∧
    (Lowered.ofGrammar g).result = .ok l ∧ l.productions.toList.Nodup ∧
    ∃ lhs rhs, l.symbol? (g.nameOf 2) = some lhs ∧ List.Forall₂ (g.HasSymbol l) [0] rhs ∧
      ⟨lhs, rhs⟩ ∈ l.productions := by
  have hok : (Grammar.load Grammar.sums).toOption.any fun g =>
      (Lowered.ofGrammar g).result.toOption.any fun _ =>
        decide (g.shape? 2 = some (.sequence [3, 4, 0] false)) &&
          (decide (g.shape? 3 = some (.option 2)) && decide (g.shape? 4 = some (.dependent 1)) &&
            decide ((g.shape? 0).map Shape.isTerm = some true)) := by
    decide +kernel
  obtain ⟨g, hload, hok⟩ := any_toOption_iff.1 hok
  obtain ⟨l, hl, hok⟩ := any_toOption_iff.1 hok
  simp only [Bool.and_eq_true, decide_eq_true_eq] at hok
  obtain ⟨hsum, ⟨hoption, hdependent⟩, hterm⟩ := hok
  obtain ⟨hnodup, hslots⟩ := slots_of_ofGrammar hload hl
  obtain ⟨lhs, hlhs, -, hvalid⟩ := (hslots 2 [3, 4, 0] false hsum).1 2 (.own hsum)
  have hpattern : g.Valid false [3, 4, 0] [true, true, false] := by
    refine .cons (.absent ?_ (.option hoption)) (.cons (.follows hdependent rfl)
      (.cons (.present ?_) .nil))
    · rw [hoption]
      nofun
    · intro child hshape
      rw [hshape] at hterm
      cases hterm
  obtain ⟨rhs, hrhs, hmem⟩ := hvalid _ hpattern
  exact ⟨g, l, hload, hl, hnodup, lhs, rhs, hlhs, hrhs, hmem⟩

/-- A grammar with a sequence that is a branch of an alternative. -/
def Grammar.branched : String :=
  "language branched\nkeyword x\nkeyword y\nstart a\na:\n    s\n    x\ns:\n    x y\n"

/-- The branch is recorded for the sequence of two bits, but its right side has one symbol and
    nothing is left out. -/
theorem Lowered.not_records_branched : ∃ (g : Grammar) (l : Lowered) (id : RuleId)
    (bits : List RuleId) (n : Nat) (p : Production) (d : Derivation),
    Grammar.load Grammar.branched = .ok g ∧ (Lowered.ofGrammar g).result = .ok l ∧ g.shape? id = some (.sequence bits false) ∧
    l.productions[n]? = some p ∧ l.derivations[n]? = some d ∧ d.rule = some id ∧
    p.rhs.length + d.omitted.length ≠ bits.length ∧ ∀ absent, ¬ g.Records l bits absent p d := by
  have hok : (Grammar.load Grammar.branched).toOption.any fun g =>
      (Lowered.ofGrammar g).result.toOption.any fun l =>
        decide (g.shape? 3 = some (.sequence [0, 1] false)) &&
          (decide (l.productions[1]? = some ⟨4, [5]⟩) &&
            decide (l.derivations[1]? = some ⟨"s", some 3, [], false⟩)) := by
    decide +kernel
  obtain ⟨g, hload, hok⟩ := any_toOption_iff.1 hok
  obtain ⟨l, hl, hok⟩ := any_toOption_iff.1 hok
  simp only [Bool.and_eq_true, decide_eq_true_eq] at hok
  obtain ⟨hshape, hproduction, hderivation⟩ := hok
  have hcount : [5].length + ([] : List Nat).length ≠ [0, 1].length := by decide
  exact ⟨g, l, 3, [0, 1], 1, _, _, hload, hl, hshape, hproduction, hderivation, rfl, hcount,
    fun absent h => hcount h.total⟩

end LanguageWorkbench
