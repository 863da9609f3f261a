import LanguageWorkbench.Grammar.Check
import LanguageWorkbench.Proofs.Inference
import LanguageWorkbench.Proofs.Matching
import LanguageWorkbench.Proofs.Reachability
import LanguageWorkbench.Schema

/-!
# Values of rules and their kinds

A node is a value of a rule if links of offers lead from the rule to one that accepts the
node. Where no two rules share a name, the name of a rule with nodes of its own leads to
the one kind of these nodes.

Results:
* `Schema.isValue_iff`: values by paths of offers.
* `Grammar.Reads.isValue`: a value of the rule behind a bit is a value of the bit.
* `Schema.exists_isKind`: the kind of a rule, found by its name and by its number.
-/

namespace LanguageWorkbench

namespace Schema

variable {s : Schema} {g : Grammar} {n : Node} {id child : RuleId}

/-- The rules whose values are values of a rule. -/
def offersOf (g : Grammar) (id : RuleId) : List RuleId := ((g.shape? id).map offers).getD []

theorem offersOf_eq {shape : Shape} (h : g.shape? id = some shape) :
    offersOf g id = offers shape := by
  simp [offersOf, h]

theorem lt_size_of_mem_offersOf (h : child ∈ offersOf g id) : id < g.size := by
  cases hshape : g.shape? id with
  | none => simp [offersOf, hshape] at h
  | some shape =>
    obtain ⟨rule, hrule, -⟩ := Option.map_eq_some_iff.1 hshape
    exact (Array.getElem?_eq_some_iff.1 hrule).1

theorem lt_size_of_accepts (h : s.accepts g n id = true) : id < g.size := by
  cases hshape : g.shape? id with
  | none => simp [accepts, hshape] at h
  | some shape =>
    obtain ⟨rule, hrule, -⟩ := Option.map_eq_some_iff.1 hshape
    exact (Array.getElem?_eq_some_iff.1 hrule).1

theorem isValueBy_iff {known : RuleId → Bool} : s.isValueBy g n known id = true ↔
    s.accepts g n id = true ∨ ∃ child ∈ offersOf g id, known child = true := by
  rw [isValueBy, Bool.or_eq_true, List.any_eq_true]
  rfl

theorem monotonic_isValueBy (s : Schema) (g : Grammar) (n : Node) :
    Monotonic (s.isValueBy g n) := by
  intro known known' id hknown h
  rw [isValueBy_iff] at h ⊢
  exact h.imp_right fun ⟨child, hchild, hk⟩ => ⟨child, hchild, hknown child hk⟩

theorem within_isValueBy (s : Schema) (g : Grammar) (n : Node) :
    Within g.size (s.isValueBy g n) := by
  intro known id h
  rcases isValueBy_iff.1 h with h | ⟨child, hchild, -⟩
  · exact lt_size_of_accepts h
  · exact lt_size_of_mem_offersOf hchild

/-- A node is a value of a rule exactly by itself or as a value that the rule offers. -/
theorem isValue_of_isValueBy (h : s.isValueBy g n (s.isValue g n) id = true) :
    s.isValue g n id = true :=
  inferredVia_of_step (monotonic_isValueBy s g n) (within_isValueBy s g n) h

/-- A rule accepts a node if links of offers lead to a rule that does so by itself. -/
theorem isValue_iff :
    s.isValue g n id = true ↔ ∃ y, Linked (offersOf g) id y ∧ s.accepts g n y = true := by
  constructor
  · intro h
    refine inferredVia_induction (P := fun id => ∃ y, Linked (offersOf g) id y ∧
      s.accepts g n y = true) (fun known id hknown h => ?_) h
    rcases isValueBy_iff.1 h with h | ⟨child, hchild, hk⟩
    · exact ⟨id, .refl, h⟩
    · obtain ⟨y, hy, haccepts⟩ := hknown child hk
      exact ⟨y, .head hchild hy, haccepts⟩
  · rintro ⟨y, hy, haccepts⟩
    induction hy using Relation.ReflTransGen.head_induction_on with
    | refl => exact isValue_of_isValueBy (isValueBy_iff.2 (.inl haccepts))
    | head hlink _ ih => exact isValue_of_isValueBy (isValueBy_iff.2 (.inr ⟨_, hlink, ih⟩))

theorem isValue_of_accepts (h : s.accepts g n id = true) : s.isValue g n id = true :=
  isValue_iff.2 ⟨id, .refl, h⟩

theorem isValue_of_offers {shape : Shape} (hshape : g.shape? id = some shape)
    (hchild : child ∈ offers shape) (h : s.isValue g n child = true) :
    s.isValue g n id = true := by
  obtain ⟨y, hy, haccepts⟩ := isValue_iff.1 h
  exact isValue_iff.2 ⟨y, .head (by rwa [offersOf_eq hshape]) hy, haccepts⟩

/-! ## Kinds -/

/-- The rules with nodes of their own, with their numbers. -/
def concreteRules (g : Grammar) : List (Rule × RuleId) :=
  g.numbered.filter (·.1.shape.isConcrete)

theorem mem_concreteRules {rule : Rule} :
    (rule, id) ∈ concreteRules g ↔ g.rule? id = some rule ∧ rule.shape.isConcrete = true := by
  simp [concreteRules, Grammar.mem_numbered]

/-- A rule stands in one place only. -/
theorem concreteRules_inj {k k' : Nat} {rule rule' : Rule}
    (h : (concreteRules g)[k]? = some (rule, id)) (h' : (concreteRules g)[k']? = some (rule', id)) :
    k = k' := by
  have hnodup : ((concreteRules g).map Prod.snd).Nodup :=
    Grammar.nodup_numbered.sublist (List.filter_sublist.map Prod.snd)
  have hmap : ∀ {k : Nat} {rule : Rule}, (concreteRules g)[k]? = some (rule, id) →
      ((concreteRules g).map Prod.snd)[k]? = some id := by
    intro k rule hk
    rw [List.getElem?_map, hk]
    rfl
  have hk := List.getElem?_eq_some_iff.1 (hmap h)
  have hk' := List.getElem?_eq_some_iff.1 (hmap h')
  obtain ⟨hlt, hk⟩ := hk
  obtain ⟨hlt', hk'⟩ := hk'
  exact (hnodup.getElem_inj_iff).1 (hk.trans hk'.symm)

theorem kinds_ofGrammar (g : Grammar) (k : Nat) : (ofGrammar g).kinds[k]? =
    ((concreteRules g)[k]?).map fun r => ⟨r.1.name, r.1.tag.dash, some r.2, r.1.shape.isTerm⟩ := by
  simp [ofGrammar, concreteRules]

/-- The kind of a rule is found by its name and by its number. -/
structure IsKind (g : Grammar) (id : RuleId) (rule : Rule) (kind : Kind) : Prop where
  byName : (ofGrammar g).kind? rule.name = some kind
  byRule : (ofGrammar g).kindOfRule? id = some kind
  info : (ofGrammar g).kinds[kind]? =
    some ⟨rule.name, rule.tag.dash, some id, rule.shape.isTerm⟩

end Schema

/-- No two rules share a name. -/
def Grammar.Distinct (g : Grammar) : Prop :=
  ∀ {id id' : RuleId} {rule rule' : Rule}, g.rule? id = some rule → g.rule? id' = some rule' →
    rule.name = rule'.name → id = id'

theorem Grammar.distinct_of_nodup {g : Grammar} (h : (g.rules.toList.map Rule.name).Nodup) :
    g.Distinct := by
  intro id id' rule rule' hrule hrule' hname
  have hget : ∀ {id : RuleId} {rule : Rule}, g.rule? id = some rule →
      (g.rules.toList.map Rule.name)[id]? = some rule.name := by
    intro id rule hrule
    rw [List.getElem?_map, Array.getElem?_toList]
    exact congrArg _ hrule
  obtain ⟨hlt, heq⟩ := List.getElem?_eq_some_iff.1 (hget hrule)
  obtain ⟨hlt', heq'⟩ := List.getElem?_eq_some_iff.1 (hget hrule')
  exact h.getElem_inj_iff.1 (heq.trans (hname.trans heq'.symm))

namespace Schema

variable {g : Grammar} {id : RuleId}

theorem exists_isKind (hg : g.Distinct) {rule : Rule} (hrule : g.rule? id = some rule)
    (hshape : rule.shape.isConcrete = true) : ∃ kind, IsKind g id rule kind := by
  obtain ⟨k, hk⟩ := List.mem_iff_getElem?.1 (mem_concreteRules.2 ⟨hrule, hshape⟩)
  have hinfo := kinds_ofGrammar g k
  rw [hk] at hinfo
  -- an entry of the same name or the same rule is the same entry
  have hplace : ∀ {k' : Nat} {info : KindInfo}, (ofGrammar g).kinds[k']? = some info →
      info.name = rule.name ∨ info.rule = some id → k' = k := by
    intro k' info hk' hsame
    rw [kinds_ofGrammar, Option.map_eq_some_iff] at hk'
    obtain ⟨⟨rule', id'⟩, hget, rfl⟩ := hk'
    have hrule' := (mem_concreteRules.1 (List.mem_of_getElem? hget)).1
    obtain rfl : id' = id := hsame.elim (hg hrule' hrule) Option.some.inj
    exact concreteRules_inj hget hk
  refine ⟨k, ?_, ?_, hinfo⟩
  · unfold kind?
    cases hfind : (ofGrammar g).kinds.toList.zipIdx.reverse.find? (·.1.name == rule.name) with
    | none =>
      have := List.find?_eq_none.1 hfind (_, k)
        (List.mem_reverse.2 (List.mk_mem_zipIdx_iff_getElem?.2 (by
          rw [Array.getElem?_toList]
          exact hinfo)))
      simp at this
    | some e =>
      have hname : e.1.name = rule.name := by simpa using List.find?_some hfind
      have hget := List.mem_reverse.1 (List.mem_of_find?_eq_some hfind)
      rw [show e = (e.1, e.2) from rfl, List.mk_mem_zipIdx_iff_getElem?, Array.getElem?_toList]
        at hget
      rw [Option.map_some, hplace hget (.inl hname)]
  · unfold kindOfRule?
    rw [List.findIdx?_eq_some_iff_getElem]
    obtain ⟨hlt, hget⟩ := Array.getElem?_eq_some_iff.1 hinfo
    refine ⟨by simpa using hlt, by rw [Array.getElem_toList, hget]; simp, fun j hj hsame => ?_⟩
    have hjlt : j < (ofGrammar g).kinds.size := Nat.lt_trans hj hlt
    rw [Array.getElem_toList, decide_eq_true_eq] at hsame
    have := hplace (Array.getElem?_eq_getElem hjlt) (.inr hsame)
    omega

theorem IsKind.nameOf {rule : Rule} {kind : Kind} (h : IsKind g id rule kind) :
    (ofGrammar g).nameOf kind = rule.name := by
  simp [Schema.nameOf, h.info]

/-- A kind that was found by its rule is of this rule. -/
theorem exists_info_of_kindOfRule? {s : Schema} {kind : Kind} (h : s.kindOfRule? id = some kind) :
    ∃ info, s.kinds[kind]? = some info ∧ info.rule = some id := by
  rw [kindOfRule?, List.findIdx?_eq_some_iff_getElem] at h
  obtain ⟨hlt, hsame, -⟩ := h
  refine ⟨_, ?_, of_decide_eq_true hsame⟩
  rw [← Array.getElem?_toList, List.getElem?_eq_getElem hlt]

/-- No other rule has the kind. -/
theorem IsKind.eq_of_kindOfRule? {rule : Rule} {kind : Kind} {r : RuleId}
    (h : IsKind g id rule kind) (hr : (ofGrammar g).kindOfRule? r = some kind) : r = id := by
  obtain ⟨info, hget, hsame⟩ := exists_info_of_kindOfRule? hr
  rw [h.info, Option.some.injEq] at hget
  rw [← hget, Option.some.injEq] at hsame
  exact hsame.symm

/-- A node of the kind of a rule is a value of the rule. -/
theorem IsKind.isValue {rule : Rule} {kind : Kind} (h : IsKind g id rule kind)
    (hrule : g.rule? id = some rule) (hshape : rule.shape.isConcrete = true) {n : Node}
    (hn : n.kind? = some kind) : (ofGrammar g).isValue g n id = true := by
  refine isValue_of_accepts ?_
  have hshape' : g.shape? id = some rule.shape := by simp [Grammar.shape?, hrule]
  unfold accepts
  rw [hshape']
  cases hr : rule.shape <;> simp_all [Shape.isConcrete, h.byRule]

end Schema

/-! ## Values of bits -/

namespace Grammar

variable {g : Grammar} {symbols : SymbolMap} {afterAbsent : Bool} {id : RuleId}

/-- A value of the rule behind a bit is a value of the bit. -/
theorem Reads.isValue {s : Schema} {r : Option Symbol} {n : Node}
    (h : Reads g symbols afterAbsent id r) (hnone : r = none → n = .nothing)
    (hsome : ∀ x y, r = some x → symbols.lookup y = some x → s.isValue g n y = true) :
    s.isValue g n id = true := by
  have hself : ∀ {id : RuleId}, g.isOptional id = true → n = .nothing →
      s.isValue g n id = true := by
    rintro id hopt rfl
    refine Schema.isValue_of_accepts ?_
    unfold isOptional at hopt
    unfold Schema.accepts
    split at hopt <;> simp_all [Node.isNothing]
  induction h with
  | rule _ _ hs => exact hsome _ _ rfl hs
  | aliasOf hshape _ ih =>
    exact Schema.isValue_of_offers hshape (List.mem_singleton_self _) (ih hnone hsome)
  | leftOut hshape => exact hself (by simp [isOptional, hshape]) (hnone rfl)
  | option hshape _ ih =>
    exact Schema.isValue_of_offers hshape (List.mem_singleton_self _) (ih hnone hsome)
  | absent hshape _ => exact hself (by simp [isOptional, hshape]) (hnone rfl)
  | dependent hshape _ _ ih =>
    exact Schema.isValue_of_offers hshape (List.mem_singleton_self _) (ih hnone hsome)

/-- What the start rule without aliases and options has as a value, it has itself. -/
theorem StripsTo.isValue {s : Schema} {y : RuleId} {n : Node} (h : g.StripsTo id y)
    (hn : s.isValue g n y = true) : s.isValue g n id = true := by
  induction h with
  | refl _ _ => exact hn
  | aliasOf hshape _ ih =>
    exact Schema.isValue_of_offers hshape (List.mem_singleton_self _) (ih hn)
  | option hshape _ ih =>
    exact Schema.isValue_of_offers hshape (List.mem_singleton_self _) (ih hn)

end Grammar

end LanguageWorkbench
