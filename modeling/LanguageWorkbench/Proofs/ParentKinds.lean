import LanguageWorkbench.Proofs.Collapsing
import LanguageWorkbench.Proofs.Membership
import LanguageWorkbench.Proofs.Spacing

/-!
# Parents and values

What a rule stands for as a parent is found by a walk along alias and alternative links that
visits no rule twice. Which nodes are values of a rule is asked along paths that forget a rule
when they turn back from it. Whatever circles the links run in, the nodes of the kinds that the
walk finds are values of the rule, and where the links end in terms and sequences there are no
other values.

Results:
* `Schema.Holds.of_leads`: a rule has the values of every rule that it stands for.
* `Schema.Holds.exists_leads`: a value comes from a rule that its rule stands for.
* `Schema.is_iff_mem_concreteKinds_of_load`: parents and values of a loaded grammar.
-/

namespace LanguageWorkbench

/-- Whether a rule of this shape is a term or a sequence, or only stands for other rules. -/
def Shape.isPlain : Shape → Bool
  | .term .. | .sequence .. | .aliasOf _ | .alternative _ => true
  | .option _ | .dependent _ | .plus _ | .separator _ | .delimiter _ => false

/-- Alias and alternative links lead from a rule only to terms and sequences. -/
def Grammar.LeadsPlainly (g : Grammar) (id : RuleId) : Prop :=
  ∀ r, g.Leads id r → ∀ shape ∈ g.shape? r, shape.isPlain = true

instance (g : Grammar) (id : RuleId) : Decidable (g.LeadsPlainly id) :=
  decidable_of_iff
    (∀ r ∈ reachable (Schema.standsForOf g) g.size id, ∀ shape ∈ g.shape? r, shape.isPlain = true)
    (forall_congr' fun _ => imp_congr_left Schema.mem_reachable_standsForOf_iff)

namespace Schema

variable {text : String} {g : Grammar} {n : Node} {id r : RuleId} {rule : Rule} {k : Kind}

/-! ## Kinds of rules -/

theorem kindOfRule?_inj {s : Schema} (h : s.kindOfRule? id = some k)
    (h' : s.kindOfRule? r = some k) : id = r := by
  obtain ⟨info, hinfo, hid⟩ := exists_info_of_kindOfRule? h
  obtain ⟨info', hinfo', hr⟩ := exists_info_of_kindOfRule? h'
  obtain rfl := Option.some.inj (hinfo.symm.trans hinfo')
  exact Option.some.inj (hid.symm.trans hr)

/-- A rule with a kind has nodes of its own. -/
theorem exists_concrete_of_kindOfRule? (h : (ofGrammar g).kindOfRule? id = some k) :
    ∃ shape, g.shape? id = some shape ∧ shape.isConcrete = true := by
  obtain ⟨info, hinfo, hid⟩ := exists_info_of_kindOfRule? h
  rw [kinds_ofGrammar, Option.map_eq_some_iff] at hinfo
  obtain ⟨⟨rule, id'⟩, hget, rfl⟩ := hinfo
  obtain rfl := Option.some.inj hid
  obtain ⟨hrule, hconcrete⟩ := mem_concreteRules.1 (List.mem_of_getElem? hget)
  exact ⟨rule.shape, by rw [Grammar.shape?, hrule]; rfl, hconcrete⟩

/-- The nodes of the kind of a rule are values of the rule. -/
theorem holds_of_kind (h : (ofGrammar g).kindOfRule? id = some k) (hn : n.kind? = some k) :
    Holds g n id := by
  obtain ⟨shape, hshape, hconcrete⟩ := exists_concrete_of_kindOfRule? h
  cases shape with
  | term kind pattern => exact .term hshape hn h
  | sequence bits anonymous => exact .sequence hshape hn h
  | plus child => exact .list hshape hn h
  | _ => cases hconcrete

/-! ## Links and values -/

/-- A rule has the values of every rule that it stands for as a parent. -/
theorem Holds.of_leads (h : g.Leads id r) (hr : Holds g n r) : Holds g n id := by
  induction h with
  | refl _ => exact hr
  | aliasOf hshape _ ih => exact .behind (.inl hshape) (ih hr)
  | alternative hshape hbit _ ih => exact .branch hshape hbit (ih hr)

/-- Where the links end in terms and sequences, a value is a node of the kind of a rule that
    its rule stands for. -/
theorem Holds.exists_leads (h : Holds g n id) (hplain : g.LeadsPlainly id) :
    ∃ r k, g.Leads id r ∧ (ofGrammar g).kindOfRule? r = some k ∧ n.kind? = some k := by
  have hself : ∀ {id shape}, g.LeadsPlainly id → g.shape? id = some shape →
      shape.isPlain = true := fun hplain hshape => hplain _ (.refl _) _ hshape
  induction h with
  | term _ hn hk => exact ⟨_, _, .refl _, hk, hn⟩
  | sequence _ hn hk => exact ⟨_, _, .refl _, hk, hn⟩
  | list hshape => cases hself hplain hshape
  | element hshape => cases hself hplain hshape
  | absent hshape => rcases hshape with hshape | hshape | hshape <;> cases hself hplain hshape
  | present hshape => rcases hshape with hshape | hshape | hshape <;> cases hself hplain hshape
  | behind hshape _ ih =>
    rcases hshape with hshape | hshape
    · obtain ⟨r, k, hleads, hk⟩ := ih fun r hr => hplain r (.aliasOf hshape hr)
      exact ⟨r, k, .aliasOf hshape hleads, hk⟩
    · cases hself hplain hshape
  | branch hshape hbit _ ih =>
    obtain ⟨r, k, hleads, hk⟩ := ih fun r hr => hplain r (.alternative hshape hbit hr)
    exact ⟨r, k, .alternative hshape hbit hleads, hk⟩

/-! ## The main result -/

/-- In a loaded grammar without rules that share a name, the walk that looks for the kinds that a
    rule stands for as a parent ends. It finds each kind once, and the nodes of these kinds are
    values of the rule. Where alias and alternative links lead only to terms and sequences, the
    rule has no other values. -/
theorem is_iff_mem_concreteKinds_of_load (hload : Grammar.load text = .ok g) (hd : g.Distinct)
    (hrule : g.rule? id = some rule) :
    (g.LeadsPlainly id → ∀ n : Node, (ofGrammar g).is n rule.name = true ↔
      ∃ k ∈ (ofGrammar g).concreteKinds rule.name, n.kind? = some k) ∧
      (∃ visited, Walks (standsForOf g) [id] [] visited ∧
        (ofGrammar g).concreteKinds rule.name =
          visited.reverse.filterMap (ofGrammar g).kindOfRule?) ∧
      ((ofGrammar g).concreteKinds rule.name).Nodup ∧
      ∀ k ∈ (ofGrammar g).concreteKinds rule.name, ∀ n : Node, n.kind? = some k →
        (ofGrammar g).is n rule.name = true := by
  obtain ⟨id', rule', hlookup, hrule', hname⟩ := Grammar.exists_lookup_of_load hload hrule
  obtain rfl := hd hrule' hrule hname
  have his : ∀ n, (ofGrammar g).is n rule.name = true ↔ Holds g n id' := by
    intro n
    rw [is_name_eq hload hd hrule, isValue_iff_holds]
  have hwalks := walks_visit (fun _ => lt_size_of_standsForOf (g := g)) id'
  have hsound : ∀ k ∈ (ofGrammar g).concreteKinds rule.name, ∀ n : Node, n.kind? = some k →
      (ofGrammar g).is n rule.name = true := by
    intro k hk n hn
    obtain ⟨r, hleads, hr⟩ := (mem_concreteKinds_iff hlookup).1 hk
    exact (his n).2 (.of_leads hleads (holds_of_kind hr hn))
  refine ⟨fun hplain n => ⟨fun h => ?_, fun ⟨k, hk, hn⟩ => hsound k hk n hn⟩,
    ⟨_, hwalks, concreteKinds_eq hlookup⟩, ?_, hsound⟩
  · obtain ⟨r, k, hleads, hr, hn⟩ := ((his n).1 h).exists_leads hplain
    exact ⟨k, (mem_concreteKinds_iff hlookup).2 ⟨r, hleads, hr⟩, hn⟩
  · rw [concreteKinds_eq hlookup]
    refine List.Nodup.filterMap (fun a b k ha hb => kindOfRule?_inj ha hb) ?_
    exact List.nodup_reverse.2 (hwalks.nodup List.nodup_nil)

/-- A grammar of three alternatives, each a branch of another, and a line with an option. -/
def meshed : String :=
  "language meshed\nkeyword x\nkeyword y\nstart s\ns:\n    a\n    b\n    x? y #pair\na:\n" ++
    "    b\n    y\nb:\n    s\n    a\n    x\n"

/-- From the third alternative the walk comes to the circle first. The rule has the leaves and
    the trees of the whole circle as values, and no others. -/
theorem is_iff_of_load_meshed : ∃ g rule, Grammar.load meshed = .ok g ∧ g.Distinct ∧
    g.rule? 4 = some rule ∧ rule.name = "b" ∧ g.LeadsPlainly 4 ∧
      (∃ visited, Walks (standsForOf g) [4] [] visited ∧
        visited.reverse.filterMap (ofGrammar g).kindOfRule? = [1, 2, 0]) ∧
      ∀ n : Node, (ofGrammar g).is n "b" = true ↔ ∃ k ∈ [1, 2, 0], n.kind? = some k := by
  have hok : ((Grammar.load meshed).toOption.any fun g =>
      decide ((g.rules.toList.map Rule.name).Nodup ∧ g.LeadsPlainly 4 ∧
        (g.rule? 4).map Rule.name = some "b" ∧
        (ofGrammar g).concreteKinds "b" = [1, 2, 0])) = true := by
    decide +kernel
  obtain ⟨g, hg, hdecide⟩ := any_toOption_iff.1 hok
  obtain ⟨hnodup, hplain, hname, hkinds⟩ := of_decide_eq_true hdecide
  obtain ⟨rule, hrule, hname⟩ := Option.map_eq_some_iff.1 hname
  have hd : g.Distinct := Grammar.distinct_of_nodup hnodup
  obtain ⟨hiff, ⟨visited, hwalks, hfound⟩, -⟩ := is_iff_mem_concreteKinds_of_load hg hd hrule
  rw [hname, hkinds] at hfound hiff
  exact ⟨g, rule, hg, hd, hrule, hname, hplain, ⟨visited, hwalks, hfound.symm⟩, hiff hplain⟩

end Schema

end LanguageWorkbench
