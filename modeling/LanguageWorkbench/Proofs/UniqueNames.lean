import LanguageWorkbench.Proofs.Naming

/-!
# When names are unique

Rules are found by their names, and so are the kinds of nodes. Of two rules in a loaded
grammar that share a name, one is for an alternative line with a tag and the other for an
element with a suffix: tags are checked against the declared names and against each other,
but not against suffixed elements.

Results:
* `Grammar.resolved_of_checkNames`: checked names are resolved.
* `Grammar.eq_or_tag_of_load`: the only rules of one name.
* `Grammar.lookup_name_iff_of_load`: names are unique exactly if no tag is the name of a rule
  for a suffix.
-/

namespace LanguageWorkbench

open Source

/-! ## Checked texts -/

namespace Source

theorem Element.not_isNumbered_visual {e : Element} (h : e.suffix.isSome = true) :
    ¬ IsNumbered e.visual := by
  obtain ⟨suffix, hsuffix⟩ := Option.isSome_iff_exists.1 h
  rintro ⟨c, hc, hdigit⟩
  have hlast : e.visual.toList.getLast? = some suffix.toChar := by
    simp [visual, hsuffix]
  rw [hlast] at hc
  cases hc
  cases suffix <;> revert hdigit <;> decide

/-- What is checked of the names that directives mention. -/
theorem checkNames_spec {s : Source} (h : checkNames s = .ok ()) : ∃ declared nodes,
    declareAll [] (declarations s) = .ok declared ∧
      checkBodies declared (declared.map Prod.fst) s.rules = .ok nodes ∧
      (declared.lookup s.start.name).isSome = true ∧ (∀ m ∈ s.collapse, m.name ∈ nodes) ∧
      ∀ d ∈ s.spacing, ∀ parent ∈ d.parents, parent ∈ nodes := by
  obtain ⟨declared, hdeclared, h⟩ := bind_eq_ok_iff.1 h
  obtain ⟨nodes, hnodes, h⟩ := bind_eq_ok_iff.1 h
  refine ⟨declared, nodes, hdeclared, hnodes, ?_⟩
  simp only [bind, Except.bind, pure, Except.pure, throw, throwThe, MonadExceptOf.throw] at h
  -- a list none of whose names is found to be unknown
  have hknown : ∀ {α : Type} {name : α → String} {l : List α},
      (∀ x, l.find? (fun m => !nodes.contains (name m)) ≠ some x) → ∀ m ∈ l, name m ∈ nodes := by
    intro α name l hnone m hm
    have hm' := List.find?_eq_none.1 (Option.eq_none_iff_forall_ne_some.2 hnone) m hm
    simpa using hm'
  split_ifs at h with hstart
  rw [Bool.not_eq_true, Option.isNone_eq_false_iff] at hstart
  refine ⟨hstart, ?_⟩
  split at h
  · cases h
  · rename_i hcollapse
    refine ⟨hknown hcollapse, ?_⟩
    split at h
    · cases h
    · rename_i hspacing
      refine forall_of_forIn (fun d step hstep => ?_) hspacing
      split at hstep
      · cases hstep
      · rename_i hparents
        cases hstep
        exact ⟨rfl, hknown hparents⟩

end Source

/-! ## Grammars with checked names -/

namespace Grammar

/-- What resolving checked names leaves. -/
structure Resolved (s : Source) (declared : Declared) (nodes : List String) (a : Arena) : Prop where
  bodies : (Arena.declare s).bodies s.terms.length s.rules = .ok a
  sound : a.Sound
  registered : a.Registered declared s.tags (Arena.declare s).rules.size nodes

/-- The bodies of a text whose names are checked are resolved. -/
theorem resolved_of_checkNames {s : Source}
    (hread : ∀ decl ∈ s.rules, ∀ line ∈ decl.body, line.Read) (h : checkNames s = .ok ()) :
    ∃ declared nodes a, declareAll [] (declarations s) = .ok declared ∧
      Resolved s declared nodes a ∧ (declared.lookup s.start.name).isSome = true ∧
        (∀ m ∈ s.collapse, m.name ∈ nodes) ∧ ∀ d ∈ s.spacing, ∀ parent ∈ d.parents, parent ∈ nodes := by
  obtain ⟨declared, nodes, hdeclared, hnodes, hstart, hcollapse, hspacing⟩ := checkNames_spec h
  obtain ⟨hsound, hplaces⟩ := Arena.sound_declare s
  have htags : ∀ decl ∈ s.rules, ∀ line ∈ decl.body,
      line.Read ∧ ∀ tag, line.tag = some tag → tag ∈ s.tags := by
    intro decl hdecl line hline
    refine ⟨hread decl hdecl line hline, fun tag htag => ?_⟩
    exact List.mem_flatMap.2 ⟨decl, hdecl, List.mem_filterMap.2 ⟨line, hline, htag⟩⟩
  obtain ⟨a, ha, hs, hr⟩ := (Arena.registered_declare hdeclared).bodies hsound htags
    (fun k decl hdecl => ⟨(Array.getElem?_eq_some_iff.1 (hplaces k decl hdecl)).1, _,
      hplaces k decl hdecl, rfl⟩) hnodes
  exact ⟨declared, nodes, a, hdeclared, ⟨ha, hs, hr⟩, hstart, hcollapse, hspacing⟩

variable {text : String} {g : Grammar}

/-- The arena of a grammar that was read. -/
theorem exists_resolved_of_read (h : read text = .ok g) : ∃ s declared nodes a,
    Source.parse text = .ok s ∧ declareAll [] (declarations s) = .ok declared ∧
      Resolved s declared nodes a ∧ g.rules = a.rules ∧ g.names = a.names ∧
        g.declared = (Arena.declare s).rules.size := by
  obtain ⟨s, hs, h⟩ := bind_eq_ok_iff.1 h
  obtain ⟨_, hnames, h⟩ := bind_eq_ok_iff.1 h
  rw [mapError_eq_ok_iff] at hs hnames h
  obtain ⟨declared, nodes, a, hdeclared, hresolved, -⟩ :=
    resolved_of_checkNames (Source.read_of_parse hs) hnames
  obtain ⟨a', ha', h⟩ := bind_eq_ok_iff.1 h
  obtain ⟨start, -, h⟩ := bind_eq_ok_iff.1 h
  obtain ⟨collapse, -, h⟩ := bind_eq_ok_iff.1 h
  obtain ⟨spacing, -, h⟩ := bind_eq_ok_iff.1 h
  cases h
  obtain rfl : a = a' := Except.ok.inj (hresolved.bodies.symm.trans ha')
  exact ⟨s, declared, nodes, a, hs, hdeclared, hresolved, rfl, rfl, rfl⟩

theorem getElem?_declaredRules (n : Nat) :
    g.declaredRules[n]? = if n < g.declared then (g.rule? n).map (·, n) else none := by
  rw [declaredRules, numbered, List.getElem?_take]
  split_ifs <;> simp [rule?, List.getElem?_zipIdx]

theorem mem_declaredRules {rule : Rule} {id : RuleId} :
    (rule, id) ∈ g.declaredRules ↔ id < g.declared ∧ g.rule? id = some rule := by
  rw [List.mem_iff_getElem?]
  simp only [getElem?_declaredRules]
  constructor
  · rintro ⟨n, hn⟩
    split_ifs at hn with hlt
    obtain ⟨r, hr, heq⟩ := Option.map_eq_some_iff.1 hn
    obtain ⟨rfl, rfl⟩ := Prod.mk.inj heq
    exact ⟨hlt, hr⟩
  · rintro ⟨hlt, hrule⟩
    exact ⟨id, by rw [if_pos hlt, hrule]; rfl⟩

theorem read_of_load (h : load text = .ok g) : read text = .ok g := by
  obtain ⟨g', hread, h⟩ := bind_eq_ok_iff.1 h
  obtain ⟨_, -, h⟩ := bind_eq_ok_iff.1 h
  cases h
  exact hread

end Grammar

namespace Arena

variable {declared : Declared} {tags : List String} {count : Nat} {nodes : List String} {a : Arena}
  {i j : RuleId} {r r' : Rule}

/-- Two rules for suffixes that share a name are one. -/
theorem Registered.suffixed_name_inj (h : a.Registered declared tags count nodes)
    {key key' : RuleId × Suffix} (hi : (key, i) ∈ a.suffixed) (hj : (key', j) ∈ a.suffixed)
    (hr : a.rules[i]? = some r) (hr' : a.rules[j]? = some r') (hname : r.name = r'.name) :
    i = j := by
  obtain ⟨-, hbase, _, ho, e, hproper, hsuffix, ⟨b, hb, hbname⟩, hvisual, -⟩ := h.suffixed hi
  obtain ⟨-, -, _, ho', e', hproper', hsuffix', ⟨b', hb', hbname'⟩, hvisual', -⟩ := h.suffixed hj
  obtain rfl := Option.some.inj (hr.symm.trans ho)
  obtain rfl := Option.some.inj (hr'.symm.trans ho')
  obtain ⟨hsame, hsuffixes⟩ := Element.visual_inj hproper hproper' hsuffix hsuffix'
    (hvisual.symm.trans (hname.trans hvisual'))
  have hbases : key.1 = key'.1 :=
    h.first_inj hbase hb hb' (hbname.trans (hsame.trans hbname'.symm))
  rw [show key' = key from Prod.ext hbases.symm hsuffixes.symm] at hj
  exact h.suffixed_inj hi hj

/-- Of two rules that share a name one is for a line with a tag, and the other is for a
    suffix. -/
theorem Registered.eq_or_tag (h : a.Registered declared tags count nodes)
    (hr : a.rules[i]? = some r) (hr' : a.rules[j]? = some r') (hname : r.name = r'.name) :
    i = j ∨ r.name ∈ tags ∧ (r.IsLine ∧ r'.IsSuffixed ∨ r'.IsLine ∧ r.IsSuffixed) := by
  have hsuffixed : ∀ {i : RuleId} {r : Rule} {key : RuleId × Suffix}, (key, i) ∈ a.suffixed →
      a.rules[i]? = some r → r.IsSuffixed ∧ ∃ e : Element, e.suffix.isSome = true ∧
        r.name = e.visual := by
    intro i r key hmem hr
    obtain ⟨-, -, _, ho, e, -, hsuffix, -, hvisual, child, hshape⟩ := h.suffixed hmem
    obtain rfl := Option.some.inj (hr.symm.trans ho)
    exact ⟨⟨child, key.2, hshape⟩, e, by rw [hsuffix]; rfl, hvisual⟩
  by_cases hi : i < count
  · exact .inl (h.first_inj hi hr hr' hname)
  · by_cases hj : j < count
    · exact .inl (h.first_inj hj hr' hr hname.symm).symm
    · have hadded := h.added (Nat.le_of_not_lt hi) hr
      have hadded' := h.added (Nat.le_of_not_lt hj) hr'
      -- a line without a tag has no name like that of a rule for a suffix
      have htag : ∀ {i : RuleId} {r : Rule} {e : Element}, a.rules[i]? = some r → r.IsLine →
          e.suffix.isSome = true → r.name = e.visual → r.name ∈ tags := by
        intro i r e hr hline he hvisual
        apply (h.line hr hline).2.2.resolve_right
        rw [hvisual]
        exact Element.not_isNumbered_visual he
      rcases hadded with hline | ⟨key, hkey⟩
      · rcases hadded' with hline' | ⟨key', hkey'⟩
        · exact .inl (h.line_inj hr hr' hline hline' hname)
        · obtain ⟨hr'', e, he, hvisual⟩ := hsuffixed hkey' hr'
          exact .inr ⟨htag hr hline he (hname.trans hvisual), .inl ⟨hline, hr''⟩⟩
      · rcases hadded' with hline' | ⟨key', hkey'⟩
        · obtain ⟨hr'', e, he, hvisual⟩ := hsuffixed hkey hr
          have hmem := htag hr' hline' he (hname.symm.trans hvisual)
          exact .inr ⟨hname ▸ hmem, .inr ⟨hline', hr''⟩⟩
        · exact .inl (h.suffixed_name_inj hkey hkey' hr hr' hname)

end Arena

/-! ## The main results -/

namespace Grammar

variable {text : String} {g : Grammar}

/-- Of two rules of a loaded grammar that share a name one is for a line with a tag, and the
    other is for a suffix. -/
theorem eq_or_tag_of_load (h : load text = .ok g) : ∃ s, Source.parse text = .ok s ∧
    ∀ i j r r', g.rule? i = some r → g.rule? j = some r' → r.name = r'.name →
      i = j ∨ r.name ∈ s.tags ∧ (r.IsLine ∧ r'.IsSuffixed ∨ r'.IsLine ∧ r.IsSuffixed) := by
  obtain ⟨s, declared, nodes, a, hs, -, hresolved, hrules, -, -⟩ :=
    exists_resolved_of_read (read_of_load h)
  refine ⟨s, hs, fun i j r r' hr hr' hname => ?_⟩
  rw [rule?, hrules] at hr hr'
  exact hresolved.registered.eq_or_tag hr hr' hname

/-- Every rule can be looked up, perhaps under the number of another rule of its name. -/
theorem exists_lookup_of_load (h : load text = .ok g) {id : RuleId} {r : Rule}
    (hr : g.rule? id = some r) : ∃ id' r', g.lookup r.name = some id' ∧
      g.rule? id' = some r' ∧ r'.name = r.name := by
  obtain ⟨s, declared, nodes, a, -, -, hresolved, hrules, hnames, -⟩ :=
    exists_resolved_of_read (read_of_load h)
  rw [rule?, hrules] at hr
  obtain ⟨id', hlookup⟩ := Option.isSome_iff_exists.1 (hresolved.registered.listed hr)
  rw [← hnames] at hlookup
  obtain ⟨r', hr', hname⟩ := (sound_of_load h).named hlookup
  exact ⟨id', r', hlookup, hr', hname⟩

/-- In a loaded grammar the name of every rule leads to the rule, and the name of every kind
    to the kind, exactly if no line with a tag shares its name with a rule for a suffix. -/
theorem lookup_name_iff_of_load (h : load text = .ok g) : ∃ s, Source.parse text = .ok s ∧
    ((∀ i j r r', g.rule? i = some r → g.rule? j = some r' → r.IsLine → r.name ∈ s.tags →
        r'.IsSuffixed → r.name ≠ r'.name) ↔
      (∀ id r, g.rule? id = some r → g.lookup r.name = some id) ∧
        ∀ k info, (Schema.ofGrammar g).kinds[k]? = some info →
          (Schema.ofGrammar g).kind? info.name = some k) := by
  obtain ⟨s, hs, hclash⟩ := eq_or_tag_of_load h
  refine ⟨s, hs, ?_, ?_⟩
  · intro hno
    have hdistinct : g.Distinct := by
      intro i j r r' hr hr' hname
      rcases hclash i j r r' hr hr' hname with heq | ⟨htag, ⟨hline, hsuffixed⟩ | ⟨hline, hsuffixed⟩⟩
      · exact heq
      · exact absurd hname (hno i j r r' hr hr' hline htag hsuffixed)
      · exact absurd hname.symm (hno j i r' r hr' hr hline (hname ▸ htag) hsuffixed)
    constructor
    · intro id r hr
      obtain ⟨id', r', hlookup, hr', hname⟩ := exists_lookup_of_load h hr
      rw [hlookup, hdistinct hr' hr hname]
    · intro k info hinfo
      rw [Schema.kinds_ofGrammar, Option.map_eq_some_iff] at hinfo
      obtain ⟨⟨r, id⟩, hget, rfl⟩ := hinfo
      obtain ⟨hr, hconcrete⟩ := Schema.mem_concreteRules.1 (List.mem_of_getElem? hget)
      obtain ⟨kind, hkind⟩ := Schema.exists_isKind hdistinct hr hconcrete
      have hinfo := hkind.info
      rw [Schema.kinds_ofGrammar, Option.map_eq_some_iff] at hinfo
      obtain ⟨⟨r', id'⟩, hget', hsame⟩ := hinfo
      obtain rfl : id' = id := by
        have hrule := congrArg KindInfo.rule hsame
        exact Option.some.inj hrule
      rw [hkind.byName, Schema.concreteRules_inj hget' hget]
  -- one name leads to one rule, which cannot be a line and a rule for a suffix
  · rintro ⟨hlookup, -⟩ i j r r' hr hr' hline - hsuffixed hname
    have hi := hlookup i r hr
    rw [hname, hlookup j r' hr'] at hi
    rw [Option.some.inj hi, hr] at hr'
    rw [Option.some.inj hr'] at hline
    exact hsuffixed.not_isLine hline

/-- A grammar with a tag and a list. -/
def retagged : String :=
  "language retagged\nkeyword x\nkeyword y\nstart s\ns:\n    y x #pair\n    x+ y\n"

theorem lookup_name_of_load_retagged : ∃ g, load retagged = .ok g ∧
    (∀ id r, g.rule? id = some r → g.lookup r.name = some id) ∧
      ∀ k info, (Schema.ofGrammar g).kinds[k]? = some info →
        (Schema.ofGrammar g).kind? info.name = some k := by
  have hok : ((load retagged).toOption.any fun g =>
      decide (g.rules.toList.map Rule.name).Nodup) = true := by
    decide +kernel
  obtain ⟨g, hg, hnodup⟩ := any_toOption_iff.1 hok
  have hdistinct : g.Distinct := distinct_of_nodup (of_decide_eq_true hnodup)
  obtain ⟨s, -, hiff⟩ := lookup_name_iff_of_load hg
  refine ⟨g, hg, hiff.1 fun i j r r' hr hr' hline _ hsuffixed hname => ?_⟩
  obtain rfl := hdistinct hr hr' hname
  obtain rfl := Option.some.inj (hr.symm.trans hr')
  exact hsuffixed.not_isLine hline

/-- A grammar in which a tag reads like a list. -/
def tagged : String :=
  "language tagged\nkeyword x\nkeyword y\nstart s\ns:\n    y x #x+\n    x+ y\n"

/-- The tag and the list are two rules and two kinds of one name, and the name leads to one
    of them only. -/
theorem exists_lookup_ne_tagged : ∃ g, load tagged = .ok g ∧
    (∃ id r, g.rule? id = some r ∧ g.lookup r.name ≠ some id) ∧
      ∃ k info, (Schema.ofGrammar g).kinds[k]? = some info ∧
        (Schema.ofGrammar g).kind? info.name ≠ some k := by
  have hok : ((load tagged).toOption.map fun g =>
      ((g.rule? 4).map fun r => g.lookup r.name,
        ((Schema.ofGrammar g).kinds[2]?).map fun info => (Schema.ofGrammar g).kind? info.name)) =
      some (some (some 3), some (some 3)) := by
    decide +kernel
  cases hg : load tagged with
  | error f =>
    rw [hg] at hok
    cases hok
  | ok g =>
    rw [hg] at hok
    obtain ⟨hrule, hkind⟩ := Prod.mk.inj (Option.some.inj hok)
    obtain ⟨r, hr, hlookup⟩ := Option.map_eq_some_iff.1 hrule
    obtain ⟨info, hinfo, hname⟩ := Option.map_eq_some_iff.1 hkind
    refine ⟨g, rfl, ⟨4, r, hr, ?_⟩, 2, info, hinfo, ?_⟩
    · rw [hlookup]
      decide
    · rw [hname]
      decide

end Grammar

end LanguageWorkbench
