import LanguageWorkbench.Policy
import LanguageWorkbench.Proofs.UniqueNames

/-!
# What spacing directives do to a policy

A spacing directive may name parents. Each parent stands for the kinds to which alias and
alternative links lead from its rule, and the policy gets an entry for each of these kinds.
Whether glue holds everywhere is decided after that, by the kinds and not by the names: a
directive whose parents stand for no kind at all holds everywhere, as one without parents
does.

Results:
* `Grammar.Leads`: alias and alternative links.
* `Schema.mem_concreteKinds_iff`: the kinds that a rule stands for as a parent.
* `Policy.mem_entries_iff_of_load`: every entry of the policy of a loaded grammar.
* `Policy.glued_of_kindless_parent`: a directive with a parent that holds everywhere.
-/

namespace LanguageWorkbench

/-! ## Parents -/

/-- `Leads g id r`: alias and alternative links alone lead from the rule `id` to `r`. -/
inductive Grammar.Leads (g : Grammar) : RuleId → RuleId → Prop
  | refl (id : RuleId) : Leads g id id
  | aliasOf {id child r : RuleId} (hshape : g.shape? id = some (.aliasOf child))
    (h : Leads g child r) : Leads g id r
  | alternative {id bit r : RuleId} {bits : List RuleId}
    (hshape : g.shape? id = some (.alternative bits)) (hbit : bit ∈ bits) (h : Leads g bit r) :
    Leads g id r

namespace Schema

variable {g : Grammar} {id r child : RuleId}

/-- The rules that a rule stands for as a parent, by one link. -/
def standsForOf (g : Grammar) (id : RuleId) : List RuleId := ((g.shape? id).map standsFor).getD []

theorem mem_standsForOf_iff : child ∈ standsForOf g id ↔
    g.shape? id = some (.aliasOf child) ∨
      ∃ bits, g.shape? id = some (.alternative bits) ∧ child ∈ bits := by
  cases hshape : g.shape? id with
  | none => simp [standsForOf, hshape]
  | some shape => cases shape <;> simp [standsForOf, hshape, standsFor, eq_comm]

theorem linked_standsForOf_iff : Linked (standsForOf g) id r ↔ g.Leads id r := by
  constructor
  · intro h
    induction h using Relation.ReflTransGen.head_induction_on with
    | refl => exact .refl r
    | head hlink _ ih =>
      rcases mem_standsForOf_iff.1 hlink with hshape | ⟨bits, hshape, hbit⟩
      · exact .aliasOf hshape ih
      · exact .alternative hshape hbit ih
  · intro h
    induction h with
    | refl => exact .refl
    | aliasOf hshape _ ih => exact .head (mem_standsForOf_iff.2 (.inl hshape)) ih
    | alternative hshape hbit _ ih =>
      exact .head (mem_standsForOf_iff.2 (.inr ⟨_, hshape, hbit⟩)) ih

theorem lt_size_of_standsForOf (h : standsForOf g id ≠ []) : id < g.size := by
  cases hshape : g.shape? id with
  | none => simp [standsForOf, hshape] at h
  | some shape =>
    obtain ⟨rule, hrule, -⟩ := Option.map_eq_some_iff.1 hshape
    exact (Array.getElem?_eq_some_iff.1 hrule).1

theorem concreteKinds_eq {name : String} (hname : g.lookup name = some id) :
    (ofGrammar g).concreteKinds name =
      (reachable (standsForOf g) g.size id).filterMap (ofGrammar g).kindOfRule? := by
  simp only [concreteKinds, ofGrammar, hname]
  rfl

theorem mem_reachable_standsForOf_iff :
    r ∈ reachable (standsForOf g) g.size id ↔ g.Leads id r := by
  rw [mem_reachable_iff fun _ => lt_size_of_standsForOf, linked_standsForOf_iff]

/-- The kinds that a rule stands for as a parent. -/
theorem mem_concreteKinds_iff {name : String} {k : Kind} (hname : g.lookup name = some id) :
    k ∈ (ofGrammar g).concreteKinds name ↔
      ∃ r, g.Leads id r ∧ (ofGrammar g).kindOfRule? r = some k := by
  rw [concreteKinds_eq hname, List.mem_filterMap]
  exact exists_congr fun r => and_congr_left fun _ => mem_reachable_standsForOf_iff

/-- A kind whose rule alias and alternative links reach from the rule with a name. -/
def IsParentKind (g : Grammar) (name : String) (k : Kind) : Prop :=
  ∃ id r, g.lookup name = some id ∧ g.Leads id r ∧ (ofGrammar g).kindOfRule? r = some k

end Schema

/-! ## Directives of a text -/

namespace Grammar

variable {text : String} {g : Grammar}

/-- A directive with its parents looked up. -/
structure Resolves (g : Grammar) (d : Source.SpacingDecl) (spacing : Spacing) : Prop where
  kind : spacing.kind = d.kind
  text : spacing.text = d.text
  parents : List.Forall₂ (fun name id => g.lookup name = some id) d.parents spacing.parents

/-- The spacing directives of a grammar are those of its text. -/
theorem spacing_of_read (h : read text = .ok g) : ∃ s, Source.parse text = .ok s ∧
    List.Forall₂ (Resolves g) s.spacing g.spacing := by
  obtain ⟨s, hs, h⟩ := bind_eq_ok_iff.1 h
  obtain ⟨_, -, h⟩ := bind_eq_ok_iff.1 h
  rw [mapError_eq_ok_iff] at hs h
  obtain ⟨a, -, h⟩ := bind_eq_ok_iff.1 h
  obtain ⟨start, -, h⟩ := bind_eq_ok_iff.1 h
  obtain ⟨collapse, -, h⟩ := bind_eq_ok_iff.1 h
  obtain ⟨spacing, hspacing, h⟩ := bind_eq_ok_iff.1 h
  cases h
  refine ⟨s, hs, (mapM_eq_ok_iff.1 hspacing).imp fun d spacing hd => ?_⟩
  obtain ⟨parents, hparents, hd⟩ := bind_eq_ok_iff.1 hd
  cases hd
  refine ⟨rfl, rfl, (mapM_eq_ok_iff.1 hparents).imp fun name id hid => ?_⟩
  show a.names.lookup name = some id
  unfold Arena.find at hid
  split at hid
  · cases hid
    assumption
  · cases hid

end Grammar

/-! ## Entries -/

namespace Policy

variable {p : Policy} {kind kind' : SpacingKind} {word word' : String} {parent : Option Kind}
  {parents : List Kind}

/-- The entries of a sort: a text and a kind of trees, or no kind for an entry that holds
    everywhere. -/
def entries (p : Policy) : SpacingKind → List (String × Option Kind)
  | .glueBefore => p.glueBefore
  | .glueAfter => p.glueAfter
  | .flat => p.flat.map fun e => (e.1, some e.2)

/-- The entries that a directive asks for, by the kinds of its parents. -/
def Gives (kind : SpacingKind) (parents : List Kind) : Option Kind → Prop
  | some k => k ∈ parents
  | none => kind ≠ .flat ∧ parents = []

/-- Entries that are added one after the other, each by `add`. -/
theorem mem_entries_foldl {add : Policy → Kind → Policy}
    (hadd : ∀ p k, (word, parent) ∈ (add p k).entries kind ↔
      (word, parent) ∈ p.entries kind ∨ kind' = kind ∧ word' = word ∧ parent = some k) :
    (word, parent) ∈ (parents.foldl add p).entries kind ↔ (word, parent) ∈ p.entries kind ∨
      kind' = kind ∧ word' = word ∧ ∃ k ∈ parents, parent = some k := by
  induction parents generalizing p with
  | nil => simp
  | cons k parents ih =>
    rw [List.foldl_cons, ih, hadd]
    constructor
    · rintro ((h | ⟨hkind, hword, rfl⟩) | ⟨hkind, hword, k', hk', rfl⟩)
      · exact .inl h
      · exact .inr ⟨hkind, hword, k, List.mem_cons_self, rfl⟩
      · exact .inr ⟨hkind, hword, k', List.mem_cons_of_mem k hk', rfl⟩
    · rintro (h | ⟨hkind, hword, k', hk', rfl⟩)
      · exact .inl (.inl h)
      · rcases List.mem_cons.1 hk' with rfl | hk'
        · exact .inl (.inr ⟨hkind, hword, rfl⟩)
        · exact .inr ⟨hkind, hword, k', hk', rfl⟩

theorem mem_entries_addGlueBefore {o : Option Kind} :
    (word, parent) ∈ (p.addGlueBefore word' o).entries kind ↔ (word, parent) ∈ p.entries kind ∨
      SpacingKind.glueBefore = kind ∧ word' = word ∧ parent = o := by
  cases kind <;> simp [addGlueBefore, entries, or_comm, eq_comm]

theorem mem_entries_addGlueAfter {o : Option Kind} :
    (word, parent) ∈ (p.addGlueAfter word' o).entries kind ↔ (word, parent) ∈ p.entries kind ∨
      SpacingKind.glueAfter = kind ∧ word' = word ∧ parent = o := by
  cases kind <;> simp [addGlueAfter, entries, or_comm, eq_comm]

theorem mem_entries_addFlat {k : Kind} :
    (word, parent) ∈ (p.addFlat word' k).entries kind ↔ (word, parent) ∈ p.entries kind ∨
      SpacingKind.flat = kind ∧ word' = word ∧ parent = some k := by
  cases kind <;> simp [addFlat, entries, or_comm, eq_comm]

/-- A directive adds an entry for each kind of its parents, and one that holds everywhere if
    it is about glue and there are none. -/
theorem mem_entries_addSpacing : (word, parent) ∈ (p.addSpacing kind' word' parents).entries kind ↔
    (word, parent) ∈ p.entries kind ∨ kind' = kind ∧ word' = word ∧ Gives kind' parents parent := by
  cases kind' with
  | flat =>
    show (word, parent) ∈ (parents.foldl _ p).entries kind ↔ _
    rw [mem_entries_foldl fun p k => mem_entries_addFlat]
    cases parent <;> simp [Gives]
  | glueBefore =>
    by_cases hnil : parents = []
    · subst hnil
      rw [show p.addSpacing .glueBefore word' [] = p.addGlueBefore word' none from rfl,
        mem_entries_addGlueBefore]
      cases parent <;> simp [Gives]
    · unfold addSpacing
      rw [if_neg (by simpa using hnil)]
      rw [mem_entries_foldl fun p k => mem_entries_addGlueBefore]
      cases parent <;> simp [Gives, hnil]
  | glueAfter =>
    by_cases hnil : parents = []
    · subst hnil
      rw [show p.addSpacing .glueAfter word' [] = p.addGlueAfter word' none from rfl,
        mem_entries_addGlueAfter]
      cases parent <;> simp [Gives]
    · show (word, parent) ∈ (if parents.isEmpty then _ else _ : Policy).entries kind ↔ _
      rw [if_neg (by simpa using hnil), mem_entries_foldl fun p k => mem_entries_addGlueAfter]
      cases parent <;> simp [Gives, hnil]

theorem mem_entries_foldl_addSpacing {directives : List Spacing} {kinds : Spacing → List Kind} :
    (word, parent) ∈ (directives.foldl (fun p d => p.addSpacing d.kind d.text (kinds d)) p).entries
        kind ↔
      (word, parent) ∈ p.entries kind ∨
        ∃ d ∈ directives, d.kind = kind ∧ d.text = word ∧ Gives d.kind (kinds d) parent := by
  induction directives generalizing p with
  | nil => simp
  | cons d directives ih => rw [List.foldl_cons, ih, mem_entries_addSpacing]; simp [or_assoc]

variable {text : String} {g : Grammar}

/-- The kinds of a directive's parents, each found by its name. -/
theorem mem_flatMap_concreteKinds_iff (hload : Grammar.load text = .ok g) (hd : g.Distinct)
    {d : Source.SpacingDecl} {spacing : Spacing} (h : g.Resolves d spacing) {k : Kind} :
    k ∈ (spacing.parents.flatMap fun id => (Schema.ofGrammar g).concreteKinds (g.nameOf id)) ↔
      ∃ name ∈ d.parents, Schema.IsParentKind g name k := by
  have hback : ∀ {name id}, g.lookup name = some id → g.lookup (g.nameOf id) = some id := by
    intro name id hname
    obtain ⟨r, hr, -⟩ := (Grammar.sound_of_load hload).named hname
    obtain ⟨id', r', hlookup, hr', hsame⟩ := Grammar.exists_lookup_of_load hload hr
    have hnameOf : g.nameOf id = r.name := by rw [Grammar.nameOf, hr]; rfl
    rw [hnameOf, hlookup, hd hr' hr hsame]
  rw [List.mem_flatMap]
  constructor
  · rintro ⟨id, hid, hk⟩
    obtain ⟨name, hmem, hname⟩ := exists_of_forall₂ h.parents.flip hid
    obtain ⟨r, hleads, hkind⟩ := (Schema.mem_concreteKinds_iff (hback hname)).1 hk
    exact ⟨name, hmem, id, r, hname, hleads, hkind⟩
  · rintro ⟨name, hmem, id, r, hname, hleads, hkind⟩
    obtain ⟨id', hid', hname'⟩ := exists_of_forall₂ h.parents hmem
    obtain rfl := Option.some.inj (hname.symm.trans hname')
    exact ⟨id, hid', (Schema.mem_concreteKinds_iff (hback hname)).2 ⟨r, hleads, hkind⟩⟩

/-- What a directive gives, by the names of its parents. -/
theorem gives_iff (hload : Grammar.load text = .ok g) (hd : g.Distinct) {d : Source.SpacingDecl}
    {spacing : Spacing} (h : g.Resolves d spacing) (parent : Option Kind) :
    Gives spacing.kind (spacing.parents.flatMap fun id =>
        (Schema.ofGrammar g).concreteKinds (g.nameOf id)) parent ↔
      match parent with
      | some k => ∃ name ∈ d.parents, Schema.IsParentKind g name k
      | none => d.kind ≠ .flat ∧
          ∀ name ∈ d.parents, ∀ k, ¬ Schema.IsParentKind g name k := by
  have hkinds := fun k => mem_flatMap_concreteKinds_iff hload hd h (k := k)
  cases parent with
  | some k => exact hkinds k
  | none =>
    show _ ∧ _ = [] ↔ _
    rw [h.kind, List.eq_nil_iff_forall_not_mem]
    simp only [hkinds, not_exists, not_and]
    exact and_congr_right fun _ => ⟨fun h name hmem k => h k name hmem,
      fun h k name hmem => h name hmem k⟩

/-- Beyond the default entries a policy has an entry for a text and a kind exactly if some
    directive for the text lists a parent that stands for the kind, and one that holds
    everywhere exactly if no parent of some directive about glue stands for a kind. -/
theorem mem_entries_iff_of_load (hload : Grammar.load text = .ok g) (hd : g.Distinct) :
    ∃ s, Source.parse text = .ok s ∧ ∀ kind word parent,
      (word, parent) ∈ (ofGrammar g (Schema.ofGrammar g)).entries kind ↔
        (word, parent) ∈ default.entries kind ∨
          ∃ d ∈ s.spacing, d.kind = kind ∧ d.text = word ∧
            match parent with
            | some k => ∃ name ∈ d.parents, Schema.IsParentKind g name k
            | none => kind ≠ .flat ∧
                ∀ name ∈ d.parents, ∀ k, ¬ Schema.IsParentKind g name k := by
  obtain ⟨s, hs, hspacing⟩ := Grammar.spacing_of_read (Grammar.read_of_load hload)
  refine ⟨s, hs, fun kind word parent => ?_⟩
  rw [ofGrammar, mem_entries_foldl_addSpacing]
  refine or_congr_right ?_
  constructor
  · rintro ⟨spacing, hmem, rfl, rfl, h⟩
    obtain ⟨d, hmem', hres⟩ := exists_of_forall₂ hspacing.flip hmem
    refine ⟨d, hmem', hres.kind.symm, hres.text.symm, ?_⟩
    rw [hres.kind]
    exact (gives_iff hload hd hres parent).1 h
  · rintro ⟨d, hmem', rfl, rfl, h⟩
    obtain ⟨spacing, hmem, hres⟩ := exists_of_forall₂ hspacing hmem'
    exact ⟨spacing, hmem, hres.kind, hres.text, (gives_iff hload hd hres parent).2 h⟩

/-- A grammar with glue below the lines of a rule, with glue everywhere, and with a text that
    stays on its line. -/
def spaced : String :=
  "language spaced\nkeyword x\nkeyword y\nsymbol ';' semi\nnospace-before 'y' s x\n" ++
    "nospace-after 'x'\nflat ';' t\nstart s\ns:\n    t ';' #end\n    u x #more\nt:\n    x y\n" ++
    "u:\n    t\n"

theorem mem_entries_of_load_spaced : ∃ g, Grammar.load spaced = .ok g ∧
    ∃ s, Source.parse spaced = .ok s ∧
      (∀ k ∈ [0, 4, 5], ∃ d ∈ s.spacing, d.kind = .glueBefore ∧ d.text = "y" ∧
        ∃ name ∈ d.parents, Schema.IsParentKind g name k) ∧
      ∃ d ∈ s.spacing, d.kind = .glueAfter ∧ d.text = "x" ∧
        ∀ name ∈ d.parents, ∀ k, ¬ Schema.IsParentKind g name k := by
  have hok : ((Grammar.load spaced).toOption.any fun g =>
      decide ((g.rules.toList.map Rule.name).Nodup ∧
        (∀ k ∈ [0, 4, 5], ("y", some k) ∈
          (ofGrammar g (Schema.ofGrammar g)).entries .glueBefore ∧
            ("y", some k) ∉ default.entries .glueBefore) ∧
        ("x", none) ∈ (ofGrammar g (Schema.ofGrammar g)).entries .glueAfter ∧
          ("x", none) ∉ default.entries .glueAfter)) = true := by
    decide +kernel
  obtain ⟨g, hg, hdecide⟩ := any_toOption_iff.1 hok
  obtain ⟨hnodup, hbelow, hafter, hnew⟩ := of_decide_eq_true hdecide
  obtain ⟨s, hs, hiff⟩ := mem_entries_iff_of_load hg (Grammar.distinct_of_nodup hnodup)
  refine ⟨g, hg, s, hs, fun k hk => ?_, ?_⟩
  · obtain ⟨hmem, hnew⟩ := hbelow k hk
    exact ((hiff .glueBefore "y" (some k)).1 hmem).resolve_left hnew
  · obtain ⟨d, hd, hkind, htext, -, hnone⟩ :=
      ((hiff .glueAfter "x" none).1 hafter).resolve_left hnew
    exact ⟨d, hd, hkind, htext, hnone⟩

/-- A grammar whose only directive has a parent, which is another name of an option. -/
def glued : String :=
  "language glued\nkeyword x\nkeyword y\nnospace-before 'y' a\nstart s\ns:\n    a y\na:\n    x?\n"

/-- The parent stands for no kind, and the directive holds everywhere. -/
theorem glued_of_kindless_parent : ∃ g, Grammar.load glued = .ok g ∧ g.Distinct ∧
    ∃ s, Source.parse glued = .ok s ∧ (∀ d ∈ s.spacing, d.parents ≠ []) ∧
      ("y", none) ∈ (ofGrammar g (Schema.ofGrammar g)).entries .glueBefore ∧
        ("y", none) ∉ default.entries .glueBefore := by
  have hload : ((Grammar.load glued).toOption.any fun g =>
      decide ((g.rules.toList.map Rule.name).Nodup ∧
        ("y", none) ∈ (ofGrammar g (Schema.ofGrammar g)).entries .glueBefore ∧
          ("y", none) ∉ default.entries .glueBefore)) = true := by
    decide +kernel
  have hparse : ((Source.parse glued).toOption.any fun s =>
      decide (∀ d ∈ s.spacing, d.parents ≠ [])) = true := by
    decide +kernel
  obtain ⟨g, hg, hdecide⟩ := any_toOption_iff.1 hload
  obtain ⟨s, hs, hparents⟩ := any_toOption_iff.1 hparse
  obtain ⟨hnodup, hglued⟩ := of_decide_eq_true hdecide
  exact ⟨g, hg, Grammar.distinct_of_nodup hnodup, s, hs, of_decide_eq_true hparents, hglued⟩

end Policy

end LanguageWorkbench
