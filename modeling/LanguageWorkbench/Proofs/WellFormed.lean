import LanguageWorkbench.Proofs.Aliases
import LanguageWorkbench.Proofs.Lines

/-!
# Well-formed arenas

A loaded grammar has an arena in which everything that later steps rely on is in its place:
the declared rules in the order of the text, each with what its body says; one rule for each
pair of a base and a suffix; every line of an alternative below this alternative and nowhere
else; no placeholder, no circle of aliases, no dependent and no optional branch where none may
be.

Results:
* `Shape.Attached.exists_opens`: what stands before a bit that is not plain.
* `Grammar.aliasTarget?_resolveAlias`: chains of aliases end.
* `Grammar.WellFormed`, `Grammar.wellFormed_of_load`: the arena of a loaded grammar.
-/

namespace LanguageWorkbench

open Source

/-! ## Bits after others -/

namespace Shape

variable {shape? : RuleId → Option Shape}

/-- What is not plain comes directly after an option or a dependent. -/
theorem Attached.exists_opens {before : Option RuleId} {bits : List RuleId}
    (h : Attached shape? before bits) {m : Nat} {bit : RuleId} (hbit : bits[m]? = some bit)
    (hplain : ¬ Plain shape? bit) : (m = 0 ∧ ∃ b, before = some b ∧ Opens shape? b) ∨
      ∃ n b, m = n + 1 ∧ bits[n]? = some b ∧ Opens shape? b := by
  induction h generalizing m with
  | nil => simp at hbit
  | @cons before first bits hfirst hrest ih =>
    cases m with
    | zero =>
      cases hbit
      exact .inl ⟨rfl, hfirst.resolve_left hplain⟩
    | succ m =>
      rcases ih hbit with ⟨rfl, b, hb, hopens⟩ | ⟨n, b, rfl, hb, hopens⟩
      · exact .inr ⟨0, first, rfl, rfl, Option.some.inj hb ▸ hopens⟩
      · exact .inr ⟨n + 1, b, rfl, hb, hopens⟩

end Shape

/-! ## Aliases -/

namespace Grammar

variable {g : Grammar} {text : String} {id : RuleId}

/-- Where following aliases ends at a rule that is none, it went along a chain. -/
theorem exists_leadsTo_of_followAlias {fuel : Nat} {seen : List RuleId}
    (h : g.aliasTarget? (g.followAlias fuel seen id) = none) :
    ∃ k, g.LeadsTo k id (g.followAlias fuel seen id) := by
  induction fuel generalizing seen id with
  | zero => exact ⟨0, .refl h⟩
  | succ fuel ih =>
    cases hnext : g.aliasTarget? id with
    | none =>
      simp only [followAlias, hnext]
      exact ⟨0, .refl hnext⟩
    | some child =>
      simp only [followAlias, hnext] at h ⊢
      split_ifs at h ⊢
      · rw [hnext] at h
        cases h
      · obtain ⟨k, hleads⟩ := ih h
        exact ⟨k + 1, .step hnext hleads⟩

theorem checkAlias_of_check (h : g.check = .ok ()) {rule : Rule} (hid : id < g.declared)
    (hrule : g.rule? id = some rule) : g.checkAlias rule = .ok () := by
  unfold check at h
  obtain ⟨_, -, h⟩ := bind_eq_ok_iff.1 h
  obtain ⟨_, h, -⟩ := bind_eq_ok_iff.1 h
  refine forall_of_forIn (P := fun entry : Rule × RuleId => g.checkAlias entry.1 = .ok ()) ?_ h
    (rule, id) (mem_declaredRules.2 ⟨hid, hrule⟩)
  intro r step hstep
  obtain ⟨_, hr, hstep⟩ := bind_eq_ok_iff.1 hstep
  cases hstep
  exact ⟨rfl, hr⟩

/-- Where all aliases are declared, a checked grammar has no circle of aliases. -/
theorem aliasTarget?_resolveAlias (hcheck : g.check = .ok ())
    (hdeclared : ∀ id child, g.shape? id = some (.aliasOf child) → id < g.declared) (id : RuleId) :
    g.aliasTarget? (g.resolveAlias id) = none := by
  cases hnext : g.aliasTarget? id with
  | none =>
    rw [(LeadsTo.refl hnext).resolveAlias_eq]
    exact hnext
  | some child =>
    have hshape := aliasTarget?_eq_some_iff.1 hnext
    obtain ⟨rule, hrule, hr⟩ := Option.map_eq_some_iff.1 hshape
    have halias := checkAlias_of_check hcheck (hdeclared id child hshape) hrule
    simp only [checkAlias, hr] at halias
    split_ifs at halias with hend
    rw [Bool.not_eq_true, Option.isSome_eq_false_iff, Option.isNone_iff_eq_none] at hend
    obtain ⟨k, hleads⟩ := exists_leadsTo_of_followAlias hend
    rw [(LeadsTo.step hnext hleads).resolveAlias_eq]
    exact hend

/-! ## The parts of an arena -/

theorem exists_rule_of_children {m : Nat} {child : RuleId} (hchild : (g.children id)[m]? = some child) :
    ∃ r, g.rule? id = some r ∧ r.shape.children[m]? = some child := by
  cases hr : g.rule? id with
  | none => simp [children, shape?, hr] at hchild
  | some r =>
    rw [children, shape?, hr] at hchild
    exact ⟨r, rfl, hchild⟩

/-- A dependent is a bit of a sequence, after an option or a dependent. -/
theorem exists_opens_of_load (h : load text = .ok g) {m : Nat} {child target : RuleId}
    (hchild : (g.children id)[m]? = some child) (htarget : g.shape? child = some (.dependent target)) :
    (∃ bits anonymous, g.shape? id = some (.sequence bits anonymous)) ∧
      ∃ n before, m = n + 1 ∧ (g.children id)[n]? = some before ∧ Shape.Opens g.shape? before := by
  obtain ⟨r, hr, hchild'⟩ := exists_rule_of_children hchild
  have hshape : g.shape? id = some r.shape := by
    rw [shape?, hr]
    rfl
  have hnot : ¬ Shape.Plain g.shape? child := by
    rintro ⟨shape, hc, hno⟩
    exact hno target (Option.some.inj (hc.symm.trans htarget))
  by_cases hseq : ∃ bits anonymous, r.shape = .sequence bits anonymous
  · obtain ⟨bits, anonymous, hbits⟩ := hseq
    rw [hbits] at hshape hchild'
    have hbits' : g.children id = bits := by
      rw [children, hshape]
      rfl
    refine ⟨⟨bits, anonymous, hshape⟩, ?_⟩
    rcases (attached_of_load h hshape).exists_opens hchild' hnot with ⟨-, b, hb, -⟩ | hopens
    · cases hb
    · rwa [hbits']
  · exact absurd (plain_of_load h hshape
      (fun bits anonymous hbits => hseq ⟨bits, anonymous, hbits⟩) (List.mem_of_getElem? hchild')) hnot

namespace ReadFrom

variable {s : Source} {declared : Declared} {nodes : List String} {a : Arena} {r : Rule}
  {bits : List RuleId} (h : g.ReadFrom text s declared nodes a)

include h

/-- The declared rules have the names of the declarations. -/
theorem declaredNames : g.declaredRules.map (·.1.name) = s.terms.map (·.name) ++ s.rules.map (·.name) := by
  have hnames : s.terms.map (·.name) ++ s.rules.map (·.name) =
      (declarations s).map Mention.name := by simp [declarations, Function.comp_def]
  refine List.ext_getElem? fun n => ?_
  rw [hnames, List.getElem?_map, getElem?_declaredRules, h.rule?_eq, h.declared]
  split_ifs with hn
  · have hr := Array.getElem?_eq_getElem (Nat.lt_of_lt_of_le hn h.proper.registered.le_size)
    have hname := h.proper.follows.named hn hr
    rw [declaredName?, ← List.getElem?_map] at hname
    rw [hname, hr]
    rfl
  · rw [List.getElem?_eq_none, Option.map_none]
    simpa [declarations, (Arena.declare_places s).1] using hn

/-- The name of a declared rule leads to it. -/
theorem lookup_name (hid : id < g.declared) (hr : g.rule? id = some r) : g.lookup r.name = some id := by
  rw [h.rule?_eq] at hr
  rw [h.declared] at hid
  obtain ⟨id', r', hlookup, hid', hr', hname⟩ := h.proper.registered.exists_of_declared
    h.proper.sound ((h.proper.registered.lt_iff hr).1 hid)
  rw [Grammar.lookup, h.names, hlookup, h.proper.registered.first_inj hid' hr' hr hname]

/-- Alternatives have several branches. -/
theorem two_le_length (hbits : g.shape? id = some (.alternative bits)) : 2 ≤ bits.length := by
  obtain ⟨r, hr, hr'⟩ := h.exists_of_shape? hbits
  have hid := h.proper.lt_size hr (fun ⟨_, hline⟩ => nomatch hr'.symm.trans hline)
    (Arena.not_isSuffixed_of_alternative hr')
  rcases Arena.declared_cases h.stage h.proper hid hr with
    ⟨t, -, rfl⟩ | ⟨k, decl, family, shape, -, hdecl, rfl, hstands⟩
  · cases hr'
  · cases hstands with
    | aliasOf => cases hr'
    | sequence => cases hr'
    | alternative hmany hlength _ =>
      obtain rfl := Shape.alternative.inj hr'
      have hne := List.length_pos_iff.2
        (body_ne_nil_of_parse h.parse decl (List.mem_of_getElem? hdecl))
      omega

/-- An anonymous sequence is a bit at one place. -/
theorem exists_line (hbits : g.shape? id = some (.sequence bits true)) :
    ∃ k n, Arena.LineOf s g.rules id k n ∧
      ∀ i m, (g.children i)[m]? = some id ↔ i = s.terms.length + k ∧ m = n := by
  obtain ⟨r, hr, hr'⟩ := h.exists_of_shape? hbits
  obtain ⟨k, n, hline, honly⟩ := Arena.lineOf_of_isLine h.stage h.proper h.checks hr ⟨bits, hr'⟩
  refine ⟨k, n, h.rules ▸ hline, fun i m => ⟨fun hchild => ?_, ?_⟩⟩
  · obtain ⟨o, ho, hchild⟩ := exists_rule_of_children hchild
    exact honly i m o (h.rule?_eq i ▸ ho) hchild
  · rintro ⟨rfl, rfl⟩
    obtain ⟨decl, line, _, branches, -, -, -, -, hrule, hbranch, -⟩ := hline
    rw [children, shape?, h.rule?_eq, hrule]
    exact hbranch

/-- All aliases are declared. -/
theorem lt_declared_of_alias {target : RuleId} (halias : g.shape? id = some (.aliasOf target)) :
    id < g.declared := by
  obtain ⟨r, hr, hr'⟩ := h.exists_of_shape? halias
  rw [h.declared]
  refine h.proper.lt_size hr (fun ⟨_, hline⟩ => nomatch hr'.symm.trans hline) ?_
  rintro ⟨c, suffix, hsuffix⟩
  exact Arena.suffixShape_ne_aliasOf c suffix target (hsuffix.symm.trans hr')

end ReadFrom

/-! ## The main result -/

/-- The arena of a grammar text, as later steps rely on it. -/
structure WellFormed (s : Source) (g : Grammar) : Prop where
  /-- Rules refer to rules. -/
  children : ∀ {id child : RuleId} {r : Rule}, g.rule? id = some r → child ∈ r.shape.children →
    child < g.size
  /-- The declared rules are the terms and then the rules, in the order of the text. -/
  declared : g.declaredRules.map (·.1.name) = s.terms.map (·.name) ++ s.rules.map (·.name)
  /-- The name of a declared rule leads to it. -/
  lookup : ∀ {id : RuleId} {r : Rule}, id < g.declared → g.rule? id = some r →
    g.lookup r.name = some id
  terms : ∀ {k : Nat} {t : TermDecl}, s.terms[k]? = some t → g.rule? k = some (Arena.termRule t)
  /-- No placeholder is left: every rule is what its body says. -/
  bodies : ∀ {k : Nat} {decl : RuleDecl}, s.rules[k]? = some decl → ∃ family shape,
    g.rule? (s.terms.length + k) = some (Arena.bodyRule decl family shape) ∧
      Arena.BodyStands s g.rules decl family shape
  sequences : ∀ {id : RuleId} {bits : List RuleId} {anonymous : Bool},
    g.shape? id = some (.sequence bits anonymous) → 2 ≤ bits.length
  alternatives : ∀ {id : RuleId} {bits : List RuleId}, g.shape? id = some (.alternative bits) →
    2 ≤ bits.length
  /-- An anonymous sequence is a bit at one place: where its line stands in its alternative. -/
  lines : ∀ {id : RuleId} {bits : List RuleId}, g.shape? id = some (.sequence bits true) →
    ∃ k n, Arena.LineOf s g.rules id k n ∧
      ∀ i m, (g.children i)[m]? = some id ↔ i = s.terms.length + k ∧ m = n
  /-- A dependent is a bit of sequences, directly after an option or a dependent. -/
  dependents : ∀ {id child target : RuleId} {m : Nat}, (g.children id)[m]? = some child →
    g.shape? child = some (.dependent target) →
      (∃ bits anonymous, g.shape? id = some (.sequence bits anonymous)) ∧
      ∃ n before, m = n + 1 ∧ (g.children id)[n]? = some before ∧ Shape.Opens g.shape? before
  /-- The rules of the shapes of suffixes are those for a declared rule and a suffix. -/
  wraps : ∀ {id child : RuleId} {suffix : Suffix},
    g.shape? id = some (Arena.suffixShape child suffix) →
      ∃ base suffix', base < g.declared ∧ Arena.Wraps g.rules base suffix' id
  /-- Each pair of a rule and a suffix has one rule. -/
  unique : ∀ {base i j : RuleId} {suffix : Suffix}, Arena.Wraps g.rules base suffix i →
    Arena.Wraps g.rules base suffix j → i = j
  aliases : ∀ id, g.aliasTarget? (g.resolveAlias id) = none
  /-- No branch of an alternative is optional. -/
  branches : ∀ {id bit : RuleId} {bits : List RuleId}, g.shape? id = some (.alternative bits) →
    bit ∈ bits → g.isOptional (g.resolveAlias bit) = false

/-- Loading a text leaves a well-formed arena. -/
theorem wellFormed_of_load (h : load text = .ok g) :
    ∃ s, Source.parse text = .ok s ∧ WellFormed s g := by
  obtain ⟨s, declared, nodes, a, hread⟩ := exists_readFrom (read_of_load h)
  refine ⟨s, hread.parse, ?_⟩
  constructor
  case children =>
    intro id child r hr hchild
    obtain ⟨c, hc⟩ := hread.exists_child hr hchild
    exact (Array.getElem?_eq_some_iff.1 hc).1
  case declared => exact hread.declaredNames
  case lookup => exact fun hid hr => hread.lookup_name hid hr
  case terms =>
    intro k t ht
    rw [hread.rule?_eq]
    exact hread.stage.term ht
  case bodies =>
    intro k decl hdecl
    rw [hread.rule?_eq, hread.rules]
    exact hread.stage.resolved (List.getElem?_eq_some_iff.1 hdecl).1 hdecl
  case sequences => exact (sound_of_load h).long
  case alternatives => exact fun hbits => hread.two_le_length hbits
  case lines => exact fun hbits => hread.exists_line hbits
  case dependents => exact fun hchild htarget => exists_opens_of_load h hchild htarget
  case wraps =>
    intro id child suffix hsuffix
    obtain ⟨r, hr, hr'⟩ := hread.exists_of_shape? hsuffix
    obtain ⟨base, suffix', hbase, hkey⟩ := hread.stage.exists_key_of_shape hread.proper hr hr'
    exact ⟨base, suffix', hread.declared ▸ hbase, hread.rules ▸ hread.proper.follows.wraps hkey⟩
  case unique =>
    intro base i j suffix hi hj
    rw [hread.rules] at hi hj
    exact Arena.wraps_unique hread.stage hread.proper hi hj
  case aliases =>
    exact aliasTarget?_resolveAlias (check_of_load h) fun id child halias =>
      hread.lt_declared_of_alias halias
  case branches =>
    intro id bit bits hbits hbit
    obtain ⟨r, hr, hr'⟩ := Option.map_eq_some_iff.1 hbits
    have hbranches := checkBranches_of_check (check_of_load h) hr
    simp only [checkBranches, hr'] at hbranches
    split at hbranches
    · cases hbranches
    · rename_i hnone
      simpa using List.find?_eq_none.1 hnone bit hbit

/-- A grammar whose rules are used before they are declared, and a list with and without
    quotes. -/
def orders : String :=
  "language orders\nkeyword x\nkeyword y\nsymbol ',' comma\nstart s\ns:\n    t* ','= x?\n    y\n" ++
    "t:\n    u\nu:\n    x y t?\n    y+ 'x'+\n    x+ x\n"

/-- The rules of the orders: three terms, the declared rules, then those that lines and suffixes
    bring. -/
theorem wellFormed_of_load_orders : ∃ g s, load orders = .ok g ∧ Source.parse orders = .ok s ∧
    WellFormed s g ∧ (g.rules.toList.drop 3).map (·.shape) =
      [.alternative [10, 1], .aliasOf 5, .alternative [12, 15, 16], .plus 4, .option 6,
        .dependent 2, .option 0, .sequence [7, 8, 9] true, .option 4, .sequence [0, 1, 11] true,
        .plus 1, .plus 0, .sequence [13, 14] true, .sequence [14, 0] true] := by
  have hok : (load orders).toOption.any (fun g =>
      decide ((g.rules.toList.drop 3).map (·.shape) =
        [.alternative [10, 1], .aliasOf 5, .alternative [12, 15, 16], .plus 4, .option 6,
          .dependent 2, .option 0, .sequence [7, 8, 9] true, .option 4, .sequence [0, 1, 11] true,
          .plus 1, .plus 0, .sequence [13, 14] true, .sequence [14, 0] true])) = true := by
    decide +kernel
  obtain ⟨g, hg, hshapes⟩ := any_toOption_iff.1 hok
  obtain ⟨s, hs, hwellFormed⟩ := wellFormed_of_load hg
  exact ⟨g, s, hg, hs, hwellFormed, of_decide_eq_true hshapes⟩

end Grammar

end LanguageWorkbench
