import LanguageWorkbench.Proofs.EmptyTexts
import LanguageWorkbench.Proofs.Slots
import LanguageWorkbench.Proofs.UniqueNames

/-!
# Findings and lowered grammars

The findings about a grammar are made on its rules, without a look at its lowered grammar. They
say the same about both: a rule is nullable exactly if its symbol derives the empty word, and
it is used exactly if right sides lead to its symbol from the start symbol.

Results:
* `Lowered.Reaches`: right sides lead from one symbol to another.
* `Grammar.LowersTo.reaches_iff_linked`: they do so exactly where rules refer to each other.
* `Analysis.ofGrammar_iff`: both findings, for terms and rules that have symbols.
-/

namespace LanguageWorkbench

namespace Lowered

/-- A production of the first symbol has the second on its right side. -/
def Refers (l : Lowered) (s t : Symbol) : Prop := ∃ p ∈ l.productions, p.lhs = s ∧ t ∈ p.rhs

/-- Right sides lead from the first symbol to the second. -/
def Reaches (l : Lowered) : Symbol → Symbol → Prop := Relation.ReflTransGen l.Refers

end Lowered

namespace Grammar

variable {g : Grammar} {symbols : SymbolMap} {l : Lowered} {text : String} {id child : RuleId}

theorem children_eq {shape : Shape} (h : g.shape? id = some shape) :
    g.children id = shape.children := by
  rw [children, h]
  rfl

/-! ## From symbols to rules -/

theorem Behind.linked {y : RuleId} (h : g.Behind id y) : Linked g.children id y := by
  induction h with
  | self _ _ => exact .refl
  | follow hlink _ ih =>
    refine .head ?_ ih
    rcases hlink with (hshape | hshape) | hshape <;>
    · rw [children_eq hshape]
      exact List.mem_singleton_self _

theorem Chosen.exists_behind {afterAbsent : Bool} {bits : List RuleId}
    {choice : List (Option Symbol)} (h : Chosen g symbols afterAbsent bits choice) {t : Symbol}
    (ht : t ∈ presentSymbols choice) :
    ∃ bit ∈ bits, ∃ y, g.Behind bit y ∧ symbols.lookup y = some t := by
  induction h with
  | nil => cases ht
  | @cons _ bit bits r choice hr _ ih =>
    have hrest : t ∈ presentSymbols choice → ∃ b ∈ bit :: bits, ∃ y, g.Behind b y ∧
        symbols.lookup y = some t := by
      intro ht
      obtain ⟨b, hb, hy⟩ := ih ht
      exact ⟨b, List.mem_cons_of_mem _ hb, hy⟩
    cases r with
    | none => exact hrest ht
    | some s =>
      rcases List.mem_cons.1 ht with rfl | ht
      · exact ⟨bit, List.mem_cons_self, hr.exists_behind⟩
      · exact hrest ht

/-- What a right side of a rule refers to, the rule does. -/
theorem LowersTo.linked_of_refers (h : g.LowersTo symbols l) (hload : load text = .ok g)
    {s t : Symbol} (hs : symbols.lookup id = some s) (hst : l.Refers s t) :
    ∃ y, symbols.lookup y = some t ∧ Linked g.children id y := by
  obtain ⟨p, hp, rfl, ht⟩ := hst
  obtain ⟨n, hn⟩ := Array.mem_iff_getElem?.1 hp
  obtain ⟨built, choice, hrhs, -, hstands⟩ :=
    h.stands (sound_of_load hload) (check_of_load hload) hn hs
  rw [hrhs] at ht
  -- the bits of a choice are linked from the rule
  have hbits : ∀ {afterAbsent : Bool} {bits : List RuleId},
      Chosen g symbols afterAbsent bits choice → (∀ bit ∈ bits, Linked g.children id bit) →
      ∃ y, symbols.lookup y = some t ∧ Linked g.children id y := by
    intro afterAbsent bits hchosen hlinked
    obtain ⟨bit, hbit, y, hy, hlookup⟩ := hchosen.exists_behind ht
    exact ⟨y, hlookup, (hlinked bit hbit).trans hy.linked⟩
  have hone : ∀ {r : Option Symbol} {bit : RuleId}, Reads g symbols false bit r → choice = [r] →
      bit ∈ g.children id → ∃ y, symbols.lookup y = some t ∧ Linked g.children id y := by
    intro r bit hr hchoice hmem
    have hchosen : Chosen g symbols false [bit] choice := hchoice ▸ .cons hr .nil
    exact hbits hchosen (List.forall_mem_singleton.2 (.single hmem))
  cases hstands with
  | sequence hshape _ hchosen =>
    refine hbits hchosen fun bit hbit => .single ?_
    rwa [children_eq hshape]
  | line halt hbit hline _ hchosen =>
    have hbuilt : built ∈ g.children id := by rwa [children_eq halt]
    refine hbits hchosen fun bit hbit' => .tail (.single hbuilt) ?_
    rwa [children_eq hline]
  | branch halt hbit hr => exact hone hr rfl (by rwa [children_eq halt])
  | element hshape hr =>
    exact hone hr rfl (by rw [children_eq hshape]; exact List.mem_singleton_self _)
  | longer hshape _ hchosen =>
    refine hbits hchosen ?_
    simp only [List.forall_mem_cons, List.not_mem_nil, false_imp_iff, implies_true, and_true]
    refine ⟨.refl, .single ?_⟩
    rw [children_eq hshape]
    exact List.mem_singleton_self _

/-! ## From rules to symbols -/

/-- Every bit may be present after one that is. -/
theorem allows_present (hload : load text = .ok g) (id : RuleId) : g.Allows false id false := by
  by_cases hdependent : ∃ child, g.shape? id = some (.dependent child)
  · obtain ⟨child, hshape⟩ := hdependent
    have hplain := plain_of_load hload hshape nofun (List.mem_singleton_self _)
    exact .dependent hshape rfl (.present (not_dependent_of_plain hplain))
  · exact .present fun child hshape => hdependent ⟨child, hshape⟩

/-- One of the choices leaves out no bit. -/
theorem exists_full_choice (hload : load text = .ok g) {bits : List RuleId}
    {found : List (List (Option Symbol))} (hfound : g.choices symbols false bits = .ok found) :
    ∃ choice ∈ found, ∀ bit ∈ bits, ∀ y t, g.Behind bit y → symbols.lookup y = some t →
      t ∈ presentSymbols choice := by
  induction bits generalizing found with
  | nil =>
    cases hfound
    exact ⟨[], List.mem_singleton_self _, nofun⟩
  | cons bit bits ih =>
    obtain ⟨r, hr, hpresent⟩ :=
      (allows_present hload bit).exists_reads hload (not_refused_of_choices hfound)
    cases r with
    | none => cases hpresent
    | some s =>
      obtain ⟨rest, hrest, hmem⟩ := exists_choices_of_reads hfound hr
      obtain ⟨choice, hchoice, hall⟩ := ih hrest
      refine ⟨some s :: choice, hmem choice hchoice, List.forall_mem_cons.2 ⟨?_, ?_⟩⟩
      · intro y t hy ht
        obtain ⟨y', hy', hs⟩ := hr.exists_behind
        obtain rfl := hy.unique hy'
        obtain rfl := Option.some.inj (hs.symm.trans ht)
        exact List.mem_cons_self
      · exact fun b hb y t hy ht => List.mem_cons_of_mem _ (hall b hb y t hy ht)

/-- Productions of a rule refer to the symbols behind the bits that it expands. -/
theorem LowersTo.refers_of_expands (h : g.LowersTo symbols l) (hload : load text = .ok g)
    {bits : List RuleId} (he : g.Expands id bits) {s t : Symbol} (hs : symbols.lookup id = some s)
    {bit y : RuleId} (hbit : bit ∈ bits) (hy : g.Behind bit y) (ht : symbols.lookup y = some t) :
    l.Refers s t := by
  obtain ⟨lhs, found, hlhs, hfound, hmem⟩ := h.expanded (sound_of_load hload) he
  obtain rfl := Option.some.inj (hs.symm.trans hlhs)
  obtain ⟨choice, hchoice, hall⟩ := exists_full_choice hload hfound
  exact ⟨_, hmem choice hchoice, rfl, hall bit hbit y t hy ht⟩

/-- Only alternatives lead to lines. -/
theorem not_line_of_child (hload : load text = .ok g) {shape : Shape}
    (hshape : g.shape? id = some shape) (hno : ∀ bits, shape ≠ .alternative bits)
    (hchild : child ∈ shape.children) (bits : List RuleId) :
    g.shape? child ≠ some (.sequence bits true) := by
  obtain ⟨rule, hrule, rfl⟩ := Option.map_eq_some_iff.1 hshape
  rcases whole_or_alternative_of_read (read_of_load hload) hrule hchild with
    ⟨rule', hrule', hline⟩ | ⟨bits', halt⟩
  · intro hshape'
    rw [shape?, hrule'] at hshape'
    exact hline ⟨bits, Option.some.inj hshape'⟩
  · exact absurd halt (hno bits')

/-- The child of a rule is a line of it, or it is behind it by a link, or among bits that the
    rule expands, or the rule is a line itself. -/
theorem LowersTo.child_cases (h : g.LowersTo symbols l) (hload : load text = .ok g)
    (hchild : child ∈ g.children id) :
    (∃ branches bits, g.shape? id = some (.alternative branches) ∧ child ∈ branches ∧
      g.shape? child = some (.sequence bits true)) ∨
    (∀ bits, g.shape? child ≠ some (.sequence bits true)) ∧
      (g.Follows id child ∨ ∃ bits, child ∈ bits ∧
        (g.Expands id bits ∨ g.shape? id = some (.sequence bits true))) := by
  cases hshape : g.shape? id with
  | none => simp [children, hshape] at hchild
  | some shape =>
    rw [children_eq hshape] at hchild
    by_cases halt : ∃ branches, shape = .alternative branches
    · obtain ⟨branches, rfl⟩ := halt
      by_cases hline : ∃ bits, g.shape? child = some (.sequence bits true)
      · obtain ⟨bits, hline⟩ := hline
        exact .inl ⟨branches, bits, rfl, hchild, hline⟩
      · have hno : ∀ bits, g.shape? child ≠ some (.sequence bits true) := fun bits hbits =>
          hline ⟨bits, hbits⟩
        exact .inr ⟨hno, .inr ⟨[child], List.mem_singleton_self _, .inl
          (.branch hshape hchild hno)⟩⟩
    · have hno := not_line_of_child hload hshape (fun bits hbits => halt ⟨bits, hbits⟩) hchild
      refine .inr ⟨hno, ?_⟩
      cases shape with
      | term kind pattern => cases hchild
      | sequence bits anonymous =>
        cases anonymous with
        | false => exact .inr ⟨bits, hchild, .inl (.sequence hshape)⟩
        | true => exact .inr ⟨bits, hchild, .inr rfl⟩
      | alternative bits => exact absurd ⟨bits, rfl⟩ halt
      | plus c =>
        obtain rfl := List.mem_singleton.1 hchild
        exact .inr ⟨[child], hchild, .inl (.element hshape)⟩
      | aliasOf c =>
        obtain rfl := List.mem_singleton.1 hchild
        exact .inl (.inl (.inl hshape))
      | option c =>
        obtain rfl := List.mem_singleton.1 hchild
        exact .inl (.inl (.inr hshape))
      | dependent c =>
        obtain rfl := List.mem_singleton.1 hchild
        exact .inl (.inr hshape)
      | separator c => exact absurd hshape (h.no_repeats id c).1
      | delimiter c => exact absurd hshape (h.no_repeats id c).2

/-- Right sides lead to the symbols behind a rule and, if the rule is a line, to that of an
    alternative with this line. -/
structure Reached (g : Grammar) (symbols : SymbolMap) (l : Lowered) (start : Symbol)
    (id : RuleId) : Prop where
  behind : ∀ y t, g.Behind id y → symbols.lookup y = some t → l.Reaches start t
  line : ∀ bits, g.shape? id = some (.sequence bits true) → ∃ alt branches s,
    g.shape? alt = some (.alternative branches) ∧ id ∈ branches ∧
      symbols.lookup alt = some s ∧ l.Reaches start s

variable {start : Symbol}

/-- The symbol of a rule that expands bits is reached if the rule is. -/
theorem LowersTo.reaches_of_expands (h : g.LowersTo symbols l) (hload : load text = .ok g)
    (hid : g.Reached symbols l start id) {bits : List RuleId} (he : g.Expands id bits) :
    ∃ s, symbols.lookup id = some s ∧ l.Reaches start s := by
  obtain ⟨s, _, hs, -, -⟩ := h.expanded (sound_of_load hload) he
  exact ⟨s, hs, hid.behind id s (h.numbers.behind_self hs) hs⟩

/-- A child of a rule that is reached is reached. -/
theorem LowersTo.reached_child (h : g.LowersTo symbols l) (hload : load text = .ok g)
    (hid : g.Reached symbols l start id) (hchild : child ∈ g.children id) :
    g.Reached symbols l start child := by
  rcases h.child_cases hload hchild with ⟨branches, bits, halt, hmem, hline⟩ | ⟨hno, hlink⟩
  · obtain ⟨s, hs, hreach⟩ := h.reaches_of_expands hload hid (.line halt hmem hline)
    exact ⟨fun y _ hy _ => absurd hline (hy.not_line bits),
      fun _ _ => ⟨id, branches, s, halt, hmem, hs, hreach⟩⟩
  · refine ⟨fun y t hy ht => ?_, fun bits hline => absurd hline (hno bits)⟩
    rcases hlink with hlink | ⟨bits, hmem, he | hline⟩
    · exact hid.behind y t (.follow hlink hy) ht
    · obtain ⟨s, hs, hreach⟩ := h.reaches_of_expands hload hid he
      exact hreach.tail (h.refers_of_expands hload he hs hmem hy ht)
    · obtain ⟨alt, branches, s, halt, hid', hs, hreach⟩ := hid.line bits hline
      exact hreach.tail (h.refers_of_expands hload (.line halt hid' hline) hs hmem hy ht)

theorem StripsTo.behind {y : RuleId} (h : g.StripsTo id y) (hy : g.Behind y y) :
    g.Behind id y := by
  induction h with
  | refl _ _ => exact hy
  | aliasOf hshape _ ih => exact .follow (.inl (.inl hshape)) (ih hy)
  | option hshape _ ih => exact .follow (.inl (.inr hshape)) (ih hy)

/-- Right sides lead from the start symbol to the symbols of the rules that links lead to from
    the start rule. -/
theorem LowersTo.reaches_iff_linked (h : g.LowersTo symbols l) (hload : load text = .ok g)
    {y : RuleId} (hy : g.StripsTo g.start y) (hstart : symbols.lookup y = some start)
    {s : Symbol} (hs : symbols.lookup id = some s) :
    l.Reaches start s ↔ Linked g.children g.start id := by
  have hbehind := hy.behind (h.numbers.behind_self hstart)
  constructor
  · intro hreach
    have hall : ∃ x, symbols.lookup x = some s ∧ Linked g.children g.start x := by
      clear hs
      induction hreach with
      | refl => exact ⟨y, hstart, hbehind.linked⟩
      | tail _ hst ih =>
        obtain ⟨x, hx, hlinked⟩ := ih
        obtain ⟨z, hz, hxz⟩ := h.linked_of_refers hload hx hst
        exact ⟨z, hz, hlinked.trans hxz⟩
    obtain ⟨x, hx, hlinked⟩ := hall
    rwa [h.numbers.lookup_inj hs hx]
  · intro hlinked
    have hfirst : g.Reached symbols l start g.start := by
      refine ⟨fun z t hz ht => ?_, fun bits hline => absurd hline (hbehind.not_line bits)⟩
      obtain rfl := hz.unique hbehind
      rw [Option.some.inj (hstart.symm.trans ht)]
      exact .refl
    have hreached : g.Reached symbols l start id := by
      clear hs
      induction hlinked with
      | refl => exact hfirst
      | tail _ hchild ih => exact h.reached_child hload ih hchild
    exact hreached.behind id s (h.numbers.behind_self hs) hs

theorem mem_used_iff : id ∈ g.used ↔ Linked g.children g.start id := by
  refine mem_reachable_iff fun n hn => ?_
  cases hrule : g.rule? n with
  | none => simp [children, shape?, hrule] at hn
  | some rule => exact (Array.getElem?_eq_some_iff.1 hrule).1

/-! ## Names of declared rules -/

/-- No other rule has the name of a declared rule. -/
theorem eq_of_declared (hload : load text = .ok g) {rule rule' : Rule} {id' : RuleId}
    (hdeclared : (rule, id) ∈ g.declaredRules) (hrule' : g.rule? id' = some rule')
    (hname : rule.name = rule'.name) : id = id' := by
  obtain ⟨s, declared, nodes, a, -, -, hresolved, hrules, -, hcount⟩ :=
    exists_resolved_of_read (read_of_load hload)
  obtain ⟨hlt, hrule⟩ := mem_declaredRules.1 hdeclared
  rw [rule?, hrules] at hrule hrule'
  exact hresolved.registered.first_inj (hcount ▸ hlt) hrule hrule' hname

/-- A declared rule is no line, so no dollar sign begins its name. -/
theorem head_name_ne_of_declared (hload : load text = .ok g) {rule : Rule}
    (hdeclared : (rule, id) ∈ g.declaredRules) : rule.name.toList.head? ≠ some '$' := by
  obtain ⟨hlt, hrule⟩ := mem_declaredRules.1 hdeclared
  refine head_name_ne_of_read (read_of_load hload) hrule fun hline => ?_
  obtain ⟨s, declared, nodes, a, -, -, hresolved, hrules, -, hcount⟩ :=
    exists_resolved_of_read (read_of_load hload)
  rw [rule?, hrules] at hrule
  exact absurd (hcount ▸ hlt) (Nat.not_lt.2 (hresolved.registered.line hrule hline).1)

/-- A declared rule with a symbol has a symbol of its own. -/
theorem hasKind_of_symbol? (hload : load text = .ok g) (hn : g.Numbers l symbols) {rule : Rule}
    (hdeclared : (rule, id) ∈ g.declaredRules) {s : Symbol} (hs : l.symbol? rule.name = some s) :
    rule.shape.isTerm = true ∨ hasNonterminal rule.shape = true := by
  have hdollar := head_name_ne_of_declared hload hdeclared
  obtain ⟨id', rule', hrule', hname, hkind⟩ := hn.exists_of_symbol? hs
    (fun hend => hdollar (by rw [hend]; rfl)) (fun haccept => hdollar (by rw [haccept]; rfl))
  obtain rfl := eq_of_declared hload hdeclared hrule' hname.symm
  rwa [Option.some.inj ((mem_declaredRules.1 hdeclared).2.symm.trans hrule')]

end Grammar

/-! ## The main result -/

namespace Analysis

theorem mem_sortNames {names : List String} {name : String} :
    name ∈ sortNames names ↔ name ∈ names := by
  rw [sortNames, List.mem_eraseDups, List.mem_mergeSort]

variable {text : String} {g : Grammar}

/-- The name of a declared rule is listed exactly if the rule is kept. -/
theorem mem_sortNames_filter_iff (hload : Grammar.load text = .ok g) {rule : Rule} {id : RuleId}
    (hdeclared : (rule, id) ∈ g.declaredRules) (keep : RuleId → Bool) :
    rule.name ∈ sortNames ((g.declaredRules.filter fun (_, id) => keep id).map
      fun (rule, _) => rule.name) ↔ keep id = true := by
  rw [mem_sortNames, List.mem_map]
  constructor
  · rintro ⟨⟨rule', id'⟩, hmem, hname⟩
    obtain ⟨hdeclared', hkeep⟩ := List.mem_filter.1 hmem
    have hrule' := (Grammar.mem_declaredRules.1 hdeclared').2
    rwa [Grammar.eq_of_declared hload hdeclared hrule' hname.symm]
  · intro hkeep
    exact ⟨(rule, id), List.mem_filter.2 ⟨hdeclared, hkeep⟩, rfl⟩

/-- A declared term or rule with a symbol is listed as nullable exactly if its symbol derives
    the empty word, and as unused exactly if no right sides lead to its symbol from the start
    symbol. -/
theorem ofGrammar_iff {l : Lowered} (hload : Grammar.load text = .ok g)
    (hl : (Lowered.ofGrammar g).result = .ok l) :
    ∃ start, l.productions[0]? = some ⟨l.accept, [start, endSymbol]⟩ ∧
      ∀ rule id s, (rule, id) ∈ g.declaredRules → l.symbol? rule.name = some s →
        (rule.name ∈ (ofGrammar g).nullable ↔ l.Derives [s] []) ∧
        (rule.name ∈ (ofGrammar g).unused ↔ ¬ l.Reaches start s) := by
  obtain ⟨symbols, h⟩ := Grammar.lowersTo_of_ofGrammar hl
  obtain ⟨y, start, hy, hstart, hzero⟩ := h.start
  refine ⟨start, hzero, fun rule id s hdeclared hsymbol => ?_⟩
  have hrule := (Grammar.mem_declaredRules.1 hdeclared).2
  have hkind := Grammar.hasKind_of_symbol? hload h.numbers hdeclared hsymbol
  have hs : symbols.lookup id = some s := by
    obtain ⟨t, ht⟩ := h.numbers.exists_lookup hrule hkind
    have hname := h.numbers.symbol?_nameOf ht
    rw [Grammar.nameOf, hrule] at hname
    rwa [← Option.some.inj (hname.symm.trans hsymbol)]
  constructor
  · have hempty : l.Derives [s] [] ↔ g.Matches id [] := h.derives_iff (Grammar.sound_of_load hload)
      (Grammar.check_of_load hload) hrule hkind hs (fun _ hx => absurd hx List.not_mem_nil)
    rw [hempty, ← h.isNullable_iff_matches hload hrule hkind]
    exact mem_sortNames_filter_iff hload hdeclared g.isNullable
  · rw [h.reaches_iff_linked hload (Grammar.stripsTo_of_startRule hy) hstart hs,
      ← Grammar.mem_used_iff]
    have hlisted := mem_sortNames_filter_iff hload hdeclared (!g.used.contains ·)
    rw [Bool.not_eq_true', List.contains_eq_mem, decide_eq_false_iff_not] at hlisted
    exact hlisted

/-- A grammar with a rule that may be empty and one that nothing refers to. -/
def loose : String :=
  "language loose\nkeyword x\nkeyword y\nstart s\ns:\n    o x\no:\n    x? y?\nlost:\n    x y\n"

theorem derives_nil_of_loose : ∃ g l, Grammar.load loose = .ok g ∧
    (Lowered.ofGrammar g).result = .ok l ∧
    (∃ s, l.symbol? "o" = some s ∧ l.Derives [s] []) ∧
    ∃ start s, l.productions[0]? = some ⟨l.accept, [start, endSymbol]⟩ ∧
      l.symbol? "lost" = some s ∧ ¬ l.Reaches start s := by
  have hok : (Grammar.load loose).toOption.any fun g =>
      (Lowered.ofGrammar g).result.toOption.any fun l =>
        decide ((ofGrammar g).nullable = ["o"]) && decide ((ofGrammar g).unused = ["lost"]) &&
          (g.declaredRules.any fun r => decide (r.1.name = "o")) &&
          (g.declaredRules.any fun r => decide (r.1.name = "lost")) &&
          (l.symbol? "o").isSome && (l.symbol? "lost").isSome := by
    decide +kernel
  obtain ⟨g, hload, hok⟩ := any_toOption_iff.1 hok
  obtain ⟨l, hl, hok⟩ := any_toOption_iff.1 hok
  simp only [Bool.and_eq_true, decide_eq_true_eq, List.any_eq_true, Option.isSome_iff_exists]
    at hok
  obtain ⟨⟨⟨⟨⟨hnullable, hunused⟩, ⟨o, idO⟩, ho, hoName⟩, ⟨lost, idLost⟩, hlost, hlostName⟩,
    s, hs⟩, t, ht⟩ := hok
  obtain ⟨start, hzero, hiff⟩ := ofGrammar_iff hload hl
  have hempty := (hiff o idO s ho (hoName ▸ hs)).1
  have hused := (hiff lost idLost t hlost (hlostName ▸ ht)).2
  rw [hoName, hnullable] at hempty
  rw [hlostName, hunused] at hused
  exact ⟨g, l, hload, hl, ⟨s, hs, hempty.1 (List.mem_singleton_self _)⟩, start, t, hzero, ht,
    hused.1 (List.mem_singleton_self _)⟩

end Analysis

end LanguageWorkbench
