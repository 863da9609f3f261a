import LanguageWorkbench.Proofs.Bodies

/-!
# Lines and the rules for them

Every rule has a body, and every line of several elements in an alternative a name of its own.
So an arena has one rule for each such line, which is a bit of this alternative and of no other
rule, and one rule for each pair of a base and a suffix.

Results:
* `Source.body_ne_nil_of_parse`: every rule has a body.
* `Source.Adds`, `Source.adds_of_checkBodies`: lines have names of their own.
* `Arena.declared_cases`, `Arena.Stage.exists_key_of_shape`: what a rule of an arena is there
  for.
* `Arena.wraps_unique`: one rule for each base and suffix.
* `Arena.LineOf`, `Arena.lineOf_of_isLine`: every line stands at one place.
-/

namespace LanguageWorkbench

open Source

namespace Source

/-! ## Bodies are not empty -/

/-- All rules but the last one read have a body. -/
def Draft.Bodied (d : Draft) : Prop := ∀ decl ∈ d.rules.tail, decl.body ≠ []

variable {d d' : Draft}

/-- After the last body is checked, all rules have one. -/
theorem Draft.Bodied.of_checkLastBody (h : d.Bodied) (hcheck : d.checkLastBody = .ok ()) :
    ∀ decl ∈ d.rules, decl.body ≠ [] := by
  unfold Draft.checkLastBody at hcheck
  split at hcheck
  · rename_i rule rules hrules
    split_ifs at hcheck with hempty
    have htail : ∀ decl ∈ rules, decl.body ≠ [] := by
      intro decl hdecl
      exact h decl (by rw [hrules]; exact hdecl)
    rw [hrules]
    exact List.forall_mem_cons.2 ⟨by simpa using hempty, htail⟩
  · rename_i hrules
    rw [hrules]
    nofun

theorem Draft.Bodied.bodyLine (h : d.Bodied) {line : Nat} {text : List Char}
    (hl : d.bodyLine line text = .ok d') : d'.Bodied := by
  obtain ⟨⟨elements, tag⟩, -, hl⟩ := bind_eq_ok_iff.1 hl
  dsimp only at hl
  split at hl
  · cases hl
  · rename_i rule rules hrules
    split_ifs at hl
    · cases hl
    · cases hl
      intro decl hdecl
      exact h decl (by rw [hrules]; exact hdecl)

theorem Draft.Bodied.ruleHeader (h : d.Bodied) {line : Nat} {name : List Char}
    (hl : d.ruleHeader line name = .ok d') : d'.Bodied := by
  unfold Draft.ruleHeader at hl
  split_ifs at hl
  all_goals first
    | cases hl
    | (obtain ⟨⟨⟩, hcheck, hl⟩ := bind_eq_ok_iff.1 hl
       cases hl
       exact h.of_checkLastBody hcheck)

theorem Draft.Bodied.addLine (h : d.Bodied) {line : Nat} {raw : List Char}
    (hl : d.addLine line raw = .ok d') : d'.Bodied := by
  unfold Draft.addLine at hl
  dsimp only at hl
  split_ifs at hl
  · cases hl
    exact h
  · exact h.bodyLine hl
  · exact h.ruleHeader hl
  · unfold Draft.directive at hl
    dsimp only at hl
    split_ifs at hl
    rw [mapError_eq_ok_iff] at hl
    intro decl hdecl
    rw [addDirective_rules hl] at hdecl
    exact h decl hdecl

theorem Draft.Bodied.addLines (h : d.Bodied) {line : Nat} {lines : List (List Char)}
    (hl : d.addLines line lines = .ok d') : d'.Bodied := by
  induction lines generalizing d line with
  | nil =>
    cases hl
    exact h
  | cons raw lines ih =>
    obtain ⟨d₁, h₁, hl⟩ := bind_eq_ok_iff.1 hl
    exact ih (h.addLine h₁) hl

/-- Every rule of a grammar text has a body. -/
theorem body_ne_nil_of_parse {text : String} {s : Source} (h : parse text = .ok s) :
    ∀ decl ∈ s.rules, decl.body ≠ [] := by
  obtain ⟨d, hd, h⟩ := bind_eq_ok_iff.1 h
  have hempty : Draft.empty.Bodied := nofun
  have hbodied := hempty.addLines hd
  obtain ⟨⟨⟩, hcheck, h⟩ := bind_eq_ok_iff.1 h
  split at h
  · split at h
    · cases h
      intro decl hdecl
      exact hbodied.of_checkLastBody hcheck decl (List.mem_reverse.1 hdecl)
    · cases h
  · cases h

/-! ## Lines have names of their own -/

/-- What `named` gives names to is added to a list of names, each under a name of its own that
    was not there. -/
structure Adds {ι : Type} (named : ι → String → Prop) (nodes nodes' : List String) : Prop where
  subset : nodes ⊆ nodes'
  old : ∀ name ∈ nodes', name ∈ nodes ∨ ∃ i, named i name
  new : ∀ i name, named i name → name ∈ nodes' ∧ name ∉ nodes
  inj : ∀ i j name, named i name → named j name → i = j

theorem Adds.none {ι : Type} {named : ι → String → Prop} (h : ∀ i name, ¬ named i name)
    (nodes : List String) : Adds named nodes nodes :=
  ⟨List.Subset.refl _, fun _ => .inl, fun i name hi => absurd hi (h i name),
    fun i _ name hi => absurd hi (h i name)⟩

/-- Names are added in two steps. -/
theorem Adds.trans {ι ι' κ : Type} {first : ι → String → Prop} {rest : ι' → String → Prop}
    {named : κ → String → Prop} {nodes nodes₁ nodes' : List String} (h : Adds first nodes nodes₁)
    (h' : Adds rest nodes₁ nodes') (place : ι → κ) (place' : ι' → κ)
    (hnamed : ∀ k name, named k name ↔
      (∃ i, place i = k ∧ first i name) ∨ ∃ i, place' i = k ∧ rest i name) :
    Adds named nodes nodes' := by
  have hapart : ∀ {i i' name}, first i name → ¬ rest i' name := fun hi hi' =>
    (h'.new _ _ hi').2 (h.new _ _ hi).1
  refine ⟨fun _ hname => h'.subset (h.subset hname), fun name hname => ?_, fun k name hk => ?_,
    fun k k' name hk hk' => ?_⟩
  · rcases h'.old name hname with hname | ⟨i, hi⟩
    · refine (h.old name hname).imp_right fun ⟨i, hi⟩ => ?_
      exact ⟨place i, (hnamed _ _).2 (.inl ⟨i, rfl, hi⟩)⟩
    · exact .inr ⟨place' i, (hnamed _ _).2 (.inr ⟨i, rfl, hi⟩)⟩
  · rcases (hnamed _ _).1 hk with ⟨i, -, hi⟩ | ⟨i, -, hi⟩
    · exact ⟨h'.subset (h.new _ _ hi).1, (h.new _ _ hi).2⟩
    · exact ⟨(h'.new _ _ hi).1, fun hname => (h'.new _ _ hi).2 (h.subset hname)⟩
  · rcases (hnamed _ _).1 hk with ⟨i, rfl, hi⟩ | ⟨i, rfl, hi⟩ <;>
      rcases (hnamed _ _).1 hk' with ⟨i', rfl, hi'⟩ | ⟨i', rfl, hi'⟩
    · rw [h.inj _ _ _ hi hi']
    · exact absurd hi' (hapart hi)
    · exact absurd hi (hapart hi')
    · rw [h'.inj _ _ _ hi hi']

/-- The line has several elements and, at `index` of the alternative `rule`, the name. -/
def BodyLine.HasName (line : BodyLine) (rule : String) (index : Nat) (name : String) : Prop :=
  1 < line.elements.length ∧ line.sequenceName rule index = name

/-- One of several lines of the body has the name. -/
def RuleDecl.NamesLine (decl : RuleDecl) (n : Nat) (name : String) : Prop :=
  decl.body.length ≠ 1 ∧ ∃ line, decl.body[n]? = some line ∧ line.HasName decl.name n name

variable {declared : Declared} {nodes nodes' : List String}

theorem adds_of_checkLine {rule : String} {index : Nat} {line : BodyLine}
    (h : checkLine declared rule false nodes index line = .ok nodes') :
    Adds (fun _ : Unit => line.HasName rule index) nodes nodes' := by
  rcases nodes_of_checkLine h with ⟨hshort, rfl⟩ | ⟨hlong, -, hfresh, rfl⟩
  · exact .none (fun _ name hname => absurd hshort (Nat.not_le.2 hname.1)) _
  · refine ⟨List.subset_cons_self .., fun name hname => ?_, ?_, fun _ _ _ _ _ => rfl⟩
    · rcases List.mem_cons.1 hname with rfl | hname
      · exact .inr ⟨(), hlong, rfl⟩
      · exact .inl hname
    · rintro - name ⟨-, rfl⟩
      exact ⟨List.mem_cons_self, hfresh⟩

/-- Checking the lines of an alternative adds the names of those with several elements. -/
theorem adds_of_checkLines {rule : String} {lines : List BodyLine} : ∀ {index : Nat}
    {nodes : List String}, checkLines declared rule false nodes index lines = .ok nodes' →
    Adds (fun (n : Nat) name => ∃ line : BodyLine, lines[n]? = some line ∧
      line.HasName rule (index + n) name) nodes nodes' := by
  induction lines with
  | nil =>
    intro index nodes h
    cases h
    exact .none (by simp) _
  | cons line lines ih =>
    intro index nodes h
    obtain ⟨nodes₁, h₁, h⟩ := bind_eq_ok_iff.1 h
    refine (adds_of_checkLine h₁).trans (ih h) (fun _ => 0) (· + 1) fun k name => ?_
    cases k with
    | zero => simp
    | succ k => simp [Nat.add_comm, Nat.add_left_comm]

/-- Checking bodies adds the names of the lines in them. -/
theorem adds_of_checkBodies {rules : List RuleDecl} : ∀ {nodes : List String},
    checkBodies declared nodes rules = .ok nodes' →
    Adds (fun (p : Nat × Nat) name => ∃ decl, rules[p.1]? = some decl ∧ decl.NamesLine p.2 name)
      nodes nodes' := by
  induction rules with
  | nil =>
    intro nodes h
    cases h
    exact .none (by simp) _
  | cons decl rules ih =>
    intro nodes h
    obtain ⟨nodes₁, h₁, h⟩ := bind_eq_ok_iff.1 h
    have hfirst : Adds decl.NamesLine nodes nodes₁ := by
      by_cases hone : decl.body.length = 1
      · obtain ⟨line, hline⟩ := List.length_eq_one_iff.1 hone
        rw [hline] at h₁
        obtain ⟨nodes₂, h₂, h₁⟩ := bind_eq_ok_iff.1 h₁
        obtain rfl := nodes_of_checkLine_single h₂
        cases h₁
        exact .none (fun _ _ hname => hname.1 hone) _
      · rw [beq_false_of_ne hone] at h₁
        have hlines := adds_of_checkLines h₁
        simp only [Nat.zero_add] at hlines
        have heq : decl.NamesLine = fun n name => ∃ line : BodyLine, decl.body[n]? = some line ∧
            line.HasName decl.name n name := by
          funext n name
          simp [RuleDecl.NamesLine, hone]
        rwa [heq]
    refine hfirst.trans (ih h) (fun n => (0, n)) (fun p => (p.1 + 1, p.2)) ?_
    rintro ⟨k, n⟩ name
    cases k with
    | zero => simp
    | succ k => simp

end Source

/-! ## The rules of an arena -/

namespace Arena

variable {s : Source} {declared : Declared} {nodes : List String} {a : Arena} {id base child : RuleId}
  {suffix : Suffix} {r : Rule}

theorem lt_size_of_declaredName? {name : String} (h : s.declaredName? id = some name) :
    id < (Arena.declare s).rules.size := by
  rw [(declare_places s).1]
  rcases declaredName?_cases h with ⟨t, ht, -⟩ | ⟨k, decl, rfl, hdecl, -⟩
  · exact Nat.lt_of_lt_of_le (List.getElem?_eq_some_iff.1 ht).1 (Nat.le_add_right _ _)
  · exact Nat.add_lt_add_left (List.getElem?_eq_some_iff.1 hdecl).1 _

/-- What is no line and not made for a suffix is declared. -/
theorem Proper.lt_size (hproper : a.Proper s declared nodes) (hr : a.rules[id]? = some r)
    (hline : ¬ r.IsLine) (hsuffixed : ¬ r.IsSuffixed) : id < (Arena.declare s).rules.size := by
  by_contra hlt
  rcases hproper.registered.added (Nat.le_of_not_lt hlt) hr with hl | ⟨⟨base, suffix⟩, hkey⟩
  · exact hline hl
  · obtain ⟨-, -, o, ho, -, -, -, -, -, child, hshape⟩ := hproper.registered.suffixed hkey
    obtain rfl := Option.some.inj (hr.symm.trans ho)
    exact hsuffixed ⟨child, suffix, hshape⟩

theorem not_isSuffixed_of_alternative {bits : List RuleId} (h : r.shape = .alternative bits) :
    ¬ r.IsSuffixed := by
  rintro ⟨child, suffix, hshape⟩
  cases suffix <;> cases h.symm.trans hshape

/-- Suffixes other than the star have shapes of their own. -/
theorem suffixShape_inj {base' : RuleId} {suffix' : Suffix} (hstar : suffix ≠ .star)
    (hstar' : suffix' ≠ .star) (h : suffixShape base suffix = suffixShape base' suffix') :
    base = base' ∧ suffix = suffix' := by
  cases suffix <;> cases suffix' <;>
    first
    | exact absurd rfl hstar
    | exact absurd rfl hstar'
    | exact ⟨by injection h, rfl⟩
    | exact Shape.noConfusion h

/-- A rule of the shape of one for a base and a suffix is one. -/
theorem Wraps.of_shape {rules : Array Rule} {j : RuleId} {r' : Rule} (h : Wraps rules base suffix id)
    (hr : rules[id]? = some r) (hr' : rules[j]? = some r') (hshape : r'.shape = r.shape) :
    Wraps rules base suffix j := by
  cases h with
  | single hstar ho hw =>
    obtain rfl := Option.some.inj (hr.symm.trans ho)
    exact .single hstar hr' (hshape.trans hw)
  | star hl hlist ho hw =>
    obtain rfl := Option.some.inj (hr.symm.trans ho)
    exact .star hl hlist hr' (hshape.trans hw)

section

variable {k : Nat} (hstage : Stage s declared k a) (hproper : a.Proper s declared nodes)

include hstage hproper

/-- A declared rule is that of a term, what a body says, or a placeholder for what a body to
    come says. -/
theorem Stage.declared_cases (hid : id < (Arena.declare s).rules.size) (hr : a.rules[id]? = some r) :
    (∃ t, s.terms[id]? = some t ∧ r = termRule t) ∨
      ∃ j decl, id = s.terms.length + j ∧ s.rules[j]? = some decl ∧
        ((∃ family shape, r = bodyRule decl family shape ∧ BodyStands s a.rules decl family shape) ∨
          k ≤ j ∧ r = Arena.placeholder decl id) := by
  rcases declaredName?_cases (hproper.follows.named hid hr) with ⟨t, ht, -⟩ | ⟨j, decl, rfl, hdecl, -⟩
  · exact .inl ⟨t, ht, Option.some.inj (hr.symm.trans (hstage.term ht))⟩
  · refine .inr ⟨j, decl, rfl, hdecl, ?_⟩
    rcases Nat.lt_or_ge j k with hj | hj
    · obtain ⟨family, shape, hrule, hstands⟩ := hstage.resolved hj hdecl
      exact .inl ⟨family, shape, Option.some.inj (hr.symm.trans hrule), hstands⟩
    · exact .inr ⟨hj, Option.some.inj (hr.symm.trans (hstage.placeholder hj hdecl))⟩

/-- A rule of the shape of a suffix is not declared. -/
theorem Stage.size_le_of_shape (hr : a.rules[id]? = some r) (hshape : r.shape = suffixShape child suffix) :
    (Arena.declare s).rules.size ≤ id := by
  by_contra hlt
  rcases hstage.declared_cases hproper (Nat.lt_of_not_le hlt) hr with
    ⟨t, -, rfl⟩ | ⟨j, decl, -, -, ⟨family, shape, rfl, hstands⟩ | ⟨-, rfl⟩⟩
  · cases suffix <;> cases hshape
  · cases hstands <;> cases suffix <;> cases hshape
  · cases suffix <;> cases hshape

/-- A rule is made for one base and one suffix. -/
theorem Stage.wraps_inj {base' : RuleId} {suffix' : Suffix}
    (hbase : base < (Arena.declare s).rules.size) (hbase' : base' < (Arena.declare s).rules.size)
    (h : Wraps a.rules base suffix id) (h' : Wraps a.rules base' suffix' id) :
    base = base' ∧ suffix = suffix' := by
  -- an option over a declared rule is not one over a list
  have hnot : ∀ {b c list : RuleId} {l : Rule} {sf : Suffix}, b < (Arena.declare s).rules.size →
      a.rules[list]? = some l → l.shape = .plus c → suffixShape b sf ≠ .option list := by
    intro b c list l sf hb hl hlist heq
    have hblist : b = list := by
      cases sf <;> injection heq
    have hle := hstage.size_le_of_shape hproper hl (show _ = suffixShape c .plus from hlist)
    exact absurd hb (hblist ▸ Nat.not_lt.2 hle)
  cases h with
  | single hstar hr hshape =>
    cases h' with
    | single hstar' hr' hshape' =>
      obtain rfl := Option.some.inj (hr.symm.trans hr')
      exact suffixShape_inj hstar hstar' (hshape.symm.trans hshape')
    | star hl hlist hr' hshape' =>
      obtain rfl := Option.some.inj (hr.symm.trans hr')
      exact absurd (hshape.symm.trans hshape') (hnot hbase hl hlist)
  | star hl hlist hr hshape =>
    cases h' with
    | single hstar' hr' hshape' =>
      obtain rfl := Option.some.inj (hr.symm.trans hr')
      exact absurd (hshape'.symm.trans hshape) (hnot hbase' hl hlist)
    | star hl' hlist' hr' hshape' =>
      obtain rfl := Option.some.inj (hr.symm.trans hr')
      obtain rfl := Shape.option.inj (hshape.symm.trans hshape')
      obtain rfl := Option.some.inj (hl.symm.trans hl')
      exact ⟨Shape.plus.inj (hlist.symm.trans hlist'), rfl⟩

/-- A rule of the shape of a suffix was made for one. -/
theorem Stage.exists_key_of_shape (hr : a.rules[id]? = some r)
    (hshape : r.shape = suffixShape child suffix) :
    ∃ base suffix', base < (Arena.declare s).rules.size ∧ ((base, suffix'), id) ∈ a.suffixed := by
  rcases hproper.registered.added (hstage.size_le_of_shape hproper hr hshape) hr with
    hline | ⟨⟨base, suffix'⟩, hkey⟩
  · exact absurd hline (Rule.IsSuffixed.not_isLine ⟨child, suffix, hshape⟩)
  · exact ⟨base, suffix', (hproper.registered.suffixed hkey).2.1, hkey⟩

/-- No two rules for suffixes have the same shape. -/
theorem Stage.eq_of_suffixShape {j : RuleId} {r' : Rule} (hr : a.rules[id]? = some r)
    (hr' : a.rules[j]? = some r') (hshape : r.shape = suffixShape child suffix)
    (hshape' : r'.shape = suffixShape child suffix) : id = j := by
  obtain ⟨base, suffix₁, hbase, hkey⟩ := hstage.exists_key_of_shape hproper hr hshape
  obtain ⟨base', suffix₂, hbase', hkey'⟩ := hstage.exists_key_of_shape hproper hr' hshape'
  have hwraps := (hproper.follows.wraps hkey).of_shape hr hr' (hshape'.trans hshape.symm)
  obtain ⟨rfl, rfl⟩ := hstage.wraps_inj hproper hbase hbase' hwraps (hproper.follows.wraps hkey')
  exact hproper.registered.suffixed_inj hkey hkey'

/-- The rule for a declared base and a suffix is kept as that. -/
theorem Stage.mem_suffixed_of_wraps (hbase : base < (Arena.declare s).rules.size)
    (h : Wraps a.rules base suffix id) : ((base, suffix), id) ∈ a.suffixed := by
  obtain ⟨r, child, suffix₁, hr, hshape⟩ : ∃ (r : Rule) (child : RuleId) (suffix₁ : Suffix),
      a.rules[id]? = some r ∧ r.shape = suffixShape child suffix₁ := by
    cases h with
    | single hstar hr hshape => exact ⟨_, base, suffix, hr, hshape⟩
    | star hl hlist hr hshape => exact ⟨_, _, .star, hr, hshape⟩
  obtain ⟨base', suffix₂, hbase', hkey⟩ := hstage.exists_key_of_shape hproper hr hshape
  obtain ⟨rfl, rfl⟩ := hstage.wraps_inj hproper hbase hbase' h (hproper.follows.wraps hkey)
  exact hkey

end

section

variable (hstage : Stage s declared s.rules.length a) (hproper : a.Proper s declared nodes)

include hstage hproper

/-- A declared rule is that of a term, or what a body says. -/
theorem declared_cases (hid : id < (Arena.declare s).rules.size) (hr : a.rules[id]? = some r) :
    (∃ t, s.terms[id]? = some t ∧ r = termRule t) ∨
      ∃ k decl family shape, id = s.terms.length + k ∧ s.rules[k]? = some decl ∧
        r = bodyRule decl family shape ∧ BodyStands s a.rules decl family shape := by
  rcases hstage.declared_cases hproper hid hr with hterm | ⟨k, decl, hk, hdecl, hbody | ⟨hle, -⟩⟩
  · exact .inl hterm
  · obtain ⟨family, shape, hr, hstands⟩ := hbody
    exact .inr ⟨k, decl, family, shape, hk, hdecl, hr, hstands⟩
  · exact absurd (List.getElem?_eq_some_iff.1 hdecl).1 (Nat.not_lt.2 hle)

/-- For each pair of a base and a suffix there is one rule. -/
theorem wraps_unique {i j : RuleId} (hi : Wraps a.rules base suffix i)
    (hj : Wraps a.rules base suffix j) : i = j := by
  cases hi with
  | single hstar hr hshape =>
    cases hj with
    | single _ hr' hshape' => exact hstage.eq_of_suffixShape hproper hr hr' hshape hshape'
    | star => exact absurd rfl hstar
  | star hl hlist hr hshape =>
    cases hj with
    | single hstar _ _ => exact absurd rfl hstar
    | star hl' hlist' hr' hshape' =>
      obtain rfl := hstage.eq_of_suffixShape hproper hl hl' (show _ = suffixShape base .plus from hlist)
        hlist'
      exact hstage.eq_of_suffixShape hproper hr hr' (show _ = suffixShape _ .star from hshape) hshape'

end

/-! ## Lines of alternatives -/

/-- The rule stands for the line at `n` of the rule at `k` of the text, among the branches of
    that rule. -/
def LineOf (s : Source) (rules : Array Rule) (id : RuleId) (k n : Nat) : Prop :=
  ∃ decl line bits branches, s.rules[k]? = some decl ∧ decl.body.length ≠ 1 ∧
    decl.body[n]? = some line ∧ 1 < line.elements.length ∧
    rules[s.terms.length + k]? = some (bodyRule decl "any" (.alternative branches)) ∧
    branches[n]? = some id ∧ List.Forall₂ (Stands s rules) line.elements bits ∧
    rules[id]? = some (lineRule decl.name n line bits)

theorem LineOf.namesLine {k n : Nat} (h : LineOf s a.rules id k n) (hr : a.rules[id]? = some r) :
    ∃ decl, s.rules[k]? = some decl ∧ decl.NamesLine n r.name := by
  obtain ⟨decl, line, bits, branches, hdecl, hmany, hline, hlong, -, -, -, hid⟩ := h
  obtain rfl := Option.some.inj (hr.symm.trans hid)
  exact ⟨decl, hdecl, hmany, line, hline, hlong, rfl⟩

/-- What an element stands for is no line. -/
theorem Proper.not_isLine_of_stands (hproper : a.Proper s declared nodes) {e : Element}
    (h : Stands s a.rules e id) (hr : a.rules[id]? = some r) : ¬ r.IsLine := by
  intro hline
  cases h with
  | plain hbase =>
    exact absurd (lt_size_of_declaredName? hbase)
      (Nat.not_lt.2 (hproper.registered.line hr hline).1)
  | wrapped _ _ hwraps =>
    cases hwraps with
    | single _ ho hshape =>
      obtain rfl := Option.some.inj (hr.symm.trans ho)
      exact Rule.IsSuffixed.not_isLine ⟨_, _, hshape⟩ hline
    | star _ _ ho hshape =>
      obtain rfl := Option.some.inj (hr.symm.trans ho)
      exact Rule.IsSuffixed.not_isLine ⟨_, .star, hshape⟩ hline

section

variable (hstage : Stage s declared s.rules.length a) (hproper : a.Proper s declared nodes)

include hstage

/-- Every line of several elements has a rule of its name. -/
theorem exists_lineOf {k n : Nat} {decl : RuleDecl} {name : String}
    (hdecl : s.rules[k]? = some decl) (h : decl.NamesLine n name) :
    ∃ id r, LineOf s a.rules id k n ∧ a.rules[id]? = some r ∧ r.IsLine ∧ r.name = name := by
  obtain ⟨hmany, line, hline, hlong, rfl⟩ := h
  obtain ⟨family, shape, hrule, hstands⟩ :=
    hstage.resolved (List.getElem?_eq_some_iff.1 hdecl).1 hdecl
  cases hstands with
  | aliasOf hbody => exact absurd (by rw [hbody]; rfl) hmany
  | sequence hbody => exact absurd (by rw [hbody]; rfl) hmany
  | @alternative branches _ hlength hbits =>
    have hlt : n < branches.length := hlength ▸ (List.getElem?_eq_some_iff.1 hline).1
    have hbit := List.getElem?_eq_getElem hlt
    cases hbits n line _ hline hbit with
    | element helements =>
      rw [helements] at hlong
      exact absurd hlong (Nat.lt_irrefl 1)
    | @sequence bits _ _ hstands hid =>
      exact ⟨_, _, ⟨decl, line, bits, branches, hdecl, hmany, hline, hlong, hrule, hbit, hstands,
        hid⟩, hid, ⟨bits, rfl⟩, rfl⟩

include hproper

/-- Only the alternative of a line leads to the line. -/
theorem lineOf_of_child {i : RuleId} {m : Nat} {o : Rule} (ho : a.rules[i]? = some o)
    (hchild : o.shape.children[m]? = some id) (hr : a.rules[id]? = some r) (hline : r.IsLine) :
    ∃ k, i = s.terms.length + k ∧ LineOf s a.rules id k m := by
  obtain ⟨c, hc, halt⟩ := hproper.registered.children ho (List.mem_of_getElem? hchild)
  obtain rfl := Option.some.inj (hr.symm.trans hc)
  obtain ⟨branches, hshape⟩ := halt hline
  have hi := hproper.lt_size ho (fun ⟨bits, hbits⟩ => nomatch hshape.symm.trans hbits)
    (not_isSuffixed_of_alternative hshape)
  rcases declared_cases hstage hproper hi ho with
    ⟨t, -, rfl⟩ | ⟨k, decl, family, shape, rfl, hdecl, rfl, hstands⟩
  · cases hshape
  · cases hstands with
    | aliasOf => cases hshape
    | sequence => cases hshape
    | @alternative bits hmany hlength hbits =>
      have hm : m < decl.body.length := hlength ▸ (List.getElem?_eq_some_iff.1 hchild).1
      have hline' := List.getElem?_eq_getElem hm
      cases hbits m _ id hline' hchild with
      | element _ hid => exact absurd hline (hproper.not_isLine_of_stands hid hr)
      | @sequence bits' _ hlong hforall hid =>
        exact ⟨k, rfl, decl, _, bits', bits, hdecl, hmany, hline', hlong, ho, hchild, hforall, hid⟩

/-- Every line is the branch of one alternative, at one place, and of no other rule. -/
theorem lineOf_of_isLine (hnodes : checkBodies declared (declared.map Prod.fst) s.rules = .ok nodes)
    (hr : a.rules[id]? = some r) (hline : r.IsLine) : ∃ k n, LineOf s a.rules id k n ∧
      ∀ i m o, a.rules[i]? = some o → o.shape.children[m]? = some id →
        i = s.terms.length + k ∧ m = n := by
  have hadds := adds_of_checkBodies hnodes
  obtain ⟨hid, hmem, -⟩ := hproper.registered.line hr hline
  obtain ⟨⟨k, n⟩, decl, hdecl, hname⟩ : ∃ p : Nat × Nat, ∃ decl, s.rules[p.1]? = some decl ∧
      decl.NamesLine p.2 r.name := by
    refine (hadds.old _ hmem).resolve_left fun hdeclared => ?_
    rw [← isSome_lookup_iff, ← hproper.registered.lt_iff hr] at hdeclared
    exact absurd hdeclared (Nat.not_lt.2 hid)
  obtain ⟨id', r', hlineOf, hr', hline', hsame⟩ := exists_lineOf hstage hdecl hname
  obtain rfl := hproper.registered.line_inj hr' hr hline' hline hsame
  refine ⟨k, n, hlineOf, fun i m o ho hchild => ?_⟩
  obtain ⟨k', rfl, hlineOf'⟩ := lineOf_of_child hstage hproper ho hchild hr hline
  obtain ⟨decl', hdecl', hname'⟩ := hlineOf'.namesLine hr
  obtain ⟨rfl, rfl⟩ := Prod.mk.inj
    (hadds.inj (k', m) (k, n) r.name ⟨decl', hdecl', hname'⟩ ⟨decl, hdecl, hname⟩)
  exact ⟨rfl, rfl⟩

end

end Arena

end LanguageWorkbench
