import LanguageWorkbench.Grammar.Load
import LanguageWorkbench.Proofs.Outcome

/-!
# What resolving names leaves

The arena of a grammar text only grows, apart from the placeholders that it replaces one
by one. On the way every name leads to a rule of that name, and every sequence has at
least two bits.

Results:
* `Arena.Sound`, `Arena.Keeps`: the invariant of the arena, and how it grows.
* `Arena.SuffixMove`, `Arena.ElementMove`, `Arena.LineMove`, `Arena.BodyMove`: the ways to
  resolve each part of a body.
* `Grammar.Sound`, `Grammar.sound_of_load`: what holds of the rules of a loaded grammar.
-/

namespace LanguageWorkbench

open Source

namespace Arena

/-- Names lead to rules of that name, and sequences have several bits. -/
structure Sound (a : Arena) : Prop where
  named : ∀ {name : String} {id : RuleId}, (name, id) ∈ a.names →
    ∃ rule, a.rules[id]? = some rule ∧ rule.name = name
  long : ∀ {rule : Rule} {bits : List RuleId} {anonymous : Bool}, rule ∈ a.rules →
    rule.shape = .sequence bits anonymous → 2 ≤ bits.length

/-- The second arena has all rules of the first, with their numbers. -/
def Keeps (a a' : Arena) : Prop :=
  ∀ (id : RuleId) (rule : Rule), a.rules[id]? = some rule → a'.rules[id]? = some rule

variable {a a' a'' : Arena} {id : RuleId}

theorem Keeps.refl (a : Arena) : a.Keeps a := fun _ _ h => h

theorem Keeps.trans (h : a.Keeps a') (h' : a'.Keeps a'') : a.Keeps a'' :=
  fun id rule hr => h' id rule (h id rule hr)

theorem keeps_push {rules : Array Rule} {rule r : Rule} (h : rules[id]? = some r) :
    (rules.push rule)[id]? = some r := by
  have hlt := (Array.getElem?_eq_some_iff.1 h).1
  rw [Array.getElem?_push_lt hlt, ← h, Array.getElem?_eq_getElem hlt]

/-- Names stay sound when rules are added and names lead to them. -/
theorem Sound.add (h : a.Sound) (rule : Rule) {names : List (String × RuleId)}
    {suffixed : List ((RuleId × Suffix) × RuleId)}
    (hnames : ∀ n ∈ names, n ∈ a.names ∨ n = (rule.name, a.rules.size))
    (hlong : ∀ bits anonymous, rule.shape = .sequence bits anonymous → 2 ≤ bits.length) :
    Sound ⟨a.rules.push rule, names, suffixed⟩ := by
  constructor
  · intro name id hn
    rcases hnames _ hn with hn | hn
    · obtain ⟨r, hr, hname⟩ := h.named hn
      exact ⟨r, keeps_push hr, hname⟩
    · obtain ⟨rfl, rfl⟩ := Prod.mk.inj hn
      exact ⟨rule, Array.getElem?_push_size, rfl⟩
  · intro r bits anonymous hr hshape
    rcases Array.mem_push.1 hr with hr | rfl
    · exact h.long hr hshape
    · exact hlong bits anonymous hshape

/-! ## Elements -/

theorem Sound.push (h : a.Sound) (rule : Rule)
    (hlong : ∀ bits anonymous, rule.shape = .sequence bits anonymous → 2 ≤ bits.length) :
    (a.push rule).2.Sound ∧ a.Keeps (a.push rule).2 := by
  refine ⟨h.add rule (fun n hn => ?_) hlong, fun _ _ => keeps_push⟩
  rcases List.mem_cons.1 hn with rfl | hn
  · exact .inr rfl
  · exact .inl hn

/-- The rule for a base and a suffix was made before, or it is added, and its name leads to
    it unless the name is taken. -/
inductive SuffixMove (a : Arena) (base child : RuleId) (suffix : Suffix) (visual : String)
    (line : Nat) : RuleId → Arena → Prop
  | known {id : RuleId} (hmem : ((base, suffix), id) ∈ a.suffixed) :
      SuffixMove a base child suffix visual line id a
  | added {names : List (String × RuleId)} (hnone : ∀ id, ((base, suffix), id) ∉ a.suffixed)
      (hnames : names = a.names ∧ (a.names.lookup visual).isSome = true ∨
        names = (visual, a.rules.size) :: a.names ∧ a.names.lookup visual = none) :
      SuffixMove a base child suffix visual line a.rules.size
        ⟨a.rules.push ⟨.inFamily (family suffix) (a.dashOf child) visual, line,
          suffixShape child suffix⟩, names, ((base, suffix), a.rules.size) :: a.suffixed⟩

/-- The rule that an element stands for, if its name leads to `base`. -/
inductive ElementMove (a : Arena) (line : Nat) (e : Element) (base : RuleId) :
    RuleId → Arena → Prop
  | plain (hsuffix : e.suffix = none) : ElementMove a line e base base a
  | knownStar {id : RuleId} (hsuffix : e.suffix = some .star)
      (hmem : ((base, .star), id) ∈ a.suffixed) : ElementMove a line e base id a
  | newStar {list id : RuleId} {a₁ a' : Arena} (hsuffix : e.suffix = some .star)
      (hlist : a.suffixRule base base .plus { e with suffix := some .plus }.visual line = (list, a₁))
      (hstar : a₁.suffixRule base list .star e.visual line = (id, a')) :
      ElementMove a line e base id a'
  | single {suffix : Suffix} {id : RuleId} {a' : Arena} (hsuffix : e.suffix = some suffix)
      (hne : suffix ≠ .star) (hrule : a.suffixRule base base suffix e.visual line = (id, a')) :
      ElementMove a line e base id a'

section

variable {base child : RuleId} {suffix : Suffix} {visual : String} {line : Nat} {e : Element}

theorem suffixMove (hr : a.suffixRule base child suffix visual line = (id, a')) :
    a.SuffixMove base child suffix visual line id a' := by
  unfold Arena.suffixRule at hr
  split at hr
  · rename_i hfound
    cases hr
    exact .known (mem_of_lookup hfound)
  · rename_i hnone
    cases hr
    refine .added (not_mem_of_lookup hnone) ?_
    split
    · rename_i htaken
      exact .inl ⟨rfl, htaken⟩
    · rename_i hfree
      exact .inr ⟨rfl, Option.not_isSome_iff_eq_none.1 hfree⟩

theorem elementMove (he : a.element line e = .ok (id, a')) :
    ∃ base, a.names.lookup e.name = some base ∧ a.ElementMove line e base id a' := by
  unfold Arena.element at he
  split at he
  · cases he
  · rename_i base hbase
    refine ⟨base, hbase, ?_⟩
    split at he
    · rename_i hsuffix
      cases he
      exact .plain hsuffix
    · rename_i hsuffix
      split at he
      · rename_i hfound
        cases he
        exact .knownStar hsuffix (mem_of_lookup hfound)
      · exact .newStar hsuffix rfl (Except.ok.inj he)
    · rename_i hne hsuffix
      exact .single hsuffix hne (Except.ok.inj he)

/-- An element has a rule if its name leads to one. -/
theorem exists_element (line : Nat) (h : (a.names.lookup e.name).isSome = true) :
    ∃ id a', a.element line e = .ok (id, a') := by
  obtain ⟨base, hbase⟩ := Option.isSome_iff_exists.1 h
  unfold Arena.element
  rw [hbase]
  dsimp only
  split
  · exact ⟨_, _, rfl⟩
  · split <;> exact ⟨_, _, rfl⟩
  · exact ⟨_, _, rfl⟩

theorem Sound.suffixRule (h : a.Sound)
    (hr : a.suffixRule base child suffix visual line = (id, a')) : a'.Sound ∧ a.Keeps a' := by
  cases suffixMove hr with
  | known => exact ⟨h, .refl a⟩
  | added _ hnames =>
    refine ⟨h.add _ (fun n hn => ?_) ?_, fun _ _ => keeps_push⟩
    · rcases hnames with ⟨rfl, -⟩ | ⟨rfl, -⟩
      · exact .inl hn
      · exact (List.mem_cons.1 hn).symm
    · intro bits anonymous hshape
      cases suffix <;> cases hshape

theorem Sound.element (h : a.Sound) (he : a.element line e = .ok (id, a')) :
    a'.Sound ∧ a.Keeps a' := by
  obtain ⟨base, -, hmove⟩ := elementMove he
  cases hmove with
  | plain => exact ⟨h, .refl a⟩
  | knownStar => exact ⟨h, .refl a⟩
  | newStar _ hlist hstar =>
    obtain ⟨h₁, hk₁⟩ := h.suffixRule hlist
    obtain ⟨h₂, hk₂⟩ := h₁.suffixRule hstar
    exact ⟨h₂, hk₁.trans hk₂⟩
  | single _ _ hrule => exact h.suffixRule hrule

end

theorem Sound.elements (h : a.Sound) {line : Nat} {es : List Element} {ids : List RuleId}
    (he : a.elements line es = .ok (ids, a')) :
    a'.Sound ∧ a.Keeps a' ∧ ids.length = es.length := by
  induction es generalizing a ids with
  | nil =>
    cases he
    exact ⟨h, .refl _, rfl⟩
  | cons e es ih =>
    obtain ⟨⟨id, a₁⟩, h₁, he⟩ := bind_eq_ok_iff.1 he
    obtain ⟨⟨ids', a₂⟩, h₂, he⟩ := bind_eq_ok_iff.1 he
    cases he
    obtain ⟨hs₁, hk₁⟩ := h.element h₁
    obtain ⟨hs₂, hk₂, hlen⟩ := ih hs₁ h₂
    exact ⟨hs₂, hk₁.trans hk₂, by simp [hlen]⟩

/-! ## Bodies -/

/-- Several elements make a sequence of several bits. -/
theorem two_le_length {es : List Element} (hne : es ≠ []) (hone : ∀ e, es = [e] → False) :
    2 ≤ es.length := by
  match es with
  | [] => exact absurd rfl hne
  | [e] => exact (hone e rfl).elim
  | _ :: _ :: _ => simp

/-- The rule that a line of an alternative stands for: that of its only element, or a
    sequence that is added. -/
inductive LineMove (a : Arena) (rule : String) (index : Nat) (line : BodyLine) :
    RuleId → Arena → Prop
  | element {e : Element} {id : RuleId} {a' : Arena} (helements : line.elements = [e])
      (he : a.element line.line e = .ok (id, a')) : LineMove a rule index line id a'
  | sequence {bits : List RuleId} {a₁ : Arena} (hone : ∀ e, line.elements = [e] → False)
      (hbits : a.elements line.line line.elements = .ok (bits, a₁)) :
      LineMove a rule index line a₁.rules.size (a₁.push ⟨.inFamily "tree"
        (line.sequenceName rule index) (line.sequenceName rule index), line.line,
          .sequence bits true⟩).2

/-- The family and the shape of a rule, by the lines of its body. -/
inductive BodyMove (a : Arena) (decl : RuleDecl) : String → Shape → Arena → Prop
  | aliasOf {line : BodyLine} {e : Element} {child : RuleId} {a' : Arena}
      (hbody : decl.body = [line]) (helements : line.elements = [e])
      (he : a.element line.line e = .ok (child, a')) :
      BodyMove a decl "alias" (.aliasOf child) a'
  | sequence {line : BodyLine} {bits : List RuleId} {a' : Arena} (hbody : decl.body = [line])
      (hone : ∀ e, line.elements = [e] → False)
      (hbits : a.elements line.line line.elements = .ok (bits, a')) :
      BodyMove a decl "tree" (.sequence bits false) a'
  | alternative {bits : List RuleId} {a' : Arena} (hmany : ∀ line, decl.body = [line] → False)
      (hbits : a.alternativeLines decl.name 0 decl.body = .ok (bits, a')) :
      BodyMove a decl "any" (.alternative bits) a'

theorem lineMove {rule : String} {index : Nat} {line : BodyLine}
    (hl : a.alternativeLine rule index line = .ok (id, a')) :
    a.LineMove rule index line id a' := by
  unfold Arena.alternativeLine at hl
  split at hl
  · rename_i helements
    exact .element helements hl
  · rename_i hone
    obtain ⟨⟨bits, a₁⟩, hbits, hl⟩ := bind_eq_ok_iff.1 hl
    cases hl
    exact .sequence hone hbits

theorem bodyMove {decl : RuleDecl} {family : String} {shape : Shape}
    (hb : a.body decl = .ok (family, shape, a')) : a.BodyMove decl family shape a' := by
  unfold Arena.body at hb
  split at hb
  · rename_i hbody
    split at hb
    · rename_i helements
      obtain ⟨⟨child, a₁⟩, he, hb⟩ := bind_eq_ok_iff.1 hb
      cases hb
      exact .aliasOf hbody helements he
    · rename_i hone
      obtain ⟨⟨bits, a₁⟩, hbits, hb⟩ := bind_eq_ok_iff.1 hb
      cases hb
      exact .sequence hbody hone hbits
  · rename_i hmany
    obtain ⟨⟨bits, a₁⟩, hbits, hb⟩ := bind_eq_ok_iff.1 hb
    cases hb
    exact .alternative hmany hbits

theorem Sound.alternativeLine (h : a.Sound) {rule : String} {index : Nat} {line : BodyLine}
    (hne : line.elements ≠ []) (hl : a.alternativeLine rule index line = .ok (id, a')) :
    a'.Sound ∧ a.Keeps a' := by
  cases lineMove hl with
  | element _ he => exact h.element he
  | @sequence bits _ hone hbits =>
    obtain ⟨hs₁, hk₁, hlen⟩ := h.elements hbits
    have hlong := two_le_length hne hone
    obtain ⟨hs, hk⟩ := hs₁.push ⟨.inFamily "tree" (line.sequenceName rule index)
      (line.sequenceName rule index), line.line, .sequence bits true⟩ (by
        intro bits' anonymous hshape
        cases hshape
        omega)
    exact ⟨hs, hk₁.trans hk⟩

theorem Sound.alternativeLines (h : a.Sound) {rule : String} {index : Nat}
    {lines : List BodyLine} {bits : List RuleId} (hne : ∀ line ∈ lines, line.elements ≠ [])
    (hl : a.alternativeLines rule index lines = .ok (bits, a')) : a'.Sound ∧ a.Keeps a' := by
  induction lines generalizing a index bits with
  | nil =>
    cases hl
    exact ⟨h, .refl _⟩
  | cons line lines ih =>
    obtain ⟨⟨id, a₁⟩, h₁, hl⟩ := bind_eq_ok_iff.1 hl
    obtain ⟨⟨ids, a₂⟩, h₂, hl⟩ := bind_eq_ok_iff.1 hl
    cases hl
    obtain ⟨hs₁, hk₁⟩ := h.alternativeLine (hne _ List.mem_cons_self) h₁
    obtain ⟨hs₂, hk₂⟩ := ih hs₁ (fun l hl => hne l (List.mem_cons_of_mem _ hl)) h₂
    exact ⟨hs₂, hk₁.trans hk₂⟩

theorem Sound.body (h : a.Sound) {decl : RuleDecl} {family : String} {shape : Shape}
    (hne : ∀ line ∈ decl.body, line.elements ≠ [])
    (hb : a.body decl = .ok (family, shape, a')) :
    a'.Sound ∧ a.Keeps a' ∧
      ∀ bits anonymous, shape = .sequence bits anonymous → 2 ≤ bits.length := by
  cases bodyMove hb with
  | aliasOf _ _ he =>
    obtain ⟨hs, hk⟩ := h.element he
    exact ⟨hs, hk, by simp⟩
  | @sequence line _ _ hbody hone hbits =>
    have hline : line.elements ≠ [] := hne line (by rw [hbody]; exact List.mem_singleton_self _)
    obtain ⟨hs, hk, hlen⟩ := h.elements hbits
    have hlong := two_le_length hline hone
    exact ⟨hs, hk, by rintro _ _ ⟨⟩; omega⟩
  | alternative _ hbits =>
    obtain ⟨hs, hk⟩ := h.alternativeLines hne hbits
    exact ⟨hs, hk, by simp⟩

/-- A placeholder is replaced by a rule of its name. -/
theorem Sound.replace (h : a.Sound) (rule : Rule) {old : Rule} (hold : a.rules[id]? = some old)
    (hname : old.name = rule.name)
    (hlong : ∀ bits anonymous, rule.shape = .sequence bits anonymous → 2 ≤ bits.length) :
    Sound { a with rules := a.rules.setIfInBounds id rule } := by
  constructor
  · intro name i hn
    obtain ⟨r, hr, hrname⟩ := h.named hn
    by_cases hi : id = i
    · subst hi
      obtain rfl := Option.some.inj (hold.symm.trans hr)
      have hlt := (Array.getElem?_eq_some_iff.1 hold).1
      exact ⟨rule, Array.getElem?_setIfInBounds_self_of_lt hlt, hname ▸ hrname⟩
    · exact ⟨r, by rw [Array.getElem?_setIfInBounds_ne hi, hr], hrname⟩
  · intro r bits anonymous hr hshape
    rcases Array.mem_or_eq_of_mem_setIfInBounds hr with hr | rfl
    · exact h.long hr hshape
    · exact hlong bits anonymous hshape

theorem Sound.bodies (h : a.Sound) {id : Nat} {decls : List RuleDecl}
    (hne : ∀ decl ∈ decls, ∀ line ∈ decl.body, line.elements ≠ [])
    (hplaces : ∀ k decl, decls[k]? = some decl →
      ∃ rule, a.rules[id + k]? = some rule ∧ rule.name = decl.name)
    (hb : a.bodies id decls = .ok a') : a'.Sound := by
  induction decls generalizing a id with
  | nil =>
    cases hb
    exact h
  | cons decl decls ih =>
    obtain ⟨⟨family, shape, a₁⟩, h₁, hb⟩ := bind_eq_ok_iff.1 hb
    obtain ⟨hs, hk, hlong⟩ := h.body (hne decl List.mem_cons_self) h₁
    obtain ⟨old, hold, hname⟩ := hplaces 0 decl rfl
    have hold' : a₁.rules[id]? = some old := hk _ _ hold
    refine ih (hs.replace ⟨.inFamily family decl.name decl.name, decl.line, shape⟩ hold' hname hlong)
      (fun d hd => hne d (List.mem_cons_of_mem _ hd)) ?_ hb
    intro k d hd
    obtain ⟨r, hr, hrname⟩ := hplaces (k + 1) d hd
    have hne : id ≠ id + 1 + k := by omega
    refine ⟨r, ?_, hrname⟩
    show (a₁.rules.setIfInBounds id _)[id + 1 + k]? = some r
    rw [Array.getElem?_setIfInBounds_ne hne, Nat.add_assoc, Nat.add_comm 1 k]
    exact hk _ _ hr

/-! ## Whole texts -/

theorem Sound.terms (h : a.Sound) (terms : List TermDecl) :
    (terms.foldl (fun a t => (a.push (termRule t)).2) a).Sound := by
  induction terms generalizing a with
  | nil => exact h
  | cons t terms ih => exact ih (h.push (termRule t) (by simp [termRule])).1

/-- The placeholders stand after the terms, in the order of the declarations. -/
theorem Sound.placeholders (h : a.Sound) (rules : List RuleDecl) :
    (rules.foldl (fun a r => (a.push (placeholder r a.rules.size)).2) a).Sound ∧
      a.Keeps (rules.foldl (fun a r => (a.push (placeholder r a.rules.size)).2) a) ∧
      ∀ k decl, rules[k]? = some decl →
        (rules.foldl (fun a r => (a.push (placeholder r a.rules.size)).2) a).rules[a.rules.size + k]? =
          some (placeholder decl (a.rules.size + k)) := by
  induction rules generalizing a with
  | nil => exact ⟨h, .refl a, by simp⟩
  | cons r rules ih =>
    obtain ⟨hs, hk⟩ := h.push (placeholder r a.rules.size) (by simp [placeholder])
    obtain ⟨hs', hk', hplaces⟩ := ih hs
    refine ⟨hs', hk.trans hk', fun k decl hdecl => ?_⟩
    cases k with
    | zero =>
      cases hdecl
      exact hk' _ _ Array.getElem?_push_size
    | succ k =>
      have hplace := hplaces k decl hdecl
      have hsize : (a.push (placeholder r a.rules.size)).2.rules.size + k =
          a.rules.size + (k + 1) := by
        simp [Arena.push]
        omega
      rwa [hsize] at hplace

theorem size_terms {terms : List TermDecl} :
    (terms.foldl (fun a t => (a.push (termRule t)).2) a).rules.size =
      a.rules.size + terms.length := by
  induction terms generalizing a with
  | nil => rfl
  | cons t terms ih =>
    rw [List.foldl_cons, ih]
    simp [Arena.push]
    omega

/-- After the first pass the placeholders of the rules stand after the terms. -/
theorem sound_declare (s : Source) : (declare s).Sound ∧
    ∀ k decl, s.rules[k]? = some decl →
      (declare s).rules[s.terms.length + k]? = some (placeholder decl (s.terms.length + k)) := by
  have hempty : empty.Sound := ⟨fun hn => absurd hn List.not_mem_nil, fun hr => by
    simp [empty] at hr⟩
  obtain ⟨hdeclared, -, hplaces⟩ := (hempty.terms s.terms).placeholders s.rules
  rw [size_terms] at hplaces
  exact ⟨hdeclared, by simpa [declare, empty] using hplaces⟩

end Arena

namespace Source

/-- A line of a rule body that was read, with an element. -/
def BodyLine.Read (line : BodyLine) : Prop :=
  line.elements ≠ [] ∧ ∃ text, Line.parse text = .ok (line.elements, line.tag)

/-- All lines of rule bodies are such. -/
def Draft.Filled (d : Draft) : Prop := ∀ decl ∈ d.rules, ∀ line ∈ decl.body, line.Read

variable {d d' : Draft}

theorem addSpacing_rules {line least : Nat} {word : String} {kind : SpacingKind}
    {args : List (List Char)} (h : d.addSpacing line word kind least args = .ok d') :
    d'.rules = d.rules := by
  unfold Draft.addSpacing at h
  split at h
  · split_ifs at h
    cases h
    rfl
  · cases h

/-- Directives leave the rules alone. -/
theorem addDirective_rules {line : Nat} {word : String} {rest : List Char}
    (h : d.addDirective line word rest = .ok d') : d'.rules = d.rules := by
  unfold Draft.addDirective at h
  dsimp only at h
  split at h
  all_goals try split_ifs at h
  all_goals first
    | exact addSpacing_rules h
    | cases h <;> rfl
    | (obtain ⟨_, -, h⟩ := bind_eq_ok_iff.1 h
       first
       | (cases h; rfl)
       | (split_ifs at h <;> cases h; rfl))

theorem Draft.Filled.bodyLine (h : d.Filled) {line : Nat} {text : List Char}
    (hl : d.bodyLine line text = .ok d') : d'.Filled := by
  obtain ⟨⟨elements, tag⟩, hread, hl⟩ := bind_eq_ok_iff.1 hl
  rw [mapError_eq_ok_iff] at hread
  dsimp only at hl
  split at hl
  · cases hl
  · rename_i rule rules hrules
    split_ifs at hl with hempty
    · cases hl
    · cases hl
      intro decl hdecl l hline
      rcases List.mem_cons.1 hdecl with rfl | hdecl
      · rcases List.mem_append.1 hline with hline | hline
        · exact h rule (by rw [hrules]; exact List.mem_cons_self) l hline
        · rw [List.mem_singleton.1 hline]
          exact ⟨by simpa using hempty, text, hread⟩
      · exact h decl (by rw [hrules]; exact List.mem_cons_of_mem _ hdecl) l hline

theorem Draft.Filled.ruleHeader (h : d.Filled) {line : Nat} {name : List Char}
    (hl : d.ruleHeader line name = .ok d') : d'.Filled := by
  unfold Draft.ruleHeader at hl
  split_ifs at hl
  all_goals first
    | cases hl
    | (obtain ⟨_, -, hl⟩ := bind_eq_ok_iff.1 hl
       cases hl
       intro decl hdecl l hline
       rcases List.mem_cons.1 hdecl with rfl | hdecl
       · cases hline
       · exact h decl hdecl l hline)

theorem Draft.Filled.addLine (h : d.Filled) {line : Nat} {raw : List Char}
    (hl : d.addLine line raw = .ok d') : d'.Filled := by
  unfold Draft.addLine at hl
  dsimp only at hl
  split_ifs at hl
  · cases hl
    exact h
  · exact h.bodyLine hl
  · exact h.ruleHeader hl
  · unfold Draft.directive at hl
    dsimp only at hl
    split_ifs at hl
    rw [mapError_eq_ok_iff] at hl
    intro decl hdecl
    rw [addDirective_rules hl] at hdecl
    exact h decl hdecl

theorem Draft.Filled.addLines (h : d.Filled) {line : Nat} {lines : List (List Char)}
    (hl : d.addLines line lines = .ok d') : d'.Filled := by
  induction lines generalizing d line with
  | nil =>
    cases hl
    exact h
  | cons raw lines ih =>
    obtain ⟨d₁, h₁, hl⟩ := bind_eq_ok_iff.1 hl
    exact ih (h.addLine h₁) hl

/-- The body lines of a grammar text are read from it and have elements. -/
theorem read_of_parse {text : String} {s : Source} (h : parse text = .ok s) :
    ∀ decl ∈ s.rules, ∀ line ∈ decl.body, line.Read := by
  obtain ⟨d, hd, h⟩ := bind_eq_ok_iff.1 h
  have hempty : Draft.empty.Filled := by
    intro decl hdecl
    cases hdecl
  have hfilled := hempty.addLines hd
  obtain ⟨_, -, h⟩ := bind_eq_ok_iff.1 h
  split at h
  · split at h
    · cases h
      intro decl hdecl
      exact hfilled decl (List.mem_reverse.1 hdecl)
    · cases h
  · cases h

/-- The body lines of a grammar text have elements. -/
theorem filled_of_parse {text : String} {s : Source} (h : parse text = .ok s) :
    ∀ decl ∈ s.rules, ∀ line ∈ decl.body, line.elements ≠ [] :=
  fun decl hdecl line hline => (read_of_parse h decl hdecl line hline).1

end Source

namespace Grammar

/-- What holds of the rules of a loaded grammar: names lead to rules of that name, among
    them the start rule, and sequences have several bits. -/
structure Sound (g : Grammar) : Prop where
  named : ∀ {name : String} {id : RuleId}, g.lookup name = some id →
    ∃ rule, g.rule? id = some rule ∧ rule.name = name
  long : ∀ {id : RuleId} {bits : List RuleId} {anonymous : Bool},
    g.shape? id = some (.sequence bits anonymous) → 2 ≤ bits.length
  start : g.lookup (g.nameOf g.start) = some g.start

theorem sound_of_ofSource {s : Source} {g : Grammar}
    (hne : ∀ decl ∈ s.rules, ∀ line ∈ decl.body, line.elements ≠ [])
    (h : ofSource s = .ok g) : g.Sound := by
  obtain ⟨a, ha, h⟩ := bind_eq_ok_iff.1 h
  obtain ⟨start, hstart, h⟩ := bind_eq_ok_iff.1 h
  obtain ⟨collapse, -, h⟩ := bind_eq_ok_iff.1 h
  obtain ⟨spacing, -, h⟩ := bind_eq_ok_iff.1 h
  cases h
  obtain ⟨hdeclared, hplaces⟩ := Arena.sound_declare s
  have hsound := hdeclared.bodies hne (fun k decl hdecl => ⟨_, hplaces k decl hdecl, rfl⟩) ha
  have hnamed : ∀ {name : String} {id : RuleId}, a.names.lookup name = some id →
      ∃ rule, a.rules[id]? = some rule ∧ rule.name = name := by
    intro name id hlookup
    exact hsound.named (mem_of_lookup hlookup)
  refine ⟨hnamed, fun hshape => ?_, ?_⟩
  · obtain ⟨rule, hrule, hshape⟩ := Option.map_eq_some_iff.1 hshape
    exact hsound.long (Array.mem_of_getElem? hrule) hshape
  · unfold Arena.find at hstart
    split at hstart
    · rename_i id hlookup
      cases hstart
      obtain ⟨rule, hrule, hname⟩ := hnamed hlookup
      simp only [lookup, nameOf, rule?, hrule, Option.map_some, Option.getD_some, hname, hlookup]
    · cases hstart

theorem check_of_load {text : String} {g : Grammar} (h : load text = .ok g) : g.check = .ok () := by
  obtain ⟨g', -, h⟩ := bind_eq_ok_iff.1 h
  obtain ⟨u, hcheck, h⟩ := bind_eq_ok_iff.1 h
  cases h
  exact mapError_eq_ok_iff.1 hcheck

theorem sound_of_load {text : String} {g : Grammar} (h : load text = .ok g) : g.Sound := by
  obtain ⟨g', hread, h⟩ := bind_eq_ok_iff.1 h
  obtain ⟨_, -, h⟩ := bind_eq_ok_iff.1 h
  cases h
  obtain ⟨s, hs, hread⟩ := bind_eq_ok_iff.1 hread
  obtain ⟨_, -, hread⟩ := bind_eq_ok_iff.1 hread
  rw [mapError_eq_ok_iff] at hs hread
  exact sound_of_ofSource (Source.filled_of_parse hs) hread

end Grammar

end LanguageWorkbench
