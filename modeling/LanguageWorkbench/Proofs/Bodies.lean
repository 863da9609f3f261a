import LanguageWorkbench.Proofs.UniqueNames

/-!
# What rule bodies become

Bodies are resolved one after the other. What the body of a rule becomes does not depend on
the rest of the text: an element stands for the rule of its name or for the rule made for its
suffix, a line of several elements in an alternative for a sequence of its own.

Results:
* `Arena.Wraps`, `Arena.Stands`, `Arena.LineStands`, `Arena.BodyStands`: what elements, lines
  and bodies stand for.
* `Arena.Grows`: what resolving elements adds to an arena.
* `Arena.Stage`, `Grammar.exists_readFrom`: the arenas between the bodies of a text.
-/

namespace LanguageWorkbench

open Source

namespace Source

/-- The name of the declaration with a number. The terms come first, then the rules. -/
def declaredName? (s : Source) (id : Nat) : Option String :=
  ((declarations s)[id]?).map Mention.name

/-- One of the elements asks for the rule of a base and a suffix. A star asks for the list of
    its base as well. -/
def Asks (s : Source) (es : List Element) (base : RuleId) (suffix : Suffix) : Prop :=
  ∃ e ∈ es, s.declaredName? base = some e.name ∧
    (e.suffix = some suffix ∨ suffix = .plus ∧ e.suffix = some .star)

/-- The elements of a rule body. -/
def RuleDecl.elements (decl : RuleDecl) : List Element := decl.body.flatMap (·.elements)

theorem Asks.mono {s : Source} {es es' : List Element} {base : RuleId} {suffix : Suffix}
    (h : s.Asks es base suffix) (hsub : es ⊆ es') : s.Asks es' base suffix := by
  obtain ⟨e, he, h⟩ := h
  exact ⟨e, hsub he, h⟩

end Source

namespace Arena

/-! ## What parts of a text stand for -/

/-- The rule for a base and a suffix. A star is an option over the list of its base. -/
inductive Wraps (rules : Array Rule) (base : RuleId) : Suffix → RuleId → Prop
  | single {suffix : Suffix} {id : RuleId} {r : Rule} (hstar : suffix ≠ .star)
      (hr : rules[id]? = some r) (hshape : r.shape = suffixShape base suffix) :
      Wraps rules base suffix id
  | star {list id : RuleId} {l r : Rule} (hl : rules[list]? = some l)
      (hlist : l.shape = .plus base) (hr : rules[id]? = some r) (hshape : r.shape = .option list) :
      Wraps rules base .star id

/-- The rule that an element stands for. -/
inductive Stands (s : Source) (rules : Array Rule) (e : Element) : RuleId → Prop
  | plain {base : RuleId} (hbase : s.declaredName? base = some e.name) (hsuffix : e.suffix = none) :
      Stands s rules e base
  | wrapped {base id : RuleId} {suffix : Suffix} (hbase : s.declaredName? base = some e.name)
      (hsuffix : e.suffix = some suffix) (hwraps : Wraps rules base suffix id) :
      Stands s rules e id

/-- The rule of a line of several elements that is the one at `index` of the rule `name`. -/
def lineRule (name : String) (index : Nat) (line : BodyLine) (bits : List RuleId) : Rule :=
  ⟨.inFamily "tree" (line.sequenceName name index) (line.sequenceName name index), line.line,
    .sequence bits true⟩

/-- The rule that the line at `index` of the alternative `name` stands for. -/
inductive LineStands (s : Source) (rules : Array Rule) (name : String) (index : Nat)
    (line : BodyLine) : RuleId → Prop
  | element {e : Element} {id : RuleId} (helements : line.elements = [e])
      (hid : Stands s rules e id) : LineStands s rules name index line id
  | sequence {bits : List RuleId} {id : RuleId} (hlong : 1 < line.elements.length)
      (hbits : List.Forall₂ (Stands s rules) line.elements bits)
      (hid : rules[id]? = some (lineRule name index line bits)) :
      LineStands s rules name index line id

/-- The family of names and the shape that the body of a rule stands for. -/
inductive BodyStands (s : Source) (rules : Array Rule) (decl : RuleDecl) : String → Shape → Prop
  | aliasOf {line : BodyLine} {e : Element} {child : RuleId} (hbody : decl.body = [line])
      (helements : line.elements = [e]) (hchild : Stands s rules e child) :
      BodyStands s rules decl "alias" (.aliasOf child)
  | sequence {line : BodyLine} {bits : List RuleId} (hbody : decl.body = [line])
      (hlong : 1 < line.elements.length)
      (hbits : List.Forall₂ (Stands s rules) line.elements bits) :
      BodyStands s rules decl "tree" (.sequence bits false)
  | alternative {bits : List RuleId} (hbody : decl.body.length ≠ 1)
      (hlength : bits.length = decl.body.length)
      (hbits : ∀ (n : Nat) (line : BodyLine) (bit : RuleId), decl.body[n]? = some line →
        bits[n]? = some bit → LineStands s rules decl.name n line bit) :
      BodyStands s rules decl "any" (.alternative bits)

/-! ## Rules that stay -/

/-- The rules that are no aliases stay. Placeholders, which are replaced, are aliases. -/
def Preserves (rules rules' : Array Rule) : Prop :=
  ∀ (id : RuleId) (r : Rule), rules[id]? = some r → (∀ child, r.shape ≠ .aliasOf child) →
    rules'[id]? = some r

variable {s : Source} {declared : Declared} {nodes nodes' : List String} {a a' a'' : Arena}
  {rules rules' : Array Rule} {id base child : RuleId} {suffix : Suffix} {e : Element}

theorem Keeps.size_le (h : a.Keeps a') : a.rules.size ≤ a'.rules.size := by
  by_contra hlt
  have hlast := h _ _ (Array.getElem?_eq_getElem (Nat.lt_of_not_le hlt))
  rw [Array.getElem?_eq_none (Nat.le_refl _)] at hlast
  cases hlast

theorem Keeps.preserves (h : a.Keeps a') : Preserves a.rules a'.rules := fun id r hr _ => h id r hr

theorem preserves_setIfInBounds {old : Rule} {target : RuleId} (hold : rules[id]? = some old)
    (halias : old.shape = .aliasOf target) (rule : Rule) :
    Preserves rules (rules.setIfInBounds id rule) := by
  intro i r hr hshape
  have hne : id ≠ i := by
    rintro rfl
    obtain rfl := Option.some.inj (hold.symm.trans hr)
    exact hshape target halias
  rw [Array.getElem?_setIfInBounds_ne hne, hr]

theorem suffixShape_ne_aliasOf (child : RuleId) (suffix : Suffix) (target : RuleId) :
    suffixShape child suffix ≠ .aliasOf target := by
  cases suffix <;> exact Shape.noConfusion

theorem Wraps.mono (h : Wraps rules base suffix id) (hp : Preserves rules rules') :
    Wraps rules' base suffix id := by
  cases h with
  | single hstar hr hshape =>
    exact .single hstar (hp _ _ hr (hshape ▸ suffixShape_ne_aliasOf base suffix)) hshape
  | star hl hlist hr hshape =>
    refine .star (hp _ _ hl ?_) hlist (hp _ _ hr ?_) hshape
    · exact hlist ▸ suffixShape_ne_aliasOf base .plus
    · exact hshape ▸ suffixShape_ne_aliasOf _ .optional

theorem Stands.mono (h : Stands s rules e id) (hp : Preserves rules rules') :
    Stands s rules' e id := by
  cases h with
  | plain hbase hsuffix => exact .plain hbase hsuffix
  | wrapped hbase hsuffix hwraps => exact .wrapped hbase hsuffix (hwraps.mono hp)

theorem forall₂_stands_mono {es : List Element} {ids : List RuleId}
    (h : List.Forall₂ (Stands s rules) es ids) (hp : Preserves rules rules') :
    List.Forall₂ (Stands s rules') es ids :=
  h.imp fun _ _ h => h.mono hp

theorem LineStands.mono {name : String} {index : Nat} {line : BodyLine}
    (h : LineStands s rules name index line id) (hp : Preserves rules rules') :
    LineStands s rules' name index line id := by
  cases h with
  | element helements hid => exact .element helements (hid.mono hp)
  | sequence hlong hbits hid =>
    exact .sequence hlong (forall₂_stands_mono hbits hp) (hp _ _ hid fun _ => Shape.noConfusion)

theorem BodyStands.mono {decl : RuleDecl} {family : String} {shape : Shape}
    (h : BodyStands s rules decl family shape) (hp : Preserves rules rules') :
    BodyStands s rules' decl family shape := by
  cases h with
  | aliasOf hbody helements hchild => exact .aliasOf hbody helements (hchild.mono hp)
  | sequence hbody hlong hbits => exact .sequence hbody hlong (forall₂_stands_mono hbits hp)
  | alternative hbody hlength hbits =>
    exact .alternative hbody hlength fun n line bit hline hbit => (hbits n line bit hline hbit).mono hp

/-! ## What resolving adds -/

/-- The rule is made for a suffix, and its canonical name from that of its child. -/
def TaggedAfter (a : Arena) (suffix : Suffix) (id : RuleId) : Prop :=
  ∃ r child c, a.rules[id]? = some r ∧ r.shape = suffixShape child suffix ∧
    a.rules[child]? = some c ∧ r.tag.dash = canonical (family suffix ++ "-" ++ c.tag.dash)

/-- The second arena has the rules of the first, and for each new pair of a base and a suffix
    that the elements ask for a rule with a name after its child. -/
structure Grows (s : Source) (es : List Element) (a a' : Arena) : Prop where
  keeps : a.Keeps a'
  suffixed : ∀ entry ∈ a.suffixed, entry ∈ a'.suffixed
  made : ∀ {base id : RuleId} {suffix : Suffix}, ((base, suffix), id) ∈ a'.suffixed →
    ((base, suffix), id) ∈ a.suffixed ∨ s.Asks es base suffix ∧ a'.TaggedAfter suffix id

theorem TaggedAfter.mono (h : a.TaggedAfter suffix id) (hk : a.Keeps a') :
    a'.TaggedAfter suffix id := by
  obtain ⟨r, child, c, hr, hshape, hc, htag⟩ := h
  exact ⟨r, child, c, hk _ _ hr, hshape, hk _ _ hc, htag⟩

theorem Grows.refl (s : Source) (es : List Element) (a : Arena) : a.Grows s es a :=
  ⟨.refl a, fun _ h => h, .inl⟩

theorem Grows.mono {es es' : List Element} (h : a.Grows s es a') (hsub : es ⊆ es') :
    a.Grows s es' a' :=
  ⟨h.keeps, h.suffixed, fun hmem => (h.made hmem).imp_right fun ⟨hasks, htag⟩ =>
    ⟨hasks.mono hsub, htag⟩⟩

theorem Grows.trans {es : List Element} (h : a.Grows s es a') (h' : a'.Grows s es a'') :
    a.Grows s es a'' := by
  refine ⟨h.keeps.trans h'.keeps, fun entry hentry => h'.suffixed _ (h.suffixed _ hentry),
    fun hmem => ?_⟩
  rcases h'.made hmem with hmem | hnew
  · rcases h.made hmem with hold | ⟨hasks, htag⟩
    · exact .inl hold
    · exact .inr ⟨hasks, htag.mono h'.keeps⟩
  · exact .inr hnew

/-- A rule that is not made for a suffix. -/
theorem Grows.push (es : List Element) (a : Arena) (rule : Rule) :
    a.Grows s es (a.push rule).2 :=
  ⟨fun _ _ => keeps_push, fun _ h => h, .inl⟩

/-! ## Arenas that follow a text -/

/-- The declared rules have the names of the declarations, and the rules for suffixes stand
    over what they are made for. -/
structure Follows (s : Source) (count : Nat) (a : Arena) : Prop where
  named : ∀ {id : RuleId} {r : Rule}, id < count → a.rules[id]? = some r →
    s.declaredName? id = some r.name
  wraps : ∀ {base id : RuleId} {suffix : Suffix}, ((base, suffix), id) ∈ a.suffixed →
    Wraps a.rules base suffix id

/-- All that holds of an arena while the bodies of a text are resolved. -/
structure Proper (s : Source) (declared : Declared) (nodes : List String) (a : Arena) : Prop where
  sound : a.Sound
  registered : a.Registered declared s.tags (Arena.declare s).rules.size nodes
  follows : a.Follows s (Arena.declare s).rules.size

theorem Follows.push {count : Nat} (h : a.Follows s count) (hcount : count ≤ a.rules.size)
    (rule : Rule) : (a.push rule).2.Follows s count := by
  have hk : a.Keeps (a.push rule).2 := fun _ _ => keeps_push
  refine ⟨fun hid hr => ?_, fun hmem => (h.wraps hmem).mono hk.preserves⟩
  rcases getElem?_push_cases hr with hr | ⟨rfl, -⟩
  · exact h.named hid hr
  · exact absurd hcount (Nat.not_le.2 hid)

/-- The rule for a base and a suffix, over the base or, for a star, over its list. -/
theorem Follows.suffixRule {count line : Nat} {visual : String} (h : a.Follows s count)
    (hcount : count ≤ a.rules.size) {c : Rule} (hc : a.rules[child]? = some c)
    (hchild : suffix ≠ .star ∧ child = base ∨ suffix = .star ∧ c.shape = .plus base)
    {es : List Element} (hasks : s.Asks es base suffix)
    (hr : a.suffixRule base child suffix visual line = (id, a')) :
    a'.Follows s count ∧ a.Grows s es a' ∧ Wraps a'.rules base suffix id := by
  cases suffixMove hr with
  | known hmem => exact ⟨h, .refl s es a, h.wraps hmem⟩
  | added =>
    have hk : ∀ {names : List (String × RuleId)} {suffixed : List ((RuleId × Suffix) × RuleId)}
        {rule : Rule}, a.Keeps ⟨a.rules.push rule, names, suffixed⟩ := fun _ _ => keeps_push
    have hwraps : Wraps (a.rules.push ⟨.inFamily (family suffix) (a.dashOf child) visual, line,
        suffixShape child suffix⟩) base suffix a.rules.size := by
      rcases hchild with ⟨hstar, rfl⟩ | ⟨rfl, hlist⟩
      · exact .single hstar Array.getElem?_push_size rfl
      · exact .star (keeps_push hc) hlist Array.getElem?_push_size rfl
    refine ⟨⟨fun hid hr => ?_, fun hmem => ?_⟩, ⟨hk, fun entry hentry =>
      List.mem_cons_of_mem _ hentry, fun hmem => ?_⟩, hwraps⟩
    · rcases getElem?_push_cases hr with hr | ⟨rfl, -⟩
      · exact h.named hid hr
      · exact absurd hcount (Nat.not_le.2 hid)
    · rcases List.mem_cons.1 hmem with heq | hmem
      · obtain ⟨hkey, rfl⟩ := Prod.mk.inj heq
        obtain ⟨rfl, rfl⟩ := Prod.mk.inj hkey
        exact hwraps
      · exact (h.wraps hmem).mono fun _ _ hr _ => keeps_push hr
    · rcases List.mem_cons.1 hmem with heq | hmem
      · obtain ⟨hkey, rfl⟩ := Prod.mk.inj heq
        obtain ⟨rfl, rfl⟩ := Prod.mk.inj hkey
        have hdash : a.dashOf child = c.tag.dash := by
          rw [Arena.dashOf, hc]
          rfl
        refine .inr ⟨hasks, _, child, c, Array.getElem?_push_size, rfl, keeps_push hc, ?_⟩
        rw [← hdash]
        rfl
      · exact .inl hmem

/-! ## Elements -/

theorem Proper.element (h : a.Proper s declared nodes) (line : Nat) {line' : Nat}
    {before : Option Element} (hcheck : checkElement declared line' before e = .ok ())
    (hproper : e.Proper) : ∃ id a', a.element line e = .ok (id, a') ∧
      a'.Proper s declared nodes ∧ a.Grows s [e] a' ∧ Stands s a'.rules e id := by
  obtain ⟨id, a', he, hregistered, -⟩ := h.registered.element h.sound line hcheck hproper
  obtain ⟨base, b, hlookup, hbase, hb, hbname⟩ :=
    h.registered.exists_of_declared h.sound (checkElement_spec hcheck).1
  have hname : s.declaredName? base = some e.name := hbname ▸ h.follows.named hbase hb
  have hcount := h.registered.le_size
  have hasks : ∀ {suffix : Suffix}, e.suffix = some suffix ∨ suffix = .plus ∧ e.suffix = some .star →
      s.Asks [e] base suffix := fun hsuffix => ⟨e, List.mem_singleton_self e, hname, hsuffix⟩
  have hadded : a'.Follows s (Arena.declare s).rules.size ∧ a.Grows s [e] a' ∧
      Stands s a'.rules e id := by
    obtain ⟨base', hlookup', hmove⟩ := elementMove he
    obtain rfl := Option.some.inj (hlookup.symm.trans hlookup')
    cases hmove with
    | plain hsuffix => exact ⟨h.follows, .refl s [e] _, .plain hname hsuffix⟩
    | knownStar hsuffix hmem =>
      exact ⟨h.follows, .refl s [e] _, .wrapped hname hsuffix (h.follows.wraps hmem)⟩
    | @newStar list _ a₁ _ hsuffix hlist hstar =>
      -- an option over the list of the base
      obtain ⟨hf₁, hg₁, hw₁⟩ := h.follows.suffixRule hcount hb (.inl ⟨Suffix.noConfusion, rfl⟩)
        (hasks (.inr ⟨rfl, hsuffix⟩)) hlist
      obtain ⟨_, hl, hlshape⟩ : ∃ l, a₁.rules[list]? = some l ∧ l.shape = .plus base := by
        cases hw₁ with
        | single _ hr hshape => exact ⟨_, hr, hshape⟩
      have hcount₁ := hcount.trans hg₁.keeps.size_le
      obtain ⟨hf₂, hg₂, hw₂⟩ := hf₁.suffixRule hcount₁ hl (.inr ⟨rfl, hlshape⟩)
        (hasks (.inl hsuffix)) hstar
      exact ⟨hf₂, hg₁.trans hg₂, .wrapped hname hsuffix hw₂⟩
    | single hsuffix hne hrule =>
      obtain ⟨hf, hg, hw⟩ := h.follows.suffixRule hcount hb (.inl ⟨hne, rfl⟩)
        (hasks (.inl hsuffix)) hrule
      exact ⟨hf, hg, .wrapped hname hsuffix hw⟩
  exact ⟨id, a', he, ⟨(h.sound.element he).1, hregistered, hadded.1⟩, hadded.2⟩

theorem Proper.elements (line : Nat) {line' : Nat} {es : List Element} : ∀ {a : Arena}
    {before : Option Element}, a.Proper s declared nodes →
    checkElements declared line' before es = .ok () → (∀ e ∈ es, e.Proper) →
    ∃ ids a', a.elements line es = .ok (ids, a') ∧ a'.Proper s declared nodes ∧
      a.Grows s es a' ∧ List.Forall₂ (Stands s a'.rules) es ids := by
  induction es with
  | nil => exact fun {a} _ h _ _ => ⟨[], a, rfl, h, .refl s [] a, .nil⟩
  | cons e es ih =>
    intro a before h hcheck hproper
    obtain ⟨⟨⟩, hcheck₁, hcheck⟩ := bind_eq_ok_iff.1 hcheck
    obtain ⟨hproper₁, hproper⟩ := List.forall_mem_cons.1 hproper
    obtain ⟨id, a₁, h₁, hp₁, hg₁, hid⟩ := h.element line hcheck₁ hproper₁
    obtain ⟨ids, a₂, h₂, hp₂, hg₂, hids⟩ := ih hp₁ hcheck hproper
    refine ⟨id :: ids, a₂, ?_, hp₂, ?_, .cons (hid.mono hg₂.keeps.preserves) hids⟩
    · simp only [Arena.elements, h₁, h₂, bind, Except.bind, pure, Except.pure]
    · exact (hg₁.mono (by simp)).trans (hg₂.mono (List.subset_cons_self ..))

/-! ## Bodies -/

theorem Proper.alternativeLine (h : a.Proper s declared nodes) {name : String} {index : Nat}
    {line : BodyLine} (hread : line.Read) (htag : ∀ tag, line.tag = some tag → tag ∈ s.tags)
    (hcheck : checkLine declared name false nodes index line = .ok nodes') :
    ∃ id a', a.alternativeLine name index line = .ok (id, a') ∧ a'.Proper s declared nodes' ∧
      a.Grows s line.elements a' ∧ LineStands s a'.rules name index line id := by
  obtain ⟨id, a', hline, hregistered, -⟩ := h.registered.alternativeLine h.sound hread htag hcheck
  obtain ⟨hne, text, hparse⟩ := hread
  have hproper := Line.proper_of_parse hparse
  have helements := checkElements_of_checkLine hcheck
  have hadded : a'.Follows s (Arena.declare s).rules.size ∧ a.Grows s line.elements a' ∧
      LineStands s a'.rules name index line id := by
    cases lineMove hline with
    | element heq hmove =>
      rw [heq] at helements hproper
      obtain ⟨⟨⟩, hcheck₁, -⟩ := bind_eq_ok_iff.1 helements
      obtain ⟨_, _, he, hp₁, hg₁, hid⟩ :=
        h.element line.line hcheck₁ (hproper _ (List.mem_singleton_self _))
      obtain ⟨rfl, rfl⟩ := Prod.mk.inj (Except.ok.inj (he.symm.trans hmove))
      exact ⟨hp₁.follows, heq ▸ hg₁, .element heq hid⟩
    | sequence hone hmove =>
      obtain ⟨bits, a₁, h₁, hp₁, hg₁, hbits⟩ := h.elements line.line helements hproper
      obtain ⟨rfl, rfl⟩ := Prod.mk.inj (Except.ok.inj (h₁.symm.trans hmove))
      have hg := hg₁.trans (.push line.elements a₁ (lineRule name index line bits))
      exact ⟨hp₁.follows.push hp₁.registered.le_size _, hg, .sequence (two_le_length hne hone)
        (forall₂_stands_mono hbits (Keeps.preserves fun _ _ => keeps_push))
        Array.getElem?_push_size⟩
  exact ⟨id, a', hline, ⟨(h.sound.alternativeLine hne hline).1, hregistered, hadded.1⟩, hadded.2⟩

theorem Proper.alternativeLines {name : String} {lines : List BodyLine} : ∀ {a : Arena}
    {index : Nat} {nodes : List String}, a.Proper s declared nodes →
    (∀ line ∈ lines, line.Read ∧ ∀ tag, line.tag = some tag → tag ∈ s.tags) →
    checkLines declared name false nodes index lines = .ok nodes' →
    ∃ bits a', a.alternativeLines name index lines = .ok (bits, a') ∧
      a'.Proper s declared nodes' ∧ a.Grows s (lines.flatMap (·.elements)) a' ∧
      bits.length = lines.length ∧ ∀ (n : Nat) (line : BodyLine) (bit : RuleId),
        lines[n]? = some line → bits[n]? = some bit →
          LineStands s a'.rules name (index + n) line bit := by
  induction lines with
  | nil =>
    intro a index nodes h hlines hcheck
    cases hcheck
    exact ⟨[], a, rfl, h, .refl s _ a, rfl, by simp⟩
  | cons line lines ih =>
    intro a index nodes h hlines hcheck
    obtain ⟨nodes₁, hcheck₁, hcheck⟩ := bind_eq_ok_iff.1 hcheck
    obtain ⟨⟨hread, htag⟩, hlines⟩ := List.forall_mem_cons.1 hlines
    obtain ⟨id, a₁, h₁, hp₁, hg₁, hid⟩ := h.alternativeLine hread htag hcheck₁
    obtain ⟨bits, a₂, h₂, hp₂, hg₂, hlength, hbits⟩ := ih hp₁ hlines hcheck
    refine ⟨id :: bits, a₂, ?_, hp₂, ?_, by simp [hlength], fun n l bit hl hbit => ?_⟩
    · simp only [Arena.alternativeLines, h₁, h₂, bind, Except.bind, pure, Except.pure]
    · rw [List.flatMap_cons]
      exact (hg₁.mono (List.subset_append_left ..)).trans (hg₂.mono (List.subset_append_right ..))
    · cases n with
      | zero =>
        cases hl
        cases hbit
        exact hid.mono hg₂.keeps.preserves
      | succ n =>
        have hrest := hbits n l bit hl hbit
        rwa [Nat.add_right_comm, Nat.add_assoc] at hrest

theorem Proper.body (h : a.Proper s declared nodes) {decl : RuleDecl}
    (hlines : ∀ line ∈ decl.body, line.Read ∧ ∀ tag, line.tag = some tag → tag ∈ s.tags)
    (hcheck : checkLines declared decl.name (decl.body.length == 1) nodes 0 decl.body =
      .ok nodes') : ∃ family shape a', a.body decl = .ok (family, shape, a') ∧
        a'.Proper s declared nodes' ∧ a.Grows s decl.elements a' ∧
        BodyStands s a'.rules decl family shape := by
  unfold Arena.body
  split
  · rename_i line hbody
    rw [hbody] at hcheck hlines
    obtain ⟨⟨hne, text, hparse⟩, -⟩ := hlines line (List.mem_singleton_self line)
    have hproper := Line.proper_of_parse hparse
    have helements := checkElements_of_checkLines hcheck line (List.mem_singleton_self line)
    obtain ⟨nodes₁, hline, hcheck⟩ := bind_eq_ok_iff.1 hcheck
    cases hcheck
    obtain rfl := nodes_of_checkLine_single hline
    have hall : decl.elements = line.elements := by simp [RuleDecl.elements, hbody]
    rw [hall]
    split
    · rename_i e heq
      rw [heq] at helements hproper ⊢
      obtain ⟨⟨⟩, hcheck₁, -⟩ := bind_eq_ok_iff.1 helements
      obtain ⟨child, a₁, h₁, hp₁, hg₁, hid⟩ :=
        h.element line.line hcheck₁ (hproper e (List.mem_singleton_self e))
      refine ⟨"alias", .aliasOf child, a₁, ?_, hp₁, hg₁, .aliasOf hbody heq hid⟩
      simp only [h₁, bind, Except.bind, pure, Except.pure]
    · rename_i hone
      obtain ⟨bits, a₁, h₁, hp₁, hg₁, hbits⟩ := h.elements line.line helements hproper
      refine ⟨"tree", .sequence bits false, a₁, ?_, hp₁, hg₁,
        .sequence hbody (two_le_length hne hone) hbits⟩
      simp only [h₁, bind, Except.bind, pure, Except.pure]
  · rename_i hone
    have hmany : decl.body.length ≠ 1 := by
      intro hlength
      obtain ⟨line, hline⟩ := List.length_eq_one_iff.1 hlength
      exact hone line hline
    rw [beq_false_of_ne hmany] at hcheck
    obtain ⟨bits, a₁, h₁, hp₁, hg₁, hlength, hbits⟩ := h.alternativeLines hlines hcheck
    refine ⟨"any", .alternative bits, a₁, ?_, hp₁, hg₁, .alternative hmany hlength ?_⟩
    · simp only [h₁, bind, Except.bind, pure, Except.pure]
    · intro n line bit hl hbit
      have hline := hbits n line bit hl hbit
      rwa [Nat.zero_add] at hline

/-! ## Declarations -/

/-- Rules that are pushed one after the other stand in their order after those before. -/
theorem foldl_push_places {α : Type} (rule : α → Arena → Rule) (xs : List α) : ∀ a : Arena,
    a.Keeps (xs.foldl (fun a x => (a.push (rule x a)).2) a) ∧
      (xs.foldl (fun a x => (a.push (rule x a)).2) a).rules.size = a.rules.size + xs.length ∧
      ∀ k x, xs[k]? = some x → ∃ a' : Arena, a'.rules.size = a.rules.size + k ∧
        (xs.foldl (fun a x => (a.push (rule x a)).2) a).rules[a.rules.size + k]? =
          some (rule x a') := by
  induction xs with
  | nil => exact fun a => ⟨.refl a, rfl, by simp⟩
  | cons x xs ih =>
    intro a
    obtain ⟨hk, hsize, hplaces⟩ := ih (a.push (rule x a)).2
    have hpush : (a.push (rule x a)).2.rules.size = a.rules.size + 1 := Array.size_push _
    refine ⟨Keeps.trans (fun _ _ => keeps_push) hk, ?_, fun k y hy => ?_⟩
    · rw [List.foldl_cons, hsize, hpush, List.length_cons]
      omega
    · cases k with
      | zero =>
        cases hy
        exact ⟨a, rfl, hk _ _ Array.getElem?_push_size⟩
      | succ k =>
        obtain ⟨a', hsize', hplace⟩ := hplaces k y hy
        rw [hpush, Nat.add_assoc, Nat.add_comm 1 k] at hsize' hplace
        exact ⟨a', hsize', hplace⟩

/-- After the first pass the terms stand in their order, and after them the placeholders. -/
theorem declare_places (s : Source) :
    (declare s).rules.size = s.terms.length + s.rules.length ∧
      (∀ (k : Nat) (t : TermDecl), s.terms[k]? = some t → (declare s).rules[k]? = some (termRule t)) ∧
      ∀ (k : Nat) (decl : RuleDecl), s.rules[k]? = some decl → (declare s).rules[s.terms.length + k]? =
        some (placeholder decl (s.terms.length + k)) := by
  obtain ⟨-, hsize, hterms⟩ := foldl_push_places (fun t _ => termRule t) s.terms empty
  obtain ⟨hk, hsize', hrules⟩ := foldl_push_places (fun r a => placeholder r a.rules.size) s.rules
    (s.terms.foldl (fun a t => (a.push (termRule t)).2) empty)
  have hempty : empty.rules.size = 0 := rfl
  rw [hempty, Nat.zero_add] at hsize
  rw [hsize] at hsize' hrules
  refine ⟨hsize', fun k t ht => ?_, fun k decl hdecl => ?_⟩
  · obtain ⟨_, -, hplace⟩ := hterms k t ht
    rw [hempty, Nat.zero_add] at hplace
    exact hk _ _ hplace
  · obtain ⟨a', ha', hplace⟩ := hrules k decl hdecl
    rw [← ha']
    exact ha' ▸ hplace

/-- The declarations are the terms and then the rules. -/
theorem declaredName?_cases {name : String} (h : s.declaredName? id = some name) :
    (∃ t, s.terms[id]? = some t ∧ t.name = name) ∨
      ∃ k decl, id = s.terms.length + k ∧ s.rules[k]? = some decl ∧ decl.name = name := by
  obtain ⟨m, hm, rfl⟩ := Option.map_eq_some_iff.1 h
  rw [declarations, List.getElem?_append] at hm
  split_ifs at hm with hid
  · obtain ⟨t, ht, rfl⟩ := Option.map_eq_some_iff.1 (List.getElem?_map ▸ hm)
    exact .inl ⟨t, ht, rfl⟩
  · obtain ⟨decl, hdecl, rfl⟩ := Option.map_eq_some_iff.1 (List.getElem?_map ▸ hm)
    rw [List.length_map] at hid hdecl
    exact .inr ⟨id - s.terms.length, decl, (Nat.add_sub_of_le (Nat.le_of_not_lt hid)).symm,
      hdecl, rfl⟩

theorem follows_declare (s : Source) : (declare s).Follows s (declare s).rules.size := by
  obtain ⟨hnames, -, hsuffixed, -⟩ := declare_spec s
  refine ⟨fun _ hr => ?_, fun hmem => ?_⟩
  · rw [declaredName?, ← List.getElem?_map, ← hnames, List.getElem?_map, Array.getElem?_toList, hr]
    rfl
  · rw [hsuffixed] at hmem
    cases hmem

theorem proper_declare (h : declareAll [] (declarations s) = .ok declared) :
    (declare s).Proper s declared (declared.map Prod.fst) :=
  ⟨(sound_declare s).1, registered_declare h, follows_declare s⟩

/-! ## Between bodies -/

/-- The rule that takes the place of a placeholder. -/
def bodyRule (decl : RuleDecl) (family : String) (shape : Shape) : Rule :=
  ⟨.inFamily family decl.name decl.name, decl.line, shape⟩

/-- The arena with a rule in the place of another. -/
def replace (a : Arena) (id : RuleId) (rule : Rule) : Arena :=
  { a with rules := a.rules.setIfInBounds id rule }

/-- An arena between two bodies: those of the first `k` rules are resolved. -/
inductive Stage (s : Source) (declared : Declared) : Nat → Arena → Prop
  | start : Stage s declared 0 (declare s)
  | body {k : Nat} {nodes nodes' : List String} {a a' : Arena} {decl : RuleDecl}
      {family : String} {shape : Shape} (hstage : Stage s declared k a)
      (hproper : a.Proper s declared nodes) (hdecl : s.rules[k]? = some decl)
      (hproper' : a'.Proper s declared nodes') (hgrows : a.Grows s decl.elements a')
      (hstands : BodyStands s a'.rules decl family shape) :
      Stage s declared (k + 1) (a'.replace (s.terms.length + k) (bodyRule decl family shape))

variable {k : Nat}

theorem replace_of_ne {rule : Rule} {i : RuleId} (hi : id ≠ i) :
    (a.replace id rule).rules[i]? = a.rules[i]? :=
  Array.getElem?_setIfInBounds_ne hi

theorem replace_self {rule old : Rule} (hold : a.rules[id]? = some old) :
    (a.replace id rule).rules[id]? = some rule :=
  Array.getElem?_setIfInBounds_self_of_lt (Array.getElem?_eq_some_iff.1 hold).1

/-- The terms stay as they are. -/
theorem Stage.term (h : Stage s declared k a) {i : Nat} {t : TermDecl}
    (ht : s.terms[i]? = some t) : a.rules[i]? = some (termRule t) := by
  induction h with
  | start => exact (declare_places s).2.1 i t ht
  | @body k _ _ _ _ _ _ _ _ _ _ _ hgrows _ ih =>
    have hne : s.terms.length + k ≠ i := by
      have := (List.getElem?_eq_some_iff.1 ht).1
      omega
    rw [replace_of_ne hne]
    exact hgrows.keeps _ _ ih

/-- The placeholders of the rules to come stay as they are. -/
theorem Stage.placeholder (h : Stage s declared k a) {j : Nat} {decl : RuleDecl} (hj : k ≤ j)
    (hdecl : s.rules[j]? = some decl) :
    a.rules[s.terms.length + j]? = some (placeholder decl (s.terms.length + j)) := by
  induction h with
  | start => exact (declare_places s).2.2 j decl hdecl
  | @body k _ _ _ _ _ _ _ _ _ _ _ hgrows _ ih =>
    have hne : s.terms.length + k ≠ s.terms.length + j := by omega
    rw [replace_of_ne hne]
    exact hgrows.keeps _ _ (ih (by omega))

/-- The rule that replaces a placeholder leaves all rules that are no aliases. -/
theorem Stage.preserves (h : Stage s declared k a) {decl : RuleDecl}
    (hdecl : s.rules[k]? = some decl) {es : List Element} (hgrows : a.Grows s es a') (rule : Rule) :
    Preserves a'.rules (a'.replace (s.terms.length + k) rule).rules :=
  preserves_setIfInBounds (hgrows.keeps _ _ (h.placeholder (Nat.le_refl k) hdecl)) rfl rule

/-- A resolved body stands for what it says. -/
theorem Stage.resolved (h : Stage s declared k a) {j : Nat} {decl : RuleDecl} (hj : j < k)
    (hdecl : s.rules[j]? = some decl) : ∃ family shape,
      a.rules[s.terms.length + j]? = some (bodyRule decl family shape) ∧
        BodyStands s a.rules decl family shape := by
  induction h with
  | start => omega
  | @body k nodes nodes' a a' decl' family shape hstage _ hdecl' _ hgrows hstands ih =>
    have hp := hstage.preserves hdecl' hgrows (bodyRule decl' family shape)
    rcases Nat.lt_succ_iff_lt_or_eq.1 hj with hj | rfl
    · obtain ⟨family', shape', hrule, hbody⟩ := ih hj
      refine ⟨family', shape', ?_, (hbody.mono hgrows.keeps.preserves).mono hp⟩
      have hne : s.terms.length + k ≠ s.terms.length + j := by omega
      rw [replace_of_ne hne]
      exact hgrows.keeps _ _ hrule
    · obtain rfl := Option.some.inj (hdecl.symm.trans hdecl')
      exact ⟨family, shape, replace_self (hgrows.keeps _ _
        (hstage.placeholder (Nat.le_refl j) hdecl)), hstands.mono hp⟩

theorem Follows.replace {count : Nat} (h : a.Follows s count) {old rule : Rule} {target : RuleId}
    (hold : a.rules[id]? = some old) (halias : old.shape = .aliasOf target)
    (hname : old.name = rule.name) : (a.replace id rule).Follows s count := by
  refine ⟨fun {i r} hi hr => ?_, fun hmem => (h.wraps hmem).mono
    (preserves_setIfInBounds hold halias rule)⟩
  by_cases hne : id = i
  · subst hne
    rw [replace_self hold] at hr
    obtain rfl := Option.some.inj hr
    exact hname ▸ h.named hi hold
  · rw [replace_of_ne hne] at hr
    exact h.named hi hr

theorem Proper.replace (h : a.Proper s declared nodes) {old rule : Rule} {target : RuleId}
    (hid : id < (Arena.declare s).rules.size) (hold : a.rules[id]? = some old)
    (halias : old.shape = .aliasOf target) (hname : old.name = rule.name)
    (hlong : ∀ bits anonymous, rule.shape = .sequence bits anonymous → 2 ≤ bits.length)
    (hline : ¬ rule.IsLine) (hchildren : ∀ child ∈ rule.shape.children, ∃ c,
      a.rules[child]? = some c ∧ (c.IsLine → ∃ bits, rule.shape = .alternative bits)) :
    (a.replace id rule).Proper s declared nodes :=
  ⟨h.sound.replace rule hold hname hlong, h.registered.replace rule hid hold hname hline hchildren,
    h.follows.replace hold halias hname⟩

/-- The bodies that are left are resolved one after the other. -/
theorem Stage.bodies (hread : ∀ decl ∈ s.rules, ∀ line ∈ decl.body, line.Read) :
    ∀ {decls : List RuleDecl} {k : Nat} {nodes : List String} {a : Arena},
      Stage s declared k a → a.Proper s declared nodes → s.rules.drop k = decls →
      checkBodies declared nodes decls = .ok nodes' →
      ∃ a', a.bodies (s.terms.length + k) decls = .ok a' ∧ Stage s declared s.rules.length a' ∧
        a'.Proper s declared nodes' := by
  intro decls
  induction decls with
  | nil =>
    intro k nodes a h hproper hdrop hcheck
    cases hcheck
    have hk : s.rules.length ≤ k := List.drop_eq_nil_iff.1 hdrop
    obtain rfl : k = s.rules.length := by
      cases h with
      | start => omega
      | body _ _ hdecl _ _ _ =>
        have := (List.getElem?_eq_some_iff.1 hdecl).1
        omega
    exact ⟨a, rfl, h, hproper⟩
  | cons decl decls ih =>
    intro k nodes a h hproper hdrop hcheck
    obtain ⟨nodes₁, hcheck₁, hcheck⟩ := bind_eq_ok_iff.1 hcheck
    have hdecl : s.rules[k]? = some decl := by
      rw [← Nat.add_zero k, ← List.getElem?_drop, hdrop]
      rfl
    have hmem : decl ∈ s.rules := List.mem_of_getElem? hdecl
    have hlines : ∀ line ∈ decl.body, line.Read ∧ ∀ tag, line.tag = some tag → tag ∈ s.tags := by
      refine fun line hline => ⟨hread decl hmem line hline, fun tag htag => ?_⟩
      exact List.mem_flatMap.2 ⟨decl, hmem, List.mem_filterMap.2 ⟨line, hline, htag⟩⟩
    obtain ⟨family, shape, a₁, h₁, hp₁, hg₁, hstands⟩ := hproper.body hlines hcheck₁
    -- the same body once more, now for the shape that takes the place of the placeholder
    obtain ⟨_, _, _, h₁', -, hshape, hchildren⟩ :=
      hproper.registered.body hproper.sound hlines hcheck₁
    obtain ⟨rfl, heq⟩ := Prod.mk.inj (Except.ok.inj (h₁.symm.trans h₁'))
    obtain ⟨rfl, rfl⟩ := Prod.mk.inj heq
    have hlong := (hproper.sound.body (fun l hl => (hlines l hl).1.1) h₁).2.2
    have hold := hg₁.keeps _ _ (h.placeholder (Nat.le_refl k) hdecl)
    have hid : s.terms.length + k < (Arena.declare s).rules.size := by
      rw [(declare_places s).1]
      have := (List.getElem?_eq_some_iff.1 hdecl).1
      omega
    have hp₂ : (a₁.replace (s.terms.length + k) (bodyRule decl family shape)).Proper s declared
        nodes₁ := by
      refine hp₁.replace hid hold rfl ?_ hlong ?_ hchildren
      · show decl.name = decl.name
        rfl
      · exact fun ⟨bits, hbits⟩ => hshape bits hbits
    obtain ⟨a', ha', hstage, hp'⟩ := ih (h.body hproper hdecl hp₁ hg₁ hstands) hp₂
      (by rw [← List.drop_drop, hdrop]; rfl) hcheck
    refine ⟨a', ?_, hstage, hp'⟩
    simp only [Arena.bodies, h₁, bind, Except.bind]
    exact ha'

end Arena

namespace Grammar

/-- The grammar is read from a text by way of its parts, the names in it, and the arena after
    the last of its bodies. -/
structure ReadFrom (g : Grammar) (text : String) (s : Source) (declared : Declared)
    (nodes : List String) (a : Arena) : Prop where
  parse : Source.parse text = .ok s
  declares : declareAll [] (declarations s) = .ok declared
  checks : checkBodies declared (declared.map Prod.fst) s.rules = .ok nodes
  stage : Arena.Stage s declared s.rules.length a
  proper : a.Proper s declared nodes
  rules : g.rules = a.rules
  names : g.names = a.names
  declared : g.declared = (Arena.declare s).rules.size

variable {text : String} {g : Grammar} {s : Source} {declared : Declared} {nodes : List String}
  {a : Arena} {id child : RuleId} {r : Rule}

theorem exists_readFrom (h : read text = .ok g) : ∃ s declared nodes a,
    g.ReadFrom text s declared nodes a := by
  obtain ⟨s, hs, h⟩ := bind_eq_ok_iff.1 h
  obtain ⟨_, hnames, h⟩ := bind_eq_ok_iff.1 h
  rw [mapError_eq_ok_iff] at hs hnames h
  obtain ⟨declared, nodes, hdeclared, hnodes, -⟩ := checkNames_spec hnames
  obtain ⟨a, ha, hstage, hproper⟩ := Arena.Stage.bodies (Source.read_of_parse hs) .start
    (Arena.proper_declare hdeclared) rfl hnodes
  obtain ⟨a', ha', h⟩ := bind_eq_ok_iff.1 h
  obtain ⟨start, -, h⟩ := bind_eq_ok_iff.1 h
  obtain ⟨collapse, -, h⟩ := bind_eq_ok_iff.1 h
  obtain ⟨spacing, -, h⟩ := bind_eq_ok_iff.1 h
  cases h
  obtain rfl : a = a' := Except.ok.inj (ha.symm.trans ha')
  exact ⟨s, declared, nodes, a, hs, hdeclared, hnodes, hstage, hproper, rfl, rfl, rfl⟩

theorem ReadFrom.rule?_eq (h : g.ReadFrom text s declared nodes a) (id : RuleId) :
    g.rule? id = a.rules[id]? := by
  rw [rule?, h.rules]

theorem ReadFrom.exists_of_shape? (h : g.ReadFrom text s declared nodes a) {shape : Shape}
    (hshape : g.shape? id = some shape) : ∃ r, a.rules[id]? = some r ∧ r.shape = shape :=
  Option.map_eq_some_iff.1 (h.rule?_eq id ▸ hshape)

/-- The rules that a rule refers to are there. -/
theorem ReadFrom.exists_child (h : g.ReadFrom text s declared nodes a) (hr : g.rule? id = some r)
    (hchild : child ∈ r.shape.children) : ∃ c, g.rule? child = some c := by
  rw [h.rule?_eq] at hr
  obtain ⟨c, hc, -⟩ := h.proper.registered.children hr hchild
  exact ⟨c, by rw [h.rule?_eq, hc]⟩

end Grammar

end LanguageWorkbench
