import LanguageWorkbench.Proofs.Resolving

/-!
# Where dependents stand

A dependent element is refused unless an element that may be absent stands directly before
it in its line. So in the arena a dependent is a bit of sequences only, and the bit before
it is an option or a dependent.

Results:
* `Shape.Attached`: bits in which an option or a dependent comes before every dependent.
* `Arena.Orderly`: the invariant of the arena.
* `Grammar.attached_of_load`, `Grammar.plain_of_load`: sequences are attached, and the
  children of other rules are no dependents.
-/

namespace LanguageWorkbench

open Source

/-! ## Bits -/

namespace Shape

variable (shape? : RuleId → Option Shape)

/-- There is a rule with this number, and it is no dependent. -/
def Plain (id : RuleId) : Prop :=
  ∃ shape, shape? id = some shape ∧ ∀ child, shape ≠ .dependent child

/-- The rule is an option or a dependent. -/
def Opens (id : RuleId) : Prop :=
  ∃ child, shape? id = some (.option child) ∨ shape? id = some (.dependent child)

/-- Bits after the bit `before`, if there is one. Whatever is not plain comes directly after
    an option or a dependent. -/
inductive Attached : Option RuleId → List RuleId → Prop
  | nil {before : Option RuleId} : Attached before []
  | cons {before : Option RuleId} {bit : RuleId} {bits : List RuleId}
      (h : Plain shape? bit ∨ ∃ b, before = some b ∧ Opens shape? b)
      (hrest : Attached (some bit) bits) : Attached before (bit :: bits)

variable {shape? shape?' : RuleId → Option Shape}

theorem Attached.mono (hplain : ∀ id, Plain shape? id → Plain shape?' id)
    (hopens : ∀ id, Opens shape? id → Opens shape?' id) {before : Option RuleId}
    {bits : List RuleId} (h : Attached shape? before bits) : Attached shape?' before bits := by
  induction h with
  | nil => exact .nil
  | cons h _ ih =>
    refine .cons ?_ ih
    rcases h with h | ⟨b, hb, h⟩
    · exact .inl (hplain _ h)
    · exact .inr ⟨b, hb, hopens b h⟩

end Shape

/-! ## The arena -/

namespace Arena

open Shape (Plain Opens Attached)

/-- The shape of a rule. -/
def shape? (a : Arena) (id : RuleId) : Option Shape := (a.rules[id]?).map (·.shape)

/-- Dependents have names that are not declared, suffix rules have the shapes of their
    suffixes, and dependents stand in sequences only, where they may. -/
structure Orderly (declared : Declared) (a : Arena) : Prop where
  undeclared : ∀ {id child : RuleId} {rule : Rule}, a.rules[id]? = some rule →
    rule.shape = .dependent child → declared.lookup rule.name = none
  suffixed : ∀ {base id : RuleId} {suffix : Suffix}, ((base, suffix), id) ∈ a.suffixed →
    ∃ child, a.shape? id = some (suffixShape child suffix)
  attached : ∀ {id : RuleId} {bits : List RuleId} {anonymous : Bool},
    a.shape? id = some (.sequence bits anonymous) → Attached a.shape? none bits
  plain : ∀ {id child : RuleId} {shape : Shape}, a.shape? id = some shape →
    (∀ bits anonymous, shape ≠ .sequence bits anonymous) → child ∈ shape.children →
    Plain a.shape? child

variable {declared : Declared} {a a' : Arena} {id : RuleId}

theorem shape?_eq {rule : Rule} (h : a.rules[id]? = some rule) : a.shape? id = some rule.shape := by
  rw [shape?, h, Option.map_some]

theorem shape?_push (rule : Rule) (names : List (String × RuleId))
    (suffixed : List ((RuleId × Suffix) × RuleId)) :
    shape? ⟨a.rules.push rule, names, suffixed⟩ a.rules.size = some rule.shape :=
  shape?_eq Array.getElem?_push_size

theorem Keeps.shape? (h : a.Keeps a') {shape : Shape} (hshape : a.shape? id = some shape) :
    a'.shape? id = some shape := by
  obtain ⟨rule, hrule, rfl⟩ := Option.map_eq_some_iff.1 hshape
  exact shape?_eq (h id rule hrule)

theorem Keeps.plain (h : a.Keeps a') (id : RuleId) (hp : Plain a.shape? id) :
    Plain a'.shape? id := by
  obtain ⟨shape, hshape, hp⟩ := hp
  exact ⟨shape, h.shape? hshape, hp⟩

theorem Keeps.opens (h : a.Keeps a') (id : RuleId) (ho : Opens a.shape? id) :
    Opens a'.shape? id := by
  obtain ⟨child, ho⟩ := ho
  exact ⟨child, ho.imp h.shape? h.shape?⟩

theorem Keeps.attached (h : a.Keeps a') {before : Option RuleId} {bits : List RuleId}
    (hb : Attached a.shape? before bits) : Attached a'.shape? before bits :=
  hb.mono h.plain h.opens

/-! ## Growing -/

/-- A rule in its place among rules to which the others are added. -/
theorem getElem?_push_cases {rules : Array Rule} {rule r : Rule}
    (h : (rules.push rule)[id]? = some r) : rules[id]? = some r ∨ id = rules.size ∧ r = rule := by
  rw [Array.getElem?_push] at h
  split_ifs at h with hid
  · exact .inr ⟨hid, (Option.some.inj h).symm⟩
  · exact .inl h

/-- An arena stays orderly when a rule is added whose bits and children are. -/
theorem Orderly.add (h : a.Orderly declared) (rule : Rule) {names : List (String × RuleId)}
    {suffixed : List ((RuleId × Suffix) × RuleId)}
    (hundeclared : ∀ child, rule.shape = .dependent child → declared.lookup rule.name = none)
    (hsuffixed : ∀ {base id : RuleId} {suffix : Suffix}, ((base, suffix), id) ∈ suffixed →
      ((base, suffix), id) ∈ a.suffixed ∨
        id = a.rules.size ∧ ∃ child, rule.shape = suffixShape child suffix)
    (hattached : ∀ bits anonymous, rule.shape = .sequence bits anonymous →
      Attached a.shape? none bits)
    (hplain : (∀ bits anonymous, rule.shape ≠ .sequence bits anonymous) →
      ∀ child ∈ rule.shape.children,
        Plain (shape? ⟨a.rules.push rule, names, suffixed⟩) child) :
    Orderly declared ⟨a.rules.push rule, names, suffixed⟩ := by
  have hkeeps : a.Keeps ⟨a.rules.push rule, names, suffixed⟩ := fun _ _ => keeps_push
  have hcases : ∀ {id : RuleId} {shape : Shape},
      shape? ⟨a.rules.push rule, names, suffixed⟩ id = some shape →
        a.shape? id = some shape ∨ rule.shape = shape := by
    intro id shape hshape
    obtain ⟨r, hr, rfl⟩ := Option.map_eq_some_iff.1 hshape
    rcases getElem?_push_cases hr with hr | ⟨-, rfl⟩
    · exact .inl (shape?_eq hr)
    · exact .inr rfl
  refine ⟨fun hr hshape => ?_, fun hmem => ?_, fun hshape => ?_, fun hshape hseq hchild => ?_⟩
  · rcases getElem?_push_cases hr with hr | ⟨-, rfl⟩
    · exact h.undeclared hr hshape
    · exact hundeclared _ hshape
  · rcases hsuffixed hmem with hmem | ⟨rfl, child, hshape⟩
    · obtain ⟨child, hshape⟩ := h.suffixed hmem
      exact ⟨child, hkeeps.shape? hshape⟩
    · exact ⟨child, by rw [shape?_push, hshape]⟩
  · rcases hcases hshape with hshape | hshape
    · exact hkeeps.attached (h.attached hshape)
    · exact hkeeps.attached (hattached _ _ hshape)
  · rcases hcases hshape with hshape | rfl
    · exact hkeeps.plain _ (h.plain hshape hseq hchild)
    · exact hplain hseq _ hchild

/-- A rule that is neither a dependent nor a sequence is added. -/
theorem Orderly.push (h : a.Orderly declared) (rule : Rule)
    (hdependent : ∀ child, rule.shape ≠ .dependent child)
    (hattached : ∀ bits anonymous, rule.shape = .sequence bits anonymous →
      Attached a.shape? none bits)
    (hplain : (∀ bits anonymous, rule.shape ≠ .sequence bits anonymous) →
      ∀ child ∈ rule.shape.children, Plain (a.push rule).2.shape? child) :
    (a.push rule).2.Orderly declared :=
  h.add rule (fun child hshape => absurd hshape (hdependent child)) .inl hattached hplain

/-! ## Elements -/

/-- What is checked of an element. -/
theorem checkElement_spec {line : Nat} {before : Option Element} {e : Element}
    (h : checkElement declared line before e = .ok ()) :
    (declared.lookup e.name).isSome = true ∧ (∀ w ∈ writtenForms e, declared.lookup w = none) ∧
      (e.suffix = some .dependent → (before.bind (·.suffix)).any Suffix.mayBeAbsent = true) := by
  unfold checkElement at h
  simp only [bind, Except.bind, pure, Except.pure, throw, throwThe, MonadExceptOf.throw] at h
  split at h
  · cases h
  · rename_i hname
    split at h
    · cases h
    · rename_i hclash
      have hforms := Option.eq_none_iff_forall_ne_some.2 hclash
      refine ⟨by simpa using hname, fun w hw => ?_, fun hsuffix => ?_⟩
      · have hnone := List.find?_eq_none.1 hforms w hw
        rwa [Bool.not_eq_true, Option.isSome_eq_false_iff, Option.isNone_iff_eq_none] at hnone
      · rw [if_pos hsuffix] at h
        split at h
        · assumption
        · cases h

/-- The rule of a suffix over a plain child. -/
theorem Orderly.suffixRule (h : a.Orderly declared) {base child : RuleId} {suffix : Suffix}
    {visual : String} {line : Nat} (hchild : Plain a.shape? child)
    (hvisual : suffix = .dependent → declared.lookup visual = none)
    (hr : a.suffixRule base child suffix visual line = (id, a')) :
    a'.Orderly declared ∧ ∃ c, a'.shape? id = some (suffixShape c suffix) := by
  cases suffixMove hr with
  | known hmem => exact ⟨h, h.suffixed hmem⟩
  | added =>
    refine ⟨h.add _ (fun c hshape => ?_) (fun hmem => ?_) (fun bits anonymous hshape => ?_)
      (fun _ c hc => ?_), child, shape?_push ..⟩
    · refine hvisual ?_
      cases suffix <;> first | rfl | cases hshape
    · rcases List.mem_cons.1 hmem with heq | hmem
      · obtain ⟨hkey, rfl⟩ := Prod.mk.inj heq
        obtain ⟨-, rfl⟩ := Prod.mk.inj hkey
        exact .inr ⟨rfl, child, rfl⟩
      · exact .inl hmem
    · cases suffix <;> cases hshape
    · obtain rfl : c = child := by
        cases suffix <;> exact List.mem_singleton.1 hc
      exact Keeps.plain (fun _ _ => keeps_push) _ hchild

/-- The rule behind a declared name is no dependent. -/
theorem Orderly.plain_of_name (h : a.Orderly declared) (hs : a.Sound) {name : String}
    (hdeclared : (declared.lookup name).isSome = true) (hlookup : a.names.lookup name = some id) :
    Plain a.shape? id := by
  obtain ⟨rule, hrule, rfl⟩ := hs.named (mem_of_lookup hlookup)
  refine ⟨rule.shape, shape?_eq hrule, fun child hshape => ?_⟩
  rw [h.undeclared hrule hshape] at hdeclared
  cases hdeclared

/-- The rule that an element stands for: only a dependent element stands for a dependent,
    and an element that may be absent for an option or a dependent. -/
theorem Orderly.element (h : a.Orderly declared) (hs : a.Sound) {line line' : Nat}
    {before : Option Element} {e : Element}
    (hcheck : checkElement declared line' before e = .ok ())
    (he : a.element line e = .ok (id, a')) : a'.Orderly declared ∧
      (e.suffix ≠ some .dependent → Plain a'.shape? id) ∧
      (e.suffix.any Suffix.mayBeAbsent = true → Opens a'.shape? id) := by
  obtain ⟨hname, hforms, -⟩ := checkElement_spec hcheck
  obtain ⟨base, hbase, hmove⟩ := elementMove he
  have hplain := h.plain_of_name hs hname hbase
  cases hmove with
  | plain hsuffix =>
    exact ⟨h, fun _ => hplain, fun habsent => by rw [hsuffix] at habsent; cases habsent⟩
  | knownStar _ hmem =>
    obtain ⟨child, hshape⟩ := h.suffixed hmem
    exact ⟨h, fun _ => ⟨_, hshape, fun _ hd => nomatch hd⟩, fun _ => ⟨child, .inl hshape⟩⟩
  | newStar _ hlist hstar =>
    -- an option over the list of the base
    obtain ⟨h₁, c₁, hshape₁⟩ := h.suffixRule hplain (by simp) hlist
    obtain ⟨h₂, c₂, hshape₂⟩ := h₁.suffixRule ⟨_, hshape₁, fun _ hd => nomatch hd⟩ (by simp) hstar
    exact ⟨h₂, fun _ => ⟨_, hshape₂, fun _ hd => nomatch hd⟩, fun _ => ⟨c₂, .inl hshape₂⟩⟩
  | @single suffix _ _ hsuffix _ hrule =>
    have hvisual : suffix = .dependent → declared.lookup e.visual = none := by
      rintro rfl
      exact hforms _ (by simp [writtenForms, hsuffix])
    obtain ⟨h₁, c, hshape⟩ := h.suffixRule hplain hvisual hrule
    refine ⟨h₁, fun hne => ⟨_, hshape, fun child hd => ?_⟩, fun habsent => ⟨c, ?_⟩⟩
    · cases suffix <;> first | exact hne hsuffix | cases hd
    · rw [hsuffix, Option.any_some] at habsent
      rw [hshape]
      cases suffix <;> first | exact .inl rfl | exact .inr rfl | cases habsent

/-- The rules of checked elements are attached. -/
theorem Orderly.elements {line line' : Nat} {es : List Element} : ∀ {a a' : Arena}
    {before : Option Element} {b : Option RuleId} {ids : List RuleId}, a.Orderly declared →
    a.Sound → ((before.bind (·.suffix)).any Suffix.mayBeAbsent = true →
      ∃ id, b = some id ∧ Opens a.shape? id) →
    checkElements declared line' before es = .ok () → a.elements line es = .ok (ids, a') →
    a'.Orderly declared ∧ Attached a'.shape? b ids := by
  induction es with
  | nil =>
    intro a a' before b ids h hs hbefore hcheck he
    cases he
    exact ⟨h, .nil⟩
  | cons e es ih =>
    intro a a' before b ids h hs hbefore hcheck he
    obtain ⟨⟨⟩, hcheck₁, hcheck⟩ := bind_eq_ok_iff.1 hcheck
    obtain ⟨⟨id, a₁⟩, h₁, he⟩ := bind_eq_ok_iff.1 he
    obtain ⟨⟨ids', a₂⟩, h₂, he⟩ := bind_eq_ok_iff.1 he
    cases he
    obtain ⟨hs₁, hk₁⟩ := hs.element h₁
    obtain ⟨ho₁, hplain, hopens⟩ := h.element hs hcheck₁ h₁
    obtain ⟨-, hk₂, -⟩ := hs₁.elements h₂
    obtain ⟨ho₂, hattached⟩ := ih ho₁ hs₁ (b := some id)
      (fun habsent => ⟨id, rfl, hopens (by simpa using habsent)⟩) hcheck h₂
    refine ⟨ho₂, .cons ?_ hattached⟩
    by_cases hsuffix : e.suffix = some .dependent
    · obtain ⟨b', rfl, hb'⟩ := hbefore ((checkElement_spec hcheck₁).2.2 hsuffix)
      exact .inr ⟨b', rfl, hk₂.opens _ (hk₁.opens _ hb')⟩
    · exact .inl (hk₂.plain _ (hplain hsuffix))

/-! ## Bodies -/

/-- A line of one element has no dependent. -/
theorem suffix_ne_of_check {line : Nat} {e : Element}
    (h : checkElements declared line none [e] = .ok ()) : e.suffix ≠ some .dependent := by
  obtain ⟨⟨⟩, hcheck, -⟩ := bind_eq_ok_iff.1 h
  intro hsuffix
  have := (checkElement_spec hcheck).2.2 hsuffix
  cases this

theorem Orderly.alternativeLine (h : a.Orderly declared) (hs : a.Sound) {rule : String}
    {index : Nat} {line : BodyLine}
    (hcheck : checkElements declared line.line none line.elements = .ok ())
    (hl : a.alternativeLine rule index line = .ok (id, a')) :
    a'.Orderly declared ∧ Plain a'.shape? id := by
  cases lineMove hl with
  | element helements he =>
    rw [helements] at hcheck
    have hsuffix := suffix_ne_of_check hcheck
    obtain ⟨⟨⟩, hcheck, -⟩ := bind_eq_ok_iff.1 hcheck
    obtain ⟨ho, hplain, -⟩ := h.element hs hcheck he
    exact ⟨ho, hplain hsuffix⟩
  | sequence _ hbits =>
    obtain ⟨ho, hattached⟩ := h.elements hs (by simp) hcheck hbits
    refine ⟨ho.push _ (by simp) (fun bits' anonymous hshape => ?_) (fun hseq => ?_), ?_⟩
    · cases hshape
      exact hattached
    · exact absurd rfl (hseq _ _)
    · exact ⟨_, shape?_push .., fun _ hd => nomatch hd⟩

theorem Orderly.alternativeLines {rule : String} {lines : List BodyLine} :
    ∀ {a a' : Arena} {index : Nat} {bits : List RuleId}, a.Orderly declared → a.Sound →
    (∀ line ∈ lines, line.elements ≠ [] ∧
      checkElements declared line.line none line.elements = .ok ()) →
    a.alternativeLines rule index lines = .ok (bits, a') →
    a'.Orderly declared ∧ ∀ bit ∈ bits, Plain a'.shape? bit := by
  induction lines with
  | nil =>
    intro a a' index bits h hs hlines hl
    cases hl
    exact ⟨h, by simp⟩
  | cons line lines ih =>
    intro a a' index bits h hs hlines hl
    obtain ⟨⟨id, a₁⟩, h₁, hl⟩ := bind_eq_ok_iff.1 hl
    obtain ⟨⟨ids, a₂⟩, h₂, hl⟩ := bind_eq_ok_iff.1 hl
    cases hl
    obtain ⟨⟨hne, hcheck⟩, hlines⟩ := List.forall_mem_cons.1 hlines
    obtain ⟨hs₁, -⟩ := hs.alternativeLine hne h₁
    obtain ⟨ho₁, hplain⟩ := h.alternativeLine hs hcheck h₁
    obtain ⟨-, hk₂⟩ := hs₁.alternativeLines (fun l hl => (hlines l hl).1) h₂
    obtain ⟨ho₂, hall⟩ := ih ho₁ hs₁ hlines h₂
    exact ⟨ho₂, List.forall_mem_cons.2 ⟨hk₂.plain _ hplain, hall⟩⟩

/-- The shape of a checked body is no dependent. Its bits are attached if it is a sequence,
    and plain otherwise. -/
theorem Orderly.body (h : a.Orderly declared) (hs : a.Sound) {decl : RuleDecl} {family : String}
    {shape : Shape} (hlines : ∀ line ∈ decl.body, line.elements ≠ [] ∧
      checkElements declared line.line none line.elements = .ok ())
    (hb : a.body decl = .ok (family, shape, a')) :
    a'.Orderly declared ∧ (∀ child, shape ≠ .dependent child) ∧
      (∀ bits anonymous, shape = .sequence bits anonymous → Attached a'.shape? none bits) ∧
      ((∀ bits anonymous, shape ≠ .sequence bits anonymous) →
        ∀ child ∈ shape.children, Plain a'.shape? child) := by
  have hsingle : ∀ {line : BodyLine}, decl.body = [line] →
      checkElements declared line.line none line.elements = .ok () := fun hbody =>
    (hlines _ (by rw [hbody]; exact List.mem_singleton_self _)).2
  cases bodyMove hb with
  | aliasOf hbody helements he =>
    have hcheck := hsingle hbody
    rw [helements] at hcheck
    have hsuffix := suffix_ne_of_check hcheck
    obtain ⟨⟨⟩, hcheck, -⟩ := bind_eq_ok_iff.1 hcheck
    obtain ⟨ho, hplain, -⟩ := h.element hs hcheck he
    refine ⟨ho, by simp, by simp, fun _ c hc => ?_⟩
    rw [List.mem_singleton.1 hc]
    exact hplain hsuffix
  | sequence hbody _ hbits =>
    obtain ⟨ho, hattached⟩ := h.elements hs (by simp) (hsingle hbody) hbits
    refine ⟨ho, by simp, fun bits' anonymous hshape => ?_, fun hseq => absurd rfl (hseq _ _)⟩
    cases hshape
    exact hattached
  | alternative _ hbits =>
    obtain ⟨ho, hplain⟩ := h.alternativeLines hs hlines hbits
    exact ⟨ho, by simp, by simp, fun _ => hplain⟩

/-- A placeholder is replaced. What leads to it still does, and it is no dependent. -/
theorem Orderly.replace (h : a.Orderly declared) (rule : Rule) {old : Rule} {target : RuleId}
    (hold : a.rules[id]? = some old) (halias : old.shape = .aliasOf target)
    (hdependent : ∀ child, rule.shape ≠ .dependent child)
    (hattached : ∀ bits anonymous, rule.shape = .sequence bits anonymous →
      Attached a.shape? none bits)
    (hplain : (∀ bits anonymous, rule.shape ≠ .sequence bits anonymous) →
      ∀ child ∈ rule.shape.children, Plain a.shape? child) :
    Orderly declared { a with rules := a.rules.setIfInBounds id rule } := by
  have hlt := (Array.getElem?_eq_some_iff.1 hold).1
  have hnew : shape? { a with rules := a.rules.setIfInBounds id rule } id = some rule.shape :=
    shape?_eq (Array.getElem?_setIfInBounds_self_of_lt hlt)
  have hother : ∀ {i : RuleId}, id ≠ i →
      shape? { a with rules := a.rules.setIfInBounds id rule } i = a.shape? i := by
    intro i hi
    simp only [shape?]
    rw [Array.getElem?_setIfInBounds_ne hi]
  have hp : ∀ i, Plain a.shape? i →
      Plain (shape? { a with rules := a.rules.setIfInBounds id rule }) i := by
    intro i hi
    by_cases heq : id = i
    · subst heq
      exact ⟨_, hnew, hdependent⟩
    · rwa [Plain, hother heq]
  -- the placeholder opened nothing, so no dependent relied on it
  have ho : ∀ i, Opens a.shape? i →
      Opens (shape? { a with rules := a.rules.setIfInBounds id rule }) i := by
    intro i hi
    by_cases heq : id = i
    · subst heq
      obtain ⟨child, hi⟩ := hi
      rw [shape?_eq hold, halias] at hi
      rcases hi with hi | hi <;> cases hi
    · rwa [Opens, hother heq]
  refine ⟨fun {i child r} hr hshape => ?_, fun {base i suffix} hmem => ?_,
    fun {i bits anonymous} hshape => ?_, fun {i child shape} hshape hseq hchild => ?_⟩
  · by_cases heq : id = i
    · subst heq
      obtain rfl := Option.some.inj ((Array.getElem?_setIfInBounds_self_of_lt hlt).symm.trans hr)
      exact absurd hshape (hdependent child)
    · rw [Array.getElem?_setIfInBounds_ne heq] at hr
      exact h.undeclared hr hshape
  · obtain ⟨child, hshape⟩ := h.suffixed hmem
    refine ⟨child, ?_⟩
    rw [hother, hshape]
    rintro rfl
    rw [shape?_eq hold, halias] at hshape
    cases suffix <;> cases hshape
  · refine Attached.mono hp ho ?_
    by_cases heq : id = i
    · subst heq
      exact hattached _ _ (Option.some.inj (hnew.symm.trans hshape))
    · exact h.attached ((hother heq).symm.trans hshape)
  · refine hp _ ?_
    by_cases heq : id = i
    · subst heq
      obtain rfl := Option.some.inj (hnew.symm.trans hshape)
      exact hplain hseq _ hchild
    · exact h.plain ((hother heq).symm.trans hshape) hseq hchild

theorem Orderly.bodies {decls : List RuleDecl} : ∀ {a a' : Arena} {id : Nat},
    a.Orderly declared → a.Sound →
    (∀ decl ∈ decls, ∀ line ∈ decl.body, line.elements ≠ [] ∧
      checkElements declared line.line none line.elements = .ok ()) →
    (∀ k decl, decls[k]? = some decl → ∃ rule target, a.rules[id + k]? = some rule ∧
      rule.name = decl.name ∧ rule.shape = .aliasOf target) →
    a.bodies id decls = .ok a' → a'.Orderly declared := by
  induction decls with
  | nil =>
    intro a a' id h hs hlines hplaces hb
    cases hb
    exact h
  | cons decl decls ih =>
    intro a a' id h hs hlines hplaces hb
    obtain ⟨⟨family, shape, a₁⟩, h₁, hb⟩ := bind_eq_ok_iff.1 hb
    obtain ⟨hline, hlines⟩ := List.forall_mem_cons.1 hlines
    obtain ⟨hs₁, hk, hlong⟩ := hs.body (fun l hl => (hline l hl).1) h₁
    obtain ⟨ho, hdependent, hattached, hplain⟩ := h.body hs hline h₁
    obtain ⟨old, target, hold, hname, halias⟩ := hplaces 0 decl rfl
    have hold' : a₁.rules[id]? = some old := hk _ _ hold
    refine ih (ho.replace ⟨.inFamily family decl.name decl.name, decl.line, shape⟩ hold' halias
      hdependent hattached hplain) (hs₁.replace _ hold' hname hlong) hlines ?_ hb
    intro k d hd
    obtain ⟨r, target, hr, hrname, hralias⟩ := hplaces (k + 1) d hd
    have hne : id ≠ id + 1 + k := by omega
    refine ⟨r, target, ?_, hrname, hralias⟩
    show (a₁.rules.setIfInBounds id _)[id + 1 + k]? = some r
    rw [Array.getElem?_setIfInBounds_ne hne, Nat.add_assoc, Nat.add_comm 1 k]
    exact hk _ _ hr

/-! ## Whole texts -/

theorem orderly_empty : empty.Orderly declared where
  undeclared h := by simp [empty] at h
  suffixed h := absurd h List.not_mem_nil
  attached h := by simp [empty, shape?] at h
  plain h := by simp [empty, shape?] at h

theorem Orderly.terms (h : a.Orderly declared) (terms : List TermDecl) :
    (terms.foldl (fun a t => (a.push (termRule t)).2) a).Orderly declared := by
  induction terms generalizing a with
  | nil => exact h
  | cons t terms ih =>
    refine ih (h.push (termRule t) (by simp [termRule]) (by simp [termRule]) fun _ child hc => ?_)
    exact absurd hc List.not_mem_nil

theorem Orderly.placeholders (h : a.Orderly declared) (rules : List RuleDecl) :
    (rules.foldl (fun a r => (a.push (placeholder r a.rules.size)).2) a).Orderly declared := by
  induction rules generalizing a with
  | nil => exact h
  | cons r rules ih =>
    refine ih (h.push (placeholder r a.rules.size) (by simp [placeholder]) (by simp [placeholder])
      fun _ child hc => ?_)
    -- a placeholder is an alias of itself
    rw [List.mem_singleton.1 hc]
    exact ⟨_, shape?_push .., fun _ hd => Shape.noConfusion hd⟩

end Arena

/-! ## What is checked -/

namespace Source

variable {declared : Declared} {nodes nodes' : List String}

theorem checkElements_of_checkLine {rule : String} {single : Bool} {index : Nat} {line : BodyLine}
    (h : checkLine declared rule single nodes index line = .ok nodes') :
    checkElements declared line.line none line.elements = .ok () := by
  obtain ⟨-, -, h⟩ := bind_eq_ok_iff.1 h
  cases single with
  | true =>
    simp only [Bool.not_true, Bool.false_and, Bool.false_eq_true, if_false] at h
    obtain ⟨_, -, h⟩ := bind_eq_ok_iff.1 h
    obtain ⟨⟨⟩, h, -⟩ := bind_eq_ok_iff.1 h
    exact h
  | false =>
    simp only [Bool.not_false, Bool.true_and, if_true] at h
    split_ifs at h
    · cases h
    all_goals
      obtain ⟨_, -, h⟩ := bind_eq_ok_iff.1 h
      obtain ⟨⟨⟩, -, h⟩ := bind_eq_ok_iff.1 h
      obtain ⟨⟨⟩, h, -⟩ := bind_eq_ok_iff.1 h
      exact h

theorem checkElements_of_checkLines {rule : String} {single : Bool} {index : Nat}
    {lines : List BodyLine} (h : checkLines declared rule single nodes index lines = .ok nodes') :
    ∀ line ∈ lines, checkElements declared line.line none line.elements = .ok () := by
  induction lines generalizing nodes index with
  | nil => simp
  | cons line lines ih =>
    obtain ⟨nodes₁, h₁, h⟩ := bind_eq_ok_iff.1 h
    exact List.forall_mem_cons.2 ⟨checkElements_of_checkLine h₁, ih h⟩

theorem checkElements_of_checkBodies {rules : List RuleDecl}
    (h : checkBodies declared nodes rules = .ok nodes') : ∀ decl ∈ rules, ∀ line ∈ decl.body,
      checkElements declared line.line none line.elements = .ok () := by
  induction rules generalizing nodes with
  | nil => simp
  | cons decl rules ih =>
    obtain ⟨nodes₁, h₁, h⟩ := bind_eq_ok_iff.1 h
    exact List.forall_mem_cons.2 ⟨checkElements_of_checkLines h₁, ih h⟩

end Source

/-! ## The main results -/

namespace Grammar

open Shape (Plain Attached)

variable {text : String} {g : Grammar} {id : RuleId}

theorem exists_orderly_of_load (h : load text = .ok g) :
    ∃ declared a, Arena.Orderly declared a ∧ g.shape? = a.shape? := by
  obtain ⟨g', hread, h⟩ := bind_eq_ok_iff.1 h
  obtain ⟨_, -, h⟩ := bind_eq_ok_iff.1 h
  cases h
  obtain ⟨s, hs, hread⟩ := bind_eq_ok_iff.1 hread
  obtain ⟨_, hnames, hread⟩ := bind_eq_ok_iff.1 hread
  rw [mapError_eq_ok_iff] at hs hnames hread
  obtain ⟨declared, -, hnames⟩ := bind_eq_ok_iff.1 hnames
  obtain ⟨nodes, hbodies, -⟩ := bind_eq_ok_iff.1 hnames
  obtain ⟨a, ha, hread⟩ := bind_eq_ok_iff.1 hread
  obtain ⟨start, -, hread⟩ := bind_eq_ok_iff.1 hread
  obtain ⟨collapse, -, hread⟩ := bind_eq_ok_iff.1 hread
  obtain ⟨spacing, -, hread⟩ := bind_eq_ok_iff.1 hread
  cases hread
  obtain ⟨hdeclared, hplaces⟩ := Arena.sound_declare s
  have hlines : ∀ decl ∈ s.rules, ∀ line ∈ decl.body, line.elements ≠ [] ∧
      checkElements declared line.line none line.elements = .ok () := fun decl hdecl line hline =>
    ⟨Source.filled_of_parse hs decl hdecl line hline,
      Source.checkElements_of_checkBodies hbodies decl hdecl line hline⟩
  exact ⟨declared, a, ((Arena.orderly_empty.terms s.terms).placeholders s.rules).bodies hdeclared
    hlines (fun k decl hdecl => ⟨_, _, hplaces k decl hdecl, rfl, rfl⟩) ha, rfl⟩

/-- In a sequence every dependent comes directly after an option or a dependent. -/
theorem attached_of_load (h : load text = .ok g) {bits : List RuleId} {anonymous : Bool}
    (hshape : g.shape? id = some (.sequence bits anonymous)) : Attached g.shape? none bits := by
  obtain ⟨declared, a, ha, hsame⟩ := exists_orderly_of_load h
  rw [hsame] at hshape ⊢
  exact ha.attached hshape

/-- Dependents are bits of sequences only. -/
theorem plain_of_load (h : load text = .ok g) {child : RuleId} {shape : Shape}
    (hshape : g.shape? id = some shape)
    (hseq : ∀ bits anonymous, shape ≠ .sequence bits anonymous) (hchild : child ∈ shape.children) :
    Plain g.shape? child := by
  obtain ⟨declared, a, ha, hsame⟩ := exists_orderly_of_load h
  rw [hsame] at hshape ⊢
  exact ha.plain hshape hseq hchild

end Grammar

end LanguageWorkbench
