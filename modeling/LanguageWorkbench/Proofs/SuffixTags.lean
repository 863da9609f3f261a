import LanguageWorkbench.Proofs.CanonicalNames
import LanguageWorkbench.Proofs.Lines

/-!
# Canonical names of rules for suffixes

The canonical name of a rule for a suffix is made from the canonical name that its child has
when the rule is asked for first. If the body of the child is not resolved by then, this is the
name of a placeholder, which is in the family of sequences whatever the child turns out to be.

Results:
* `Source.AsksEarly`: a suffix is asked for before the body of its base is resolved.
* `Arena.Stage.mem_suffixed_iff`: there are rules for the suffixes that are asked for.
* `Arena.Stage.taggedBy`: what rules for suffixes are named after.
* `Grammar.tag_inFamily_of_load`: the families of canonical names.
* `Grammar.suffix_tag_of_load`: when a rule for a suffix is named after its child.
-/

namespace LanguageWorkbench

open Source

/-- One of the first `k` rules asks for a suffix of a rule that is not resolved before it. -/
def Source.AsksEarly (s : Source) (k : Nat) (base : RuleId) (suffix : Suffix) : Prop :=
  ∃ j decl, j < k ∧ s.rules[j]? = some decl ∧ s.Asks decl.elements base suffix ∧
    s.terms.length + j ≤ base

theorem Source.AsksEarly.mono {s : Source} {k k' : Nat} {base : RuleId} {suffix : Suffix}
    (h : s.AsksEarly k base suffix) (hk : k ≤ k') : s.AsksEarly k' base suffix := by
  obtain ⟨j, decl, hj, h⟩ := h
  exact ⟨j, decl, Nat.lt_of_lt_of_le hj hk, h⟩

theorem Source.AsksEarly.le {s : Source} {k : Nat} {base : RuleId} {suffix : Suffix}
    (h : s.AsksEarly k base suffix) : s.terms.length ≤ base := by
  obtain ⟨j, decl, -, -, -, hle⟩ := h
  exact Nat.le_trans (Nat.le_add_right _ _) hle

/-- The family of the canonical names of rules of a shape. -/
def Shape.family : Shape → String
  | term .. => "tok"
  | sequence .. => "tree"
  | alternative _ => "any"
  | aliasOf _ => "alias"
  | option _ => "opt"
  | dependent _ => "dep"
  | plus _ => "list"
  | separator _ => "sep"
  | delimiter _ => "delim"

theorem Shape.dashed_family (shape : Shape) : Dashed shape.family.toList := by
  cases shape <;> simp only [Shape.family] <;> exact .of_word (by decide) (by decide)

namespace Arena

variable {s : Source} {declared : Declared} {nodes nodes' : List String} {a a' : Arena}
  {id base child : RuleId} {suffix : Suffix} {r c : Rule} {k : Nat} {decl : RuleDecl}

/-! ## What is asked for -/

/-- No two declarations have the same name. -/
theorem Proper.declaredName?_inj (h : a.Proper s declared nodes) {base' : RuleId} {name : String}
    (hbase : s.declaredName? base = some name) (hbase' : s.declaredName? base' = some name) :
    base = base' := by
  have hrule : ∀ {i : RuleId}, s.declaredName? i = some name →
      ∃ r, a.rules[i]? = some r ∧ r.name = name := by
    intro i hi
    have hlt := lt_size_of_declaredName? hi
    have hr := Array.getElem?_eq_getElem (Nat.lt_of_lt_of_le hlt h.registered.le_size)
    exact ⟨_, hr, Option.some.inj ((h.follows.named hlt hr).symm.trans hi)⟩
  obtain ⟨r, hr, hname⟩ := hrule hbase
  obtain ⟨r', hr', hname'⟩ := hrule hbase'
  exact h.registered.first_inj (lt_size_of_declaredName? hbase) hr hr' (hname.trans hname'.symm)

/-- Every element of a resolved body stands for a rule. -/
theorem BodyStands.exists_stands {rules : Array Rule} {family : String} {shape : Shape}
    (h : BodyStands s rules decl family shape) {e : Element} (he : e ∈ decl.elements) :
    ∃ id, Stands s rules e id := by
  have hforall : ∀ {es : List Element} {ids : List RuleId}, List.Forall₂ (Stands s rules) es ids →
      e ∈ es → ∃ id, Stands s rules e id := by
    intro es ids h he
    obtain ⟨id, -, hid⟩ := exists_of_forall₂ h he
    exact ⟨id, hid⟩
  obtain ⟨line, hline, he⟩ := List.mem_flatMap.1 he
  cases h with
  | aliasOf hbody helements hchild =>
    rw [hbody, List.mem_singleton] at hline
    rw [hline, helements, List.mem_singleton] at he
    exact ⟨_, he ▸ hchild⟩
  | sequence hbody _ hbits =>
    rw [hbody, List.mem_singleton] at hline
    exact hforall hbits (hline ▸ he)
  | @alternative bits _ hlength hbits =>
    obtain ⟨n, hn⟩ := List.mem_iff_getElem?.1 hline
    have hlt : n < bits.length := hlength ▸ (List.getElem?_eq_some_iff.1 hn).1
    cases hbits n line _ hn (List.getElem?_eq_getElem hlt) with
    | element helements hid =>
      rw [helements, List.mem_singleton] at he
      exact ⟨_, he ▸ hid⟩
    | sequence _ hforall' _ => exact hforall hforall' he

/-- What rules for suffixes are there for was asked for. -/
theorem Stage.asks_of_mem_suffixed (h : Stage s declared k a)
    (hmem : ((base, suffix), id) ∈ a.suffixed) :
    ∃ j decl, j < k ∧ s.rules[j]? = some decl ∧ s.Asks decl.elements base suffix := by
  induction h with
  | start =>
    rw [(declare_spec s).2.2.1] at hmem
    cases hmem
  | body _ _ hdecl _ hgrows _ ih =>
    rcases hgrows.made hmem with hmem | ⟨hasks, -⟩
    · obtain ⟨j, decl, hj, hdecl, hasks⟩ := ih hmem
      exact ⟨j, decl, Nat.lt_succ_of_lt hj, hdecl, hasks⟩
    · exact ⟨_, _, Nat.lt_succ_self _, hdecl, hasks⟩

/-- There is a rule for a suffix exactly if a resolved body asks for it. -/
theorem Stage.mem_suffixed_iff (hstage : Stage s declared k a) (hproper : a.Proper s declared nodes) :
    (∃ id, ((base, suffix), id) ∈ a.suffixed) ↔
      ∃ j decl, j < k ∧ s.rules[j]? = some decl ∧ s.Asks decl.elements base suffix := by
  refine ⟨fun ⟨id, hmem⟩ => hstage.asks_of_mem_suffixed hmem, ?_⟩
  rintro ⟨j, decl, hj, hdecl, e, he, hbase, hsuffix⟩
  obtain ⟨family, shape, -, hstands⟩ := hstage.resolved hj hdecl
  obtain ⟨id, hid⟩ := hstands.exists_stands he
  have hlt := lt_size_of_declaredName? hbase
  cases hid with
  | plain _ hnone => simp [hnone] at hsuffix
  | @wrapped base' _ suffix' hbase' hsuffix' hwraps =>
    obtain rfl := hproper.declaredName?_inj hbase hbase'
    rcases hsuffix with hsuffix | ⟨rfl, hsuffix⟩
    · obtain rfl := Option.some.inj (hsuffix.symm.trans hsuffix')
      exact ⟨_, hstage.mem_suffixed_of_wraps hproper hlt hwraps⟩
    · obtain rfl := Option.some.inj (hsuffix.symm.trans hsuffix')
      cases hwraps with
      | single hstar => exact absurd rfl hstar
      | star hl hlist =>
        exact ⟨_, hstage.mem_suffixed_of_wraps hproper hlt (.single Suffix.noConfusion hl hlist)⟩

/-! ## What rules are named after -/

/-- The rule is made for a suffix. It is named after its child, or if it is asked for early
    after the placeholder of its child. -/
def TaggedBy (s : Source) (k : Nat) (a : Arena) (suffix : Suffix) (id : RuleId) : Prop :=
  ∃ r child c, a.rules[id]? = some r ∧ r.shape = suffixShape child suffix ∧
    a.rules[child]? = some c ∧
    (s.AsksEarly k child suffix → r.tag.dash =
      canonical (family suffix ++ "-" ++ canonical ("tree" ++ "-" ++ c.name))) ∧
    (¬ s.AsksEarly k child suffix → r.tag.dash = canonical (family suffix ++ "-" ++ c.tag.dash))

theorem lt_size_of_asksEarly (h : s.AsksEarly k base suffix) :
    base < (Arena.declare s).rules.size := by
  obtain ⟨_, _, -, -, ⟨e, -, hbase, -⟩, -⟩ := h
  exact lt_size_of_declaredName? hbase

/-- The child of a rule for a suffix is the base, or a list, which is not declared. -/
theorem Stage.child_cases (hstage : Stage s declared k a) (hproper : a.Proper s declared nodes)
    (hkeeps : a.Keeps a') (h : Wraps a'.rules base suffix id) (hr : a'.rules[id]? = some r)
    (hshape : r.shape = suffixShape child suffix) :
    suffix ≠ .star ∧ child = base ∨ (Arena.declare s).rules.size ≤ child := by
  cases h with
  | single hstar ho hw =>
    obtain rfl := Option.some.inj (hr.symm.trans ho)
    exact .inl ⟨hstar, (suffixShape_inj hstar hstar (hshape.symm.trans hw)).1⟩
  | @star list _ l _ hl hlist ho hw =>
    obtain rfl := Option.some.inj (hr.symm.trans ho)
    obtain rfl : child = list := Shape.option.inj (hshape.symm.trans hw)
    refine .inr (Nat.le_of_not_lt fun hlt => ?_)
    -- a declared rule has its shape from before
    have hold := Array.getElem?_eq_getElem (Nat.lt_of_lt_of_le hlt hproper.registered.le_size)
    obtain rfl := Option.some.inj (hl.symm.trans (hkeeps _ _ hold))
    exact absurd hlt (Nat.not_lt.2
      (hstage.size_le_of_shape hproper hold (show _ = suffixShape base .plus from hlist)))

/-- After a body is resolved, a rule of its arena is there with its name, and as it was unless
    the body is its own. -/
theorem replace_cases (hc : a.rules[child]? = some c) {rule old : Rule}
    (hold : a.rules[id]? = some old) (hname : old.name = rule.name) :
    ∃ c', (a.replace id rule).rules[child]? = some c' ∧ c'.name = c.name ∧ (child ≠ id → c' = c) := by
  by_cases hne : child = id
  · subst hne
    obtain rfl := Option.some.inj (hold.symm.trans hc)
    exact ⟨rule, replace_self hold, hname.symm, fun h => absurd rfl h⟩
  · exact ⟨c, by rw [replace_of_ne (Ne.symm hne), hc], rfl, fun _ => rfl⟩

/-- The child of a rule that is not resolved yet is a placeholder. -/
theorem Stage.dash_of_unresolved (h : Stage s declared k a) (hkeeps : a.Keeps a')
    (hlt : child < (Arena.declare s).rules.size) (hle : s.terms.length + k ≤ child)
    (hc : a'.rules[child]? = some c) : c.tag.dash = canonical ("tree" ++ "-" ++ c.name) := by
  obtain ⟨i, rfl⟩ := Nat.exists_eq_add_of_le hle
  rw [(declare_places s).1, Nat.add_assoc] at hlt
  have hdecl := List.getElem?_eq_getElem (Nat.lt_of_add_lt_add_left hlt)
  have hplaceholder := hkeeps _ _ (h.placeholder (Nat.le_add_right k i) hdecl)
  rw [← Nat.add_assoc] at hplaceholder
  obtain rfl := Option.some.inj (hc.symm.trans hplaceholder)
  rfl

/-- A rule for a suffix of a rule that is not resolved, or only by the last body, is asked for
    early. -/
theorem Stage.asksEarly_of_child (h : Stage s declared k a)
    (hmem : ((base, suffix), id) ∈ a.suffixed)
    (hchild : suffix ≠ .star ∧ child = base ∨ (Arena.declare s).rules.size ≤ child)
    (hlt : child < (Arena.declare s).rules.size) (hle : s.terms.length + k ≤ child + 1) :
    s.AsksEarly k child suffix := by
  obtain ⟨-, rfl⟩ := hchild.resolve_right (Nat.not_le.2 hlt)
  obtain ⟨j, decl, hj, hdecl, hasks⟩ := h.asks_of_mem_suffixed hmem
  exact ⟨j, decl, hj, hdecl, hasks, by omega⟩

section Body

variable (hstage : Stage s declared k a) (hproper : a.Proper s declared nodes)
  (hdecl : s.rules[k]? = some decl) (hgrows : a.Grows s decl.elements a')

include hstage hproper hgrows in
/-- What a rule was named after stays so while a body is resolved. -/
theorem TaggedBy.grows (h : a.TaggedBy s k suffix id) (hmem : ((base, suffix), id) ∈ a.suffixed)
    (hwraps : Wraps a'.rules base suffix id) : a'.TaggedBy s (k + 1) suffix id := by
  obtain ⟨r, child, c, hr, hshape, hc, hearly, hlate⟩ := h
  have hr' := hgrows.keeps _ _ hr
  refine ⟨r, child, c, hr', hshape, hgrows.keeps _ _ hc, fun h => hearly ?_,
    fun h => hlate fun hearly => h (hearly.mono (Nat.le_succ k))⟩
  have hlt := lt_size_of_asksEarly h
  obtain ⟨j, decl, hj, hdecl, hasks, hle⟩ := h
  rcases Nat.lt_succ_iff_lt_or_eq.1 hj with hj | rfl
  · exact ⟨j, decl, hj, hdecl, hasks, hle⟩
  -- the rule is there already, so an earlier body asks for it too
  · exact hstage.asksEarly_of_child hmem (hstage.child_cases hproper hgrows.keeps hwraps hr' hshape)
      hlt (Nat.le_succ_of_le hle)

include hstage hproper hgrows in
/-- What a body asks for first is named after the child as it is then. -/
theorem TaggedAfter.taggedBy (h : a'.TaggedAfter suffix id)
    (hproper' : a'.Proper s declared nodes') (hmem : ((base, suffix), id) ∈ a'.suffixed)
    (hnew : ((base, suffix), id) ∉ a.suffixed) : a'.TaggedBy s (k + 1) suffix id := by
  obtain ⟨r, child, c, hr, hshape, hc, hdash⟩ := h
  refine ⟨r, child, c, hr, hshape, hc, fun h => ?_, fun _ => hdash⟩
  have hlt := lt_size_of_asksEarly h
  have hchild := hstage.child_cases hproper hgrows.keeps (hproper'.follows.wraps hmem) hr hshape
  obtain ⟨-, rfl⟩ := hchild.resolve_right (Nat.not_le.2 hlt)
  obtain ⟨j, decl, hj, hdecl, hasks, hle⟩ := h
  -- no body before this one asks for it
  obtain rfl : j = k := by
    refine (Nat.lt_succ_iff_lt_or_eq.1 hj).resolve_left fun hj => hnew ?_
    obtain ⟨id', hid'⟩ := (hstage.mem_suffixed_iff hproper).2 ⟨j, decl, hj, hdecl, hasks⟩
    obtain rfl := hproper'.registered.suffixed_inj (hgrows.suffixed _ hid') hmem
    exact hid'
  rw [hdash, hstage.dash_of_unresolved hgrows.keeps hlt hle hc]

include hstage hproper hdecl hgrows in
/-- What rules are named after stays so when a resolved body takes the place of its placeholder,
    whose suffixes are all asked for early. -/
theorem TaggedBy.replace (h : a'.TaggedBy s (k + 1) suffix id)
    (hproper' : a'.Proper s declared nodes') {fam : String} {shape : Shape}
    (hstands : BodyStands s a'.rules decl fam shape) (hmem : ((base, suffix), id) ∈ a'.suffixed) :
    (a'.replace (s.terms.length + k) (bodyRule decl fam shape)).TaggedBy s (k + 1) suffix id := by
  obtain ⟨r, child, c, hr, hshape, hc, hearly, hlate⟩ := h
  have hplaceholder := hgrows.keeps _ _ (hstage.placeholder (Nat.le_refl k) hdecl)
  have hplace : (Arena.placeholder decl (s.terms.length + k)).name =
      (bodyRule decl fam shape).name := rfl
  obtain ⟨c', hc', hname, hsame⟩ := replace_cases hc hplaceholder hplace
  refine ⟨r, child, c', ?_, hshape, hc', fun h => hname ▸ hearly h, fun h => ?_⟩
  · refine hstage.preserves hdecl hgrows _ _ _ hr fun target halias => ?_
    exact suffixShape_ne_aliasOf child suffix target (hshape.symm.trans halias)
  · rw [hsame, hlate h]
    rintro rfl
    have hlast : s.terms.length + k < (Arena.declare s).rules.size := by
      rw [(declare_places s).1]
      exact Nat.add_lt_add_left (List.getElem?_eq_some_iff.1 hdecl).1 _
    have hchild := hstage.child_cases hproper hgrows.keeps (hproper'.follows.wraps hmem) hr hshape
    exact h ((hstage.body hproper hdecl hproper' hgrows hstands).asksEarly_of_child hmem hchild
      hlast (Nat.le_refl _))

end Body

/-- Rules for suffixes are named after their children, or the placeholders of these. -/
theorem Stage.taggedBy (h : Stage s declared k a) :
    ∀ {base id : RuleId} {suffix : Suffix}, ((base, suffix), id) ∈ a.suffixed →
      a.TaggedBy s k suffix id := by
  induction h with
  | start =>
    intro base id suffix hmem
    rw [(declare_spec s).2.2.1] at hmem
    cases hmem
  | @body k nodes nodes' a a' decl fam shape hstage hproper hdecl hproper' hgrows hstands ih =>
    intro base id suffix hmem
    have hgrown : a'.TaggedBy s (k + 1) suffix id := by
      by_cases hold : ((base, suffix), id) ∈ a.suffixed
      · exact (ih hold).grows hstage hproper hgrows hold (hproper'.follows.wraps hmem)
      · obtain ⟨-, htagged⟩ := (hgrows.made hmem).resolve_left hold
        exact htagged.taggedBy hstage hproper hgrows hproper' hmem hold
    exact hgrown.replace hstage hproper hdecl hgrows hproper' hstands hmem

theorem family_suffixShape (child : RuleId) (suffix : Suffix) :
    (suffixShape child suffix).family = family suffix := by
  cases suffix <;> rfl

theorem TaggedBy.inFamily (h : a.TaggedBy s k suffix id) (hr : a.rules[id]? = some r) :
    ∃ name, r.tag.dash = canonical (r.shape.family ++ "-" ++ name) := by
  obtain ⟨o, child, c, ho, hshape, -, hearly, hlate⟩ := h
  obtain rfl := Option.some.inj (hr.symm.trans ho)
  rw [hshape, family_suffixShape]
  by_cases h : s.AsksEarly k child suffix
  · exact ⟨_, hearly h⟩
  · exact ⟨_, hlate h⟩

/-- What every rule of the shape of a suffix is named after. -/
theorem Stage.tag_of_shape (hstage : Stage s declared k a) (hproper : a.Proper s declared nodes)
    (hstar : suffix ≠ .star) (hr : a.rules[id]? = some r) (hshape : r.shape = suffixShape child suffix)
    (hc : a.rules[child]? = some c) :
    (s.AsksEarly k child suffix → r.tag.dash =
      canonical (family suffix ++ "-" ++ canonical ("tree" ++ "-" ++ c.name))) ∧
    (¬ s.AsksEarly k child suffix → r.tag.dash = canonical (family suffix ++ "-" ++ c.tag.dash)) := by
  obtain ⟨base, suffix', -, hkey⟩ := hstage.exists_key_of_shape hproper hr hshape
  obtain ⟨o, child', c', ho, hshape', hc', hearly, hlate⟩ := hstage.taggedBy hkey
  obtain rfl := Option.some.inj (hr.symm.trans ho)
  have hchild := hstage.child_cases hproper (.refl a) (hproper.follows.wraps hkey) hr hshape'
  by_cases hstar' : suffix' = .star
  · -- an option over a list, which no element can name
    subst hstar'
    have hoption : suffixShape child suffix = suffixShape child' .optional :=
      hshape.symm.trans hshape'
    obtain ⟨rfl, rfl⟩ := suffixShape_inj hstar Suffix.noConfusion hoption
    obtain rfl := Option.some.inj (hc.symm.trans hc')
    have hle := hchild.resolve_left fun h => h.1 rfl
    have hnone : ∀ suffix, ¬ s.AsksEarly k child suffix := fun suffix h =>
      absurd (lt_size_of_asksEarly h) (Nat.not_lt.2 hle)
    exact ⟨fun h => absurd h (hnone _), fun _ => hlate (hnone _)⟩
  · obtain ⟨rfl, rfl⟩ := suffixShape_inj hstar hstar' (hshape.symm.trans hshape')
    obtain rfl := Option.some.inj (hc.symm.trans hc')
    exact ⟨hearly, hlate⟩

/-- The canonical name of every rule is in the family of its shape. -/
theorem tag_inFamily (hstage : Stage s declared s.rules.length a) (hproper : a.Proper s declared nodes)
    (hnodes : checkBodies declared (declared.map Prod.fst) s.rules = .ok nodes)
    (hr : a.rules[id]? = some r) :
    ∃ name, r.tag.dash = canonical (r.shape.family ++ "-" ++ name) := by
  by_cases hid : id < (Arena.declare s).rules.size
  · rcases declared_cases hstage hproper hid hr with
      ⟨t, -, rfl⟩ | ⟨k, decl, family, shape, -, -, rfl, hstands⟩
    · exact ⟨t.tag, rfl⟩
    · exact ⟨decl.name, by cases hstands <;> rfl⟩
  · rcases hproper.registered.added (Nat.le_of_not_lt hid) hr with hline | ⟨⟨base, suffix⟩, hkey⟩
    · obtain ⟨k, n, ⟨decl, line, bits, -, -, -, -, -, -, -, -, hrule⟩, -⟩ :=
        lineOf_of_isLine hstage hproper hnodes hr hline
      obtain rfl := Option.some.inj (hr.symm.trans hrule)
      exact ⟨line.sequenceName decl.name n, rfl⟩
    · exact (hstage.taggedBy hkey).inFamily hr

/-- A declared rule that is no term is named as its placeholder was, exactly if it is a
    sequence. -/
theorem dash_eq_placeholder_iff (hstage : Stage s declared s.rules.length a)
    (hproper : a.Proper s declared nodes) (hlt : child < (Arena.declare s).rules.size)
    (hle : s.terms.length ≤ child) (hc : a.rules[child]? = some c) :
    c.tag.dash = canonical ("tree" ++ "-" ++ c.name) ↔
      ∃ bits anonymous, c.shape = .sequence bits anonymous := by
  rcases declared_cases hstage hproper hlt hc with
    ⟨t, ht, -⟩ | ⟨k, decl, family, shape, -, -, rfl, hstands⟩
  · exact absurd (List.getElem?_eq_some_iff.1 ht).1 (Nat.not_lt.2 hle)
  · have hapart : ∀ other : Shape, other.family.toList.head? ≠ some 't' →
        canonical (other.family ++ "-" ++ decl.name) ≠ canonical ("tree" ++ "-" ++ decl.name) := by
      intro other hhead heq
      obtain ⟨rest, hrest⟩ := exists_toList_canonical_inFamily other.dashed_family decl.name
      obtain ⟨rest', hrest'⟩ := exists_toList_canonical_inFamily
        (Shape.dashed_family (.sequence [] true)) decl.name
      obtain ⟨f, fs, hfamily, -⟩ := other.dashed_family.exists_head
      have hsame := hrest.symm.trans ((congrArg String.toList heq).trans hrest')
      rw [hfamily] at hsame hhead
      exact hhead (congrArg List.head? hsame)
    cases hstands with
    | aliasOf =>
      refine ⟨fun heq => absurd heq (hapart (.aliasOf 0) (by decide)), ?_⟩
      rintro ⟨bits, anonymous, hbits⟩
      cases hbits
    | sequence => exact ⟨fun _ => ⟨_, _, rfl⟩, fun _ => rfl⟩
    | alternative =>
      refine ⟨fun heq => absurd heq (hapart (.alternative []) (by decide)), ?_⟩
      rintro ⟨bits, anonymous, hbits⟩
      cases hbits

end Arena

/-! ## The main results -/

namespace Grammar

variable {text : String} {g : Grammar}

/-- The canonical name of every rule of a loaded grammar is in the family of its shape. -/
theorem tag_inFamily_of_load (h : load text = .ok g) {id : RuleId} {r : Rule}
    (hr : g.rule? id = some r) :
    ∃ name, r.tag.dash = canonical (r.shape.family ++ "-" ++ name) := by
  obtain ⟨s, declared, nodes, a, hread⟩ := exists_readFrom (read_of_load h)
  rw [hread.rule?_eq] at hr
  exact Arena.tag_inFamily hread.stage hread.proper hread.checks hr

/-- The canonical name of every rule of a loaded grammar consists of words. -/
theorem dashed_of_load (h : load text = .ok g) {id : RuleId} {r : Rule}
    (hr : g.rule? id = some r) : Dashed r.tag.dash.toList := by
  obtain ⟨name, hname⟩ := tag_inFamily_of_load h hr
  rw [hname]
  exact dashed_canonical_inFamily r.shape.dashed_family name

theorem nodup_dash_of_checkTags {rules : List Rule} : ∀ {earlier : List Rule},
    checkTags earlier rules = .ok () → (rules.map (·.tag.dash)).Nodup ∧
      ∀ r ∈ rules, ∀ other ∈ earlier, other.tag.dash ≠ r.tag.dash := by
  induction rules with
  | nil => simp
  | cons rule rules ih =>
    intro earlier h
    rw [checkTags] at h
    split at h
    · cases h
    · rename_i hnone
      obtain ⟨hnodup, hapart⟩ := ih h
      have hfresh : ∀ other ∈ earlier, other.tag.dash ≠ rule.tag.dash := by
        simpa using List.find?_eq_none.1 hnone
      refine ⟨List.nodup_cons.2 ⟨fun hmem => ?_, hnodup⟩, List.forall_mem_cons.2 ⟨hfresh, ?_⟩⟩
      · obtain ⟨r, hr, hdash⟩ := List.mem_map.1 hmem
        exact hapart r hr rule List.mem_cons_self hdash.symm
      · exact fun r hr other hother => hapart r hr other (List.mem_cons_of_mem _ hother)

/-- The canonical names of a loaded grammar are distinct. -/
theorem nodup_dash_of_load (h : load text = .ok g) : (g.rules.toList.map (·.tag.dash)).Nodup := by
  have hcheck := check_of_load h
  unfold check at hcheck
  obtain ⟨⟨⟩, htags, -⟩ := bind_eq_ok_iff.1 hcheck
  exact (nodup_dash_of_checkTags htags).1

/-- Two rules of a loaded grammar with the same canonical name are one. -/
theorem eq_of_dash_eq_of_load (h : load text = .ok g) {i j : RuleId} {r r' : Rule}
    (hr : g.rule? i = some r) (hr' : g.rule? j = some r') (hdash : r.tag.dash = r'.tag.dash) :
    i = j := by
  rw [rule?, ← Array.getElem?_toList] at hr hr'
  have hget : (g.rules.toList.map (·.tag.dash))[i]? = (g.rules.toList.map (·.tag.dash))[j]? := by
    rw [List.getElem?_map, List.getElem?_map, hr, hr', Option.map_some, Option.map_some, hdash]
  refine (List.getElem?_inj ?_ (nodup_dash_of_load h)).1 hget
  rw [List.length_map]
  exact (List.getElem?_eq_some_iff.1 hr).1

/-- In a loaded grammar a rule for a suffix that is asked for early is named after the
    placeholder of its child, and any other after its child. So the canonical name of a rule for
    a suffix is that of its child in the family of the suffix, exactly if the suffix is not asked
    for before the body of the child is resolved or the child is a sequence. -/
theorem suffix_tag_of_load (h : load text = .ok g) : ∃ s, Source.parse text = .ok s ∧
    ∀ {id child : RuleId} {suffix : Suffix} {r c : Rule}, suffix ≠ .star → g.rule? id = some r →
      r.shape = Arena.suffixShape child suffix → g.rule? child = some c →
      (s.AsksEarly s.rules.length child suffix →
        r.tag.dash = Arena.family suffix ++ "-" ++ canonical ("tree" ++ "-" ++ c.name)) ∧
      (¬ s.AsksEarly s.rules.length child suffix →
        r.tag.dash = Arena.family suffix ++ "-" ++ c.tag.dash) ∧
      (r.tag.dash = Arena.family suffix ++ "-" ++ c.tag.dash ↔
        ¬ s.AsksEarly s.rules.length child suffix ∨
          ∃ bits anonymous, c.shape = .sequence bits anonymous) := by
  obtain ⟨s, declared, nodes, a, hread⟩ := exists_readFrom (read_of_load h)
  refine ⟨s, hread.parse, fun {id child suffix r c} hstar hr hshape hc => ?_⟩
  have hdashed : Dashed c.tag.dash.toList := dashed_of_load h hc
  rw [hread.rule?_eq] at hr hc
  have hfamily : Dashed (Arena.family suffix).toList := by
    rw [← Arena.family_suffixShape child suffix]
    exact Shape.dashed_family _
  have htree : Dashed (canonical ("tree" ++ "-" ++ c.name)).toList :=
    dashed_canonical_inFamily (Shape.dashed_family (.sequence [] true)) c.name
  obtain ⟨hearly, hlate⟩ := hread.stage.tag_of_shape hread.proper hstar hr hshape hc
  rw [canonical_inFamily_of_dashed hfamily htree] at hearly
  rw [canonical_inFamily_of_dashed hfamily hdashed] at hlate
  have hiff : s.AsksEarly s.rules.length child suffix →
      (c.tag.dash = canonical ("tree" ++ "-" ++ c.name) ↔
        ∃ bits anonymous, c.shape = .sequence bits anonymous) := fun h =>
    Arena.dash_eq_placeholder_iff hread.stage hread.proper (Arena.lt_size_of_asksEarly h) h.le hc
  -- both forms agree exactly if the child keeps the name of its placeholder
  refine ⟨hearly, hlate, fun hdash => ?_, ?_⟩
  · by_cases h : s.AsksEarly s.rules.length child suffix
    · refine .inr ((hiff h).1 ?_)
      exact (String.append_right_inj _).1 (hdash.symm.trans (hearly h))
    · exact .inl h
  · rintro (h | hsequence)
    · exact hlate h
    · by_cases h : s.AsksEarly s.rules.length child suffix
      · rw [hearly h, (hiff h).2 hsequence]
      · exact hlate h

/-- A grammar in which an alternative is declared before it is used. -/
def wrapped : String :=
  "language wrapped\nkeyword x\nkeyword y\nstart s\na:\n    x\n    y\ns:\n    a? x+\n"

theorem suffix_tag_of_load_wrapped : ∃ g s r c, load wrapped = .ok g ∧
    Source.parse wrapped = .ok s ∧ g.rule? 4 = some r ∧ r.shape = .option 2 ∧
    g.rule? 2 = some c ∧ r.tag.dash = "opt-any-a" ∧ c.tag.dash = "any-a" ∧
    ¬ s.AsksEarly s.rules.length 2 .optional := by
  have hok : (load wrapped).toOption.any (fun g =>
      decide ((g.rule? 4).map (fun r => (r.shape, r.tag.dash)) = some (.option 2, "opt-any-a") ∧
        (g.rule? 2).map (fun c => (c.shape, c.tag.dash)) = some (.alternative [0, 1], "any-a"))) =
      true := by
    decide +kernel
  obtain ⟨g, hg, hrules⟩ := any_toOption_iff.1 hok
  obtain ⟨hr, hc⟩ := of_decide_eq_true hrules
  obtain ⟨r, hr, hrule⟩ := Option.map_eq_some_iff.1 hr
  obtain ⟨c, hc, hchild⟩ := Option.map_eq_some_iff.1 hc
  obtain ⟨hshape, hdash⟩ := Prod.mk.inj hrule
  obtain ⟨hbits, hcdash⟩ := Prod.mk.inj hchild
  obtain ⟨s, hs, htagged⟩ := suffix_tag_of_load hg
  have hoption : r.shape = Arena.suffixShape 2 .optional := hshape
  obtain ⟨-, -, hiff⟩ := htagged Suffix.noConfusion hr hoption hc
  have hlate := (hiff.1 (by rw [hdash, hcdash]; decide)).resolve_right
    (fun ⟨_, _, hsequence⟩ => nomatch hbits.symm.trans hsequence)
  exact ⟨g, s, r, c, hg, hs, hr, hshape, hc, hdash, hcdash, hlate⟩

/-- The same grammar with the alternative after the rule that uses it. -/
def wrappedEarly : String :=
  "language wrapped\nkeyword x\nkeyword y\nstart s\ns:\n    a? x+\na:\n    x\n    y\n"

/-- The optional alternative is named after the placeholder. -/
theorem exists_suffix_tag_ne_wrappedEarly : ∃ g id child r c, load wrappedEarly = .ok g ∧
    g.rule? id = some r ∧ r.shape = .option child ∧ g.rule? child = some c ∧
    r.tag.dash = "opt-tree-a" ∧ c.tag.dash = "any-a" ∧
    r.tag.dash ≠ Arena.family .optional ++ "-" ++ c.tag.dash := by
  have hok : (load wrappedEarly).toOption.any (fun g =>
      decide ((g.rule? 4).map (fun r => (r.shape, r.tag.dash)) = some (.option 3, "opt-tree-a") ∧
        (g.rule? 3).map (·.tag.dash) = some "any-a")) = true := by
    decide +kernel
  obtain ⟨g, hg, hrules⟩ := any_toOption_iff.1 hok
  obtain ⟨hr, hc⟩ := of_decide_eq_true hrules
  obtain ⟨r, hr, hrule⟩ := Option.map_eq_some_iff.1 hr
  obtain ⟨c, hc, hcdash⟩ := Option.map_eq_some_iff.1 hc
  obtain ⟨hshape, hdash⟩ := Prod.mk.inj hrule
  refine ⟨g, 4, 3, r, c, hg, hr, hshape, hc, hdash, hcdash, ?_⟩
  rw [hdash, hcdash]
  decide

end Grammar

end LanguageWorkbench
