import LanguageWorkbench.Proofs.Dependents
import LanguageWorkbench.Proofs.Values

/-!
# How rules come to their names

The rules of an arena have their names from three sources: declarations, the lines of
alternatives, and elements with suffixes. Names are checked before they are resolved, and
the two go through the rule bodies in the same order. So each source is kept apart: no two
declared rules share a name, no two lines, no two rules for suffixes, and no other rule has
a declared name.

Results:
* `Source.Element.visual_inj`: what a suffixed element looks like tells its name and suffix.
* `Arena.Registered`: the names of an arena, by source.
* `Arena.Registered.element`, `Arena.Registered.body`, `Arena.Registered.bodies`: checked
  parts of a grammar text are resolved, and the names stay registered.
-/

namespace LanguageWorkbench

open Source

/-! ## Elements as they are written -/

namespace Source

/-- Without quotes the name of an element does not begin with one. -/
def Element.Proper (e : Element) : Prop := e.quoted = false → e.name.toList.head? ≠ some '\''

theorem Element.proper_of_parse {word : List Char} {e : Element} (h : parse word = .ok e) :
    e.Proper := by
  unfold parse at h
  dsimp only at h
  split_ifs at h with hempty
  obtain ⟨suffix, -, h⟩ := bind_eq_ok_iff.1 h
  cases h
  intro hquoted
  have hhead : word.head? ≠ some '\'' := by simpa using hquoted
  show (String.ofList (splitSuffix word).1).toList.head? ≠ some '\''
  rw [String.toList_ofList]
  unfold splitSuffix at hempty ⊢
  split
  · exact absurd rfl hhead
  · split
    · split_ifs
      · -- a name before a suffix begins the word
        rename_i c hlast hsuffix
        cases word with
        | nil => exact hhead
        | cons d rest =>
          cases rest with
          | nil => simp at hsuffix
          | cons d' rest => simpa using hhead
      · exact hhead
    · exact hhead

theorem Suffix.toChar_inj {s s' : Suffix} (h : s.toChar = s'.toChar) : s = s' := by
  have hsome := congrArg ofChar? h
  rw [ofChar?_toChar, ofChar?_toChar] at hsome
  exact Option.some.inj hsome

/-- Elements with suffixes that are written alike have the same name and suffix. -/
theorem Element.visual_inj {e e' : Element} {s s' : Suffix} (he : e.Proper) (he' : e'.Proper)
    (hs : e.suffix = some s) (hs' : e'.suffix = some s') (h : e.visual = e'.visual) :
    e.name = e'.name ∧ s = s' := by
  have hquoted : ∀ name : String, ("'" ++ name ++ "'").toList = '\'' :: name.toList ++ ['\''] := by
    intro name
    simp
  have hchars := congrArg String.toList h
  simp only [visual, hs, hs', String.toList_push] at hchars
  obtain ⟨hname, hsuffix⟩ := List.append_inj' hchars rfl
  refine ⟨?_, Suffix.toChar_inj (List.singleton_inj.1 hsuffix)⟩
  cases hq : e.quoted with
  | true =>
    cases hq' : e'.quoted with
    | true =>
      rw [if_pos hq, if_pos hq', hquoted, hquoted] at hname
      obtain ⟨hname, -⟩ := List.append_inj' (List.cons.inj hname).2 rfl
      exact String.toList_inj.1 hname
    | false =>
      rw [if_pos hq, if_neg (by rw [hq']; exact Bool.false_ne_true), hquoted] at hname
      exact absurd (congrArg List.head? hname).symm (he' hq')
  | false =>
    cases hq' : e'.quoted with
    | true =>
      rw [if_neg (by rw [hq]; exact Bool.false_ne_true), if_pos hq', hquoted] at hname
      exact absurd (congrArg List.head? hname) (he hq)
    | false =>
      rw [if_neg (by rw [hq]; exact Bool.false_ne_true),
        if_neg (by rw [hq']; exact Bool.false_ne_true)] at hname
      exact String.toList_inj.1 hname

/-- The elements of a line are proper. -/
theorem Line.proper_of_parse {text : List Char} {es : List Element} {tag : Option String}
    (h : parse text = .ok (es, tag)) : ∀ e ∈ es, e.Proper := by
  fun_induction parse text generalizing es tag with
  | case1 text htrim =>
    cases h
    simp
  | case2 text tag' htrim hbad => cases h
  | case3 text tag' htrim hgood =>
    cases h
    simp
  | case4 text c cs hc htrim e hcut => cases h
  | case5 text c cs hc htrim word rest hcut ih =>
    obtain ⟨element, helement, h⟩ := bind_eq_ok_iff.1 h
    obtain ⟨⟨es', tag'⟩, hrest, h⟩ := bind_eq_ok_iff.1 h
    cases h
    exact List.forall_mem_cons.2 ⟨Element.proper_of_parse helement, ih hrest⟩

/-! ## What is checked -/

variable {declared declared' : Declared} {nodes nodes' : List String}

theorem isSome_lookup_iff {name : String} :
    (declared.lookup name).isSome = true ↔ name ∈ declared.map Prod.fst := by
  rw [← not_iff_not, Bool.not_eq_true, Option.isSome_eq_false_iff, Option.isNone_iff_eq_none,
    List.lookup_eq_none_iff]
  constructor
  · intro h hname
    obtain ⟨entry, hentry, rfl⟩ := List.mem_map.1 hname
    simpa using h entry hentry
  · intro h entry hentry
    rw [bne_iff_ne]
    rintro rfl
    exact h (List.mem_map.2 ⟨entry, hentry, rfl⟩)

/-- Declared names are declared once, and none begins with a dollar sign. -/
theorem declareAll_spec {mentions : List Mention}
    (h : declareAll declared mentions = .ok declared') :
    declared'.map Prod.fst = (mentions.map Mention.name).reverse ++ declared.map Prod.fst ∧
      ((declared.map Prod.fst).Nodup → (declared'.map Prod.fst).Nodup) ∧
      ∀ m ∈ mentions, m.name.toList.head? ≠ some '$' := by
  induction mentions generalizing declared with
  | nil =>
    cases h
    simp
  | cons m mentions ih =>
    obtain ⟨next, hnext, h⟩ := bind_eq_ok_iff.1 h
    obtain ⟨⟨⟩, hreserved, hnext⟩ := bind_eq_ok_iff.1 hnext
    have hdollar : m.name.toList.head? ≠ some '$' := by
      intro hhead
      rw [checkReserved, if_pos hhead] at hreserved
      cases hreserved
    split at hnext
    · cases hnext
    · rename_i hfresh
      cases hnext
      obtain ⟨hnames, hnodup, hrest⟩ := ih h
      refine ⟨by rw [hnames]; simp, fun hd => hnodup (List.nodup_cons.2 ⟨?_, hd⟩),
        List.forall_mem_cons.2 ⟨hdollar, hrest⟩⟩
      rw [← isSome_lookup_iff, hfresh]
      exact Bool.false_ne_true

/-- What a checked line of a rule with several lines adds to the names of node types. -/
theorem nodes_of_checkLine {rule : String} {index : Nat} {line : BodyLine}
    (h : checkLine declared rule false nodes index line = .ok nodes') :
    (line.elements.length ≤ 1 ∧ nodes' = nodes) ∨
      (1 < line.elements.length ∧ declared.lookup (line.sequenceName rule index) = none ∧
        line.sequenceName rule index ∉ nodes ∧ nodes' = line.sequenceName rule index :: nodes) := by
  obtain ⟨-, -, h⟩ := bind_eq_ok_iff.1 h
  simp only [Bool.not_false, Bool.true_and, if_true, decide_eq_true_eq] at h
  split_ifs at h with hlong hknown
  · cases h
  · obtain ⟨_, hnodes, h⟩ := bind_eq_ok_iff.1 h
    obtain ⟨⟨⟩, -, h⟩ := bind_eq_ok_iff.1 h
    obtain ⟨⟨⟩, -, h⟩ := bind_eq_ok_iff.1 h
    cases hnodes
    cases h
    rw [Bool.not_eq_true, Bool.or_eq_false_iff, Option.isSome_eq_false_iff,
      Option.isNone_iff_eq_none] at hknown
    exact .inr ⟨hlong, hknown.1, by simpa using hknown.2, rfl⟩
  · obtain ⟨_, hnodes, h⟩ := bind_eq_ok_iff.1 h
    obtain ⟨⟨⟩, -, h⟩ := bind_eq_ok_iff.1 h
    obtain ⟨⟨⟩, -, h⟩ := bind_eq_ok_iff.1 h
    cases hnodes
    cases h
    exact .inl ⟨Nat.le_of_not_lt hlong, rfl⟩

theorem nodes_of_checkLine_single {rule : String} {index : Nat} {line : BodyLine}
    (h : checkLine declared rule true nodes index line = .ok nodes') : nodes = nodes' := by
  obtain ⟨-, -, h⟩ := bind_eq_ok_iff.1 h
  simp only [Bool.not_true, Bool.false_and, Bool.false_eq_true, if_false] at h
  obtain ⟨_, hnodes, h⟩ := bind_eq_ok_iff.1 h
  obtain ⟨⟨⟩, -, h⟩ := bind_eq_ok_iff.1 h
  cases hnodes
  cases h
  rfl

/-- The tags of the lines of rule bodies. -/
def tags (s : Source) : List String := s.rules.flatMap fun decl => decl.body.filterMap (·.tag)

/-- A name that ends like one of a line without a tag. -/
def IsNumbered (name : String) : Prop := ∃ c ∈ name.toList.getLast?, c.isDigit = true

end Source

/-! ## Rules that are not declared -/

/-- The rule stands for one line of an alternative. -/
def Rule.IsLine (r : Rule) : Prop := ∃ bits, r.shape = .sequence bits true

/-- The rule was made for an element with a suffix. -/
def Rule.IsSuffixed (r : Rule) : Prop := ∃ child suffix, r.shape = Arena.suffixShape child suffix

theorem Rule.IsSuffixed.not_isLine {r : Rule} (h : r.IsSuffixed) : ¬ r.IsLine := by
  obtain ⟨child, suffix, h⟩ := h
  rintro ⟨bits, hbits⟩
  rw [h] at hbits
  cases suffix <;> cases hbits

namespace Arena

/-- The rule is made for an element that is written as a base with a suffix. -/
def Writes (a : Arena) (base : RuleId) (suffix : Suffix) (r : Rule) : Prop :=
  ∃ e : Element, e.Proper ∧ e.suffix = some suffix ∧
    (∃ b, a.rules[base]? = some b ∧ b.name = e.name) ∧ r.name = e.visual ∧
      ∃ child, r.shape = suffixShape child suffix

/-- There is a rule with this number, and it is no line. -/
def Whole (a : Arena) (id : RuleId) : Prop := ∃ r, a.rules[id]? = some r ∧ ¬ r.IsLine

/-- The rules of an arena and the names they have. The first `count` rules are declared, each
    under a name of its own. The others are lines, whose names are among `nodes`, and rules
    for suffixes, whose names are written with the suffix. Only alternatives lead to lines. -/
structure Registered (declared : Declared) (tags : List String) (count : Nat)
    (nodes : List String) (a : Arena) : Prop where
  le_size : count ≤ a.rules.size
  lt_iff : ∀ {id : RuleId} {r : Rule}, a.rules[id]? = some r →
    (id < count ↔ (declared.lookup r.name).isSome = true)
  first_inj : ∀ {i j : RuleId} {r r' : Rule}, i < count → a.rules[i]? = some r →
    a.rules[j]? = some r' → r.name = r'.name → i = j
  listed : ∀ {id : RuleId} {r : Rule}, a.rules[id]? = some r → (a.names.lookup r.name).isSome = true
  known : ∀ name, (declared.lookup name).isSome = true ∨ name ∈ nodes →
    (a.names.lookup name).isSome = true
  added : ∀ {id : RuleId} {r : Rule}, count ≤ id → a.rules[id]? = some r →
    r.IsLine ∨ ∃ key, (key, id) ∈ a.suffixed
  line : ∀ {id : RuleId} {r : Rule}, a.rules[id]? = some r → r.IsLine →
    count ≤ id ∧ r.name ∈ nodes ∧ (r.name ∈ tags ∨ IsNumbered r.name)
  line_inj : ∀ {i j : RuleId} {r r' : Rule}, a.rules[i]? = some r → a.rules[j]? = some r' →
    r.IsLine → r'.IsLine → r.name = r'.name → i = j
  suffixed : ∀ {base id : RuleId} {suffix : Suffix}, ((base, suffix), id) ∈ a.suffixed →
    count ≤ id ∧ base < count ∧ ∃ r, a.rules[id]? = some r ∧ a.Writes base suffix r
  suffixed_inj : ∀ {key : RuleId × Suffix} {id id' : RuleId}, (key, id) ∈ a.suffixed →
    (key, id') ∈ a.suffixed → id = id'
  children : ∀ {id child : RuleId} {r : Rule}, a.rules[id]? = some r → child ∈ r.shape.children →
    ∃ c, a.rules[child]? = some c ∧ (c.IsLine → ∃ bits, r.shape = .alternative bits)

variable {declared : Declared} {tags : List String} {count : Nat} {nodes nodes' : List String}
  {a a' : Arena} {id base child : RuleId}

theorem Writes.mono {a a' : Arena} {suffix : Suffix} {r : Rule} (h : a.Writes base suffix r)
    (hnames : ∀ b, a.rules[base]? = some b → ∃ b', a'.rules[base]? = some b' ∧ b'.name = b.name) :
    a'.Writes base suffix r := by
  obtain ⟨e, hproper, hsuffix, ⟨b, hb, hname⟩, hr⟩ := h
  obtain ⟨b', hb', hsame⟩ := hnames b hb
  exact ⟨e, hproper, hsuffix, ⟨b', hb', hsame.trans hname⟩, hr⟩

/-- The number behind a declared name is that of a declared rule. -/
theorem Registered.exists_of_declared (h : a.Registered declared tags count nodes) (hs : a.Sound)
    {name : String} (hdeclared : (declared.lookup name).isSome = true) :
    ∃ id r, a.names.lookup name = some id ∧ id < count ∧ a.rules[id]? = some r ∧
      r.name = name := by
  obtain ⟨id, hlookup⟩ := Option.isSome_iff_exists.1 (h.known name (.inl hdeclared))
  obtain ⟨r, hr, rfl⟩ := hs.named (mem_of_lookup hlookup)
  exact ⟨id, r, hlookup, (h.lt_iff hr).2 hdeclared, hr, rfl⟩

theorem Registered.whole_of_lt (h : a.Registered declared tags count nodes) (hid : id < count) :
    a.Whole id := by
  have hlt : id < a.rules.size := Nat.lt_of_lt_of_le hid h.le_size
  refine ⟨a.rules[id], Array.getElem?_eq_getElem hlt, fun hline => ?_⟩
  exact absurd hid (Nat.not_lt.2 (h.line (Array.getElem?_eq_getElem hlt) hline).1)

theorem Registered.whole_of_suffixed (h : a.Registered declared tags count nodes) {base : RuleId}
    {suffix : Suffix} (hmem : ((base, suffix), id) ∈ a.suffixed) : a.Whole id := by
  obtain ⟨-, -, r, hr, e, -, -, -, -, child, hshape⟩ := h.suffixed hmem
  exact ⟨r, hr, Rule.IsSuffixed.not_isLine ⟨child, suffix, hshape⟩⟩

theorem Keeps.whole (hk : a.Keeps a') (h : a.Whole id) : a'.Whole id := by
  obtain ⟨r, hr, hline⟩ := h
  exact ⟨r, hk _ _ hr, hline⟩

theorem isSome_lookup_cons {names : List (String × RuleId)} {name name' : String} :
    (((name, id) :: names).lookup name').isSome = true ↔
      name' = name ∨ (names.lookup name').isSome = true := by
  rw [List.lookup_cons]
  by_cases hname : name' = name
  · simp [hname]
  · rw [beq_false_of_ne hname]
    simp [hname]

/-! ## Growing -/

/-- What an added rule that is not declared brings: a line its name, and a rule for a suffix
    its number. -/
inductive Brings (a : Arena) (tags : List String) (count : Nat) (nodes : List String)
    (rule : Rule) : List ((RuleId × Suffix) × RuleId) → List String → Prop
  | line (hline : rule.IsLine) (hfresh : rule.name ∉ nodes)
      (htag : rule.name ∈ tags ∨ IsNumbered rule.name) :
      Brings a tags count nodes rule a.suffixed (rule.name :: nodes)
  | suffix {base : RuleId} {suffix : Suffix} (hbase : base < count)
      (hnone : ∀ id, ((base, suffix), id) ∉ a.suffixed) (hwrites : a.Writes base suffix rule) :
      Brings a tags count nodes rule (((base, suffix), a.rules.size) :: a.suffixed) nodes

section

variable {rule : Rule} {suffixed : List ((RuleId × Suffix) × RuleId)}
  (h : a.Brings tags count nodes rule suffixed nodes')

include h

theorem Brings.subset : ∀ entry ∈ a.suffixed, entry ∈ suffixed := by
  cases h with
  | line => exact fun _ hentry => hentry
  | suffix => exact fun _ hentry => List.mem_cons_of_mem _ hentry

theorem Brings.mem_suffixed {base id : RuleId} {suffix : Suffix}
    (hmem : ((base, suffix), id) ∈ suffixed) : ((base, suffix), id) ∈ a.suffixed ∨
      (id = a.rules.size ∧ base < count ∧ (∀ id, ((base, suffix), id) ∉ a.suffixed) ∧
        a.Writes base suffix rule) := by
  cases h with
  | line => exact .inl hmem
  | suffix hbase hnone hwrites =>
    rcases List.mem_cons.1 hmem with heq | hmem
    · obtain ⟨hkey, rfl⟩ := Prod.mk.inj heq
      obtain ⟨rfl, rfl⟩ := Prod.mk.inj hkey
      exact .inr ⟨rfl, hbase, hnone, hwrites⟩
    · exact .inl hmem

theorem Brings.nodes_subset : nodes ⊆ nodes' := by
  cases h with
  | line => exact List.subset_cons_self ..
  | suffix => exact List.Subset.refl _

theorem Brings.mem_nodes {name : String} (hmem : name ∈ nodes') :
    name = rule.name ∨ name ∈ nodes := by
  cases h with
  | line => exact List.mem_cons.1 hmem
  | suffix => exact .inr hmem

theorem Brings.of_line (hline : rule.IsLine) : rule.name ∉ nodes ∧ rule.name ∈ nodes' ∧
    (rule.name ∈ tags ∨ IsNumbered rule.name) := by
  cases h with
  | line _ hfresh htag => exact ⟨hfresh, List.mem_cons_self, htag⟩
  | suffix _ _ hwrites =>
    obtain ⟨_, -, -, -, -, child, hshape⟩ := hwrites
    exact absurd hline (Rule.IsSuffixed.not_isLine ⟨child, _, hshape⟩)

theorem Brings.isLine_or : rule.IsLine ∨ ∃ key, (key, a.rules.size) ∈ suffixed := by
  cases h with
  | line hline => exact .inl hline
  | suffix => exact .inr ⟨_, List.mem_cons_self⟩

end

/-- A rule is added under a name that is not declared: a line or a rule for a suffix. -/
theorem Registered.add (h : a.Registered declared tags count nodes) (rule : Rule)
    {names : List (String × RuleId)} {suffixed : List ((RuleId × Suffix) × RuleId)}
    (hname : declared.lookup rule.name = none)
    (hnames : ∀ name, (names.lookup name).isSome = true ↔
      name = rule.name ∨ (a.names.lookup name).isSome = true)
    (hnew : a.Brings tags count nodes rule suffixed nodes')
    (hchildren : ∀ child ∈ rule.shape.children, a.Whole child) :
    Registered declared tags count nodes' ⟨a.rules.push rule, names, suffixed⟩ := by
  have hle := h.le_size
  have hwrites : ∀ {base : RuleId} {suffix : Suffix} {r : Rule}, a.Writes base suffix r →
      Writes ⟨a.rules.push rule, names, suffixed⟩ base suffix r :=
    fun hr => hr.mono fun b hb => ⟨b, keeps_push hb, rfl⟩
  constructor
  case le_size =>
    rw [Array.size_push]
    exact Nat.le_succ_of_le hle
  case lt_iff =>
    intro id r hr
    rcases getElem?_push_cases hr with hold | ⟨rfl, rfl⟩
    · exact h.lt_iff hold
    · rw [hname]
      simpa using hle
  case first_inj =>
    intro i j r r' hi hr hr' heq
    rcases getElem?_push_cases hr with hold | ⟨rfl, -⟩
    · rcases getElem?_push_cases hr' with hold' | ⟨-, rfl⟩
      · exact h.first_inj hi hold hold' heq
      · rw [h.lt_iff hold, heq, hname] at hi
        cases hi
    · exact absurd hi (Nat.not_lt.2 hle)
  case listed =>
    intro id r hr
    rw [hnames]
    rcases getElem?_push_cases hr with hold | ⟨-, rfl⟩
    · exact .inr (h.listed hold)
    · exact .inl rfl
  case known =>
    intro name hmem
    rw [hnames]
    rcases hmem with hmem | hmem
    · exact .inr (h.known name (.inl hmem))
    · exact (hnew.mem_nodes hmem).imp_right fun hmem => h.known name (.inr hmem)
  case added =>
    intro id r hid hr
    rcases getElem?_push_cases hr with hold | ⟨rfl, rfl⟩
    · exact (h.added hid hold).imp_right (Exists.imp fun _ => hnew.subset _)
    · exact hnew.isLine_or
  case line =>
    intro id r hr hline
    rcases getElem?_push_cases hr with hold | ⟨rfl, rfl⟩
    · obtain ⟨hid, hmem, htag⟩ := h.line hold hline
      exact ⟨hid, hnew.nodes_subset hmem, htag⟩
    · exact ⟨hle, (hnew.of_line hline).2⟩
  case line_inj =>
    intro i j r r' hr hr' hline hline' heq
    rcases getElem?_push_cases hr with hold | ⟨rfl, rfl⟩
    · rcases getElem?_push_cases hr' with hold' | ⟨-, rfl⟩
      · exact h.line_inj hold hold' hline hline' heq
      · exact absurd (heq ▸ (h.line hold hline).2.1) (hnew.of_line hline').1
    · rcases getElem?_push_cases hr' with hold' | ⟨hj, -⟩
      · exact absurd (heq ▸ (h.line hold' hline').2.1) (hnew.of_line hline).1
      · exact hj.symm
  case suffixed =>
    intro base id suffix hmem
    rcases hnew.mem_suffixed hmem with hmem | ⟨rfl, hbase, -, hwrite⟩
    · obtain ⟨hid, hbase, r, hr, hwrite⟩ := h.suffixed hmem
      exact ⟨hid, hbase, r, keeps_push hr, hwrites hwrite⟩
    · exact ⟨hle, hbase, rule, Array.getElem?_push_size, hwrites hwrite⟩
  case suffixed_inj =>
    rintro ⟨base, suffix⟩ id id' hmem hmem'
    rcases hnew.mem_suffixed hmem with hold | ⟨rfl, -, hnone, -⟩
    · rcases hnew.mem_suffixed hmem' with hold' | ⟨-, -, hnone, -⟩
      · exact h.suffixed_inj hold hold'
      · exact absurd hold (hnone id)
    · rcases hnew.mem_suffixed hmem' with hold' | ⟨rfl, -⟩
      · exact absurd hold' (hnone id')
      · rfl
  case children =>
    intro id child r hr hchild
    rcases getElem?_push_cases hr with hold | ⟨-, rfl⟩
    · obtain ⟨c, hc, hline⟩ := h.children hold hchild
      exact ⟨c, keeps_push hc, hline⟩
    · obtain ⟨c, hc, hline⟩ := hchildren child hchild
      exact ⟨c, keeps_push hc, fun hl => absurd hl hline⟩

theorem Registered.pushLine (h : a.Registered declared tags count nodes) {name : String}
    (line : Nat) (bits : List RuleId) (hname : declared.lookup name = none)
    (hfresh : name ∉ nodes) (htag : name ∈ tags ∨ IsNumbered name)
    (hbits : ∀ bit ∈ bits, a.Whole bit) :
    (a.push ⟨.inFamily "tree" name name, line, .sequence bits true⟩).2.Registered declared tags
      count (name :: nodes) :=
  h.add _ hname (fun _ => isSome_lookup_cons) (.line ⟨bits, rfl⟩ hfresh htag) hbits

theorem Registered.suffixRule (h : a.Registered declared tags count nodes) {e : Element}
    {suffix : Suffix} (line : Nat) (hchild : a.Whole child) (hbase : base < count)
    (hb : ∃ b, a.rules[base]? = some b ∧ b.name = e.name) (hproper : e.Proper)
    (hsuffix : e.suffix = some suffix) (hname : declared.lookup e.visual = none)
    (hr : a.suffixRule base child suffix e.visual line = (id, a')) :
    a'.Registered declared tags count nodes ∧ a'.Whole id := by
  cases suffixMove hr with
  | known hmem => exact ⟨h, h.whole_of_suffixed hmem⟩
  | added hnone hnames =>
    refine ⟨h.add _ hname (fun name => ?_)
      (.suffix hbase hnone ⟨e, hproper, hsuffix, hb, rfl, child, rfl⟩) (fun c hc => ?_), _,
      Array.getElem?_push_size, Rule.IsSuffixed.not_isLine ⟨child, suffix, rfl⟩⟩
    · rcases hnames with ⟨rfl, htaken⟩ | ⟨rfl, -⟩
      · constructor
        · exact .inr
        · rintro (rfl | hname)
          · exact htaken
          · exact hname
      · exact isSome_lookup_cons
    · obtain rfl : c = child := by
        cases suffix <;> exact List.mem_singleton.1 hc
      exact hchild

section

variable {rule old : Rule} (hid : id < count) (hold : a.rules[id]? = some old)
  (hname : old.name = rule.name) (hline : ¬ rule.IsLine)

include hid hold hname hline

/-- Every rule has the name of the rule in whose place it is. -/
theorem exists_of_replaced {i : RuleId} {r : Rule}
    (hr : (a.rules.setIfInBounds id rule)[i]? = some r) :
    ∃ r', a.rules[i]? = some r' ∧ r'.name = r.name ∧ (r.IsLine ∨ count ≤ i → r' = r) := by
  have hself := Array.getElem?_setIfInBounds_self_of_lt (a := rule)
    (Array.getElem?_eq_some_iff.1 hold).1
  by_cases hi : id = i
  · subst hi
    obtain rfl := Option.some.inj (hself.symm.trans hr)
    refine ⟨old, hold, hname, ?_⟩
    rintro (hl | hl)
    · exact absurd hl hline
    · exact absurd hid (Nat.not_lt.2 hl)
  · rw [Array.getElem?_setIfInBounds_ne hi] at hr
    exact ⟨r, hr, rfl, fun _ => rfl⟩

theorem exists_replaced {i : RuleId} {r : Rule} (hr : a.rules[i]? = some r) :
    ∃ r', (a.rules.setIfInBounds id rule)[i]? = some r' ∧ r'.name = r.name ∧
      (r'.IsLine → r.IsLine) ∧ (count ≤ i → r' = r) := by
  by_cases hi : id = i
  · subst hi
    obtain rfl := Option.some.inj (hold.symm.trans hr)
    exact ⟨rule, Array.getElem?_setIfInBounds_self_of_lt (Array.getElem?_eq_some_iff.1 hold).1,
      hname.symm, fun hl => absurd hl hline, fun hl => absurd hid (Nat.not_lt.2 hl)⟩
  · exact ⟨r, by rw [Array.getElem?_setIfInBounds_ne hi, hr], rfl, fun hl => hl, fun _ => rfl⟩

end

/-- A declared rule is replaced by one of its name that is no line. -/
theorem Registered.replace (h : a.Registered declared tags count nodes) (rule : Rule) {old : Rule}
    (hid : id < count) (hold : a.rules[id]? = some old) (hname : old.name = rule.name)
    (hline : ¬ rule.IsLine)
    (hchildren : ∀ child ∈ rule.shape.children, ∃ c, a.rules[child]? = some c ∧
      (c.IsLine → ∃ bits, rule.shape = .alternative bits)) :
    Registered declared tags count nodes { a with rules := a.rules.setIfInBounds id rule } := by
  have hback : ∀ {i : RuleId} {r : Rule}, (a.rules.setIfInBounds id rule)[i]? = some r →
      ∃ r', a.rules[i]? = some r' ∧ r'.name = r.name ∧ (r.IsLine ∨ count ≤ i → r' = r) :=
    exists_of_replaced hid hold hname hline
  constructor
  case le_size =>
    rw [Array.size_setIfInBounds]
    exact h.le_size
  case lt_iff =>
    intro i r hr
    obtain ⟨o, ho, hsame, -⟩ := hback hr
    rw [← hsame]
    exact h.lt_iff ho
  case first_inj =>
    intro i j r r' hi hr hr' heq
    obtain ⟨o, ho, hsame, -⟩ := hback hr
    obtain ⟨o', ho', hsame', -⟩ := hback hr'
    exact h.first_inj hi ho ho' (by rw [hsame, heq, hsame'])
  case listed =>
    intro i r hr
    obtain ⟨o, ho, hsame, -⟩ := hback hr
    rw [← hsame]
    exact h.listed ho
  case known => exact h.known
  case added =>
    intro i r hi hr
    obtain ⟨o, ho, -, hsame⟩ := hback hr
    exact h.added hi (hsame (.inr hi) ▸ ho)
  case line =>
    intro i r hr hl
    obtain ⟨o, ho, -, hsame⟩ := hback hr
    exact h.line (hsame (.inl hl) ▸ ho) hl
  case line_inj =>
    intro i j r r' hr hr' hl hl' heq
    obtain ⟨o, ho, -, hsame⟩ := hback hr
    obtain ⟨o', ho', -, hsame'⟩ := hback hr'
    exact h.line_inj (hsame (.inl hl) ▸ ho) (hsame' (.inl hl') ▸ ho') hl hl' heq
  case suffixed =>
    intro base i suffix hmem
    obtain ⟨hi, hbase, r, hr, hwrites⟩ := h.suffixed hmem
    obtain ⟨r', hr', -, -, hsame⟩ := exists_replaced hid hold hname hline hr
    refine ⟨hi, hbase, r, hsame hi ▸ hr', hwrites.mono fun b hb => ?_⟩
    obtain ⟨b', hb', hbname, -⟩ := exists_replaced hid hold hname hline hb
    exact ⟨b', hb', hbname⟩
  case suffixed_inj => exact h.suffixed_inj
  case children =>
    intro i child r hr hchild
    have holdChild : ∃ c, a.rules[child]? = some c ∧
        (c.IsLine → ∃ bits, r.shape = .alternative bits) := by
      by_cases hi : id = i
      · subst hi
        rw [Array.getElem?_setIfInBounds_self_of_lt (Array.getElem?_eq_some_iff.1 hold).1] at hr
        cases hr
        exact hchildren child hchild
      · rw [Array.getElem?_setIfInBounds_ne hi] at hr
        exact h.children hr hchild
    obtain ⟨c, hc, hcline⟩ := holdChild
    obtain ⟨c', hc', -, hl, -⟩ := exists_replaced hid hold hname hline hc
    exact ⟨c', hc', fun hl' => hcline (hl hl')⟩

/-! ## Bodies -/

/-- A checked element has a rule, which is no line. -/
theorem Registered.element (h : a.Registered declared tags count nodes) (hs : a.Sound)
    (line : Nat) {line' : Nat} {before : Option Element} {e : Element}
    (hcheck : checkElement declared line' before e = .ok ()) (hproper : e.Proper) :
    ∃ id a', a.element line e = .ok (id, a') ∧ a'.Registered declared tags count nodes ∧
      a'.Whole id := by
  obtain ⟨hname, hforms, -⟩ := checkElement_spec hcheck
  obtain ⟨base, b, hlookup, hbase, hb, hbname⟩ := h.exists_of_declared hs hname
  obtain ⟨id, a', he⟩ := exists_element line (Option.isSome_of_eq_some hlookup)
  obtain ⟨base', hlookup', hmove⟩ := elementMove he
  obtain rfl := Option.some.inj (hlookup.symm.trans hlookup')
  have hwhole := h.whole_of_lt hbase
  have hvisual : ∀ {suffix : Suffix}, e.suffix = some suffix → declared.lookup e.visual = none := by
    intro suffix hsuffix
    apply hforms
    cases suffix <;> simp [writtenForms, hsuffix]
  refine ⟨id, a', he, ?_⟩
  cases hmove with
  | plain => exact ⟨h, hwhole⟩
  | knownStar _ hmem => exact ⟨h, h.whole_of_suffixed hmem⟩
  | newStar hsuffix hlist hstar =>
    -- the list of the base comes before the option
    have hplus : declared.lookup { e with suffix := some .plus }.visual = none := by
      apply hforms
      simp [writtenForms, hsuffix]
    have hkeeps := (hs.suffixRule hlist).2
    obtain ⟨h₁, hwhole₁⟩ := h.suffixRule (e := { e with suffix := some .plus }) line hwhole hbase
      ⟨b, hb, hbname⟩ hproper rfl hplus hlist
    exact h₁.suffixRule line hwhole₁ hbase ⟨b, hkeeps _ _ hb, hbname⟩ hproper hsuffix
      (hvisual hsuffix) hstar
  | single hsuffix _ hrule =>
    exact h.suffixRule line hwhole hbase ⟨b, hb, hbname⟩ hproper hsuffix (hvisual hsuffix) hrule

theorem Registered.elements (line : Nat) {line' : Nat} {es : List Element} : ∀ {a : Arena}
    {before : Option Element}, a.Registered declared tags count nodes → a.Sound →
    checkElements declared line' before es = .ok () → (∀ e ∈ es, e.Proper) →
    ∃ ids a', a.elements line es = .ok (ids, a') ∧ a'.Registered declared tags count nodes ∧
      ∀ id ∈ ids, a'.Whole id := by
  induction es with
  | nil => exact fun h _ _ _ => ⟨[], _, rfl, h, fun _ hid => nomatch hid⟩
  | cons e es ih =>
    intro a before h hs hcheck hproper
    obtain ⟨⟨⟩, hcheck₁, hcheck⟩ := bind_eq_ok_iff.1 hcheck
    obtain ⟨hproper₁, hproper⟩ := List.forall_mem_cons.1 hproper
    obtain ⟨id, a₁, h₁, hr₁, hid⟩ := h.element hs line hcheck₁ hproper₁
    have hs₁ := (hs.element h₁).1
    obtain ⟨ids, a₂, h₂, hr₂, hids⟩ := ih hr₁ hs₁ hcheck hproper
    refine ⟨id :: ids, a₂, ?_, hr₂, List.forall_mem_cons.2 ⟨(hs₁.elements h₂).2.1.whole hid, hids⟩⟩
    simp only [Arena.elements, h₁, h₂, bind, Except.bind, pure, Except.pure]

/-- A line without a tag has a numbered name. -/
theorem tag_or_isNumbered {rule : String} {index : Nat} {line : BodyLine}
    (htag : ∀ tag, line.tag = some tag → tag ∈ tags) :
    line.sequenceName rule index ∈ tags ∨ IsNumbered (line.sequenceName rule index) := by
  unfold BodyLine.sequenceName
  cases hline : line.tag with
  | some tag => exact .inl (htag tag hline)
  | none =>
    right
    have hdigits := Nat.toDigits_ne_nil (n := index + 1) (b := 10)
    refine ⟨(Nat.toDigits 10 (index + 1)).getLast hdigits, ?_,
      Nat.isDigit_of_mem_toDigits (by omega) (by omega) (List.getLast_mem hdigits)⟩
    rw [Option.getD_none, String.toList_append, List.getLast?_append, Nat.toString_eq_ofList_toDigits,
      String.toList_ofList, List.getLast?_eq_some_getLast hdigits]
    rfl

theorem Registered.alternativeLine (h : a.Registered declared tags count nodes) (hs : a.Sound)
    {rule : String} {index : Nat} {line : BodyLine} (hread : line.Read)
    (htag : ∀ tag, line.tag = some tag → tag ∈ tags)
    (hcheck : checkLine declared rule false nodes index line = .ok nodes') :
    ∃ id a', a.alternativeLine rule index line = .ok (id, a') ∧
      a'.Registered declared tags count nodes' ∧ ∃ c, a'.rules[id]? = some c := by
  obtain ⟨hne, text, hparse⟩ := hread
  have hproper := Line.proper_of_parse hparse
  have helements := checkElements_of_checkLine hcheck
  unfold Arena.alternativeLine
  split
  · rename_i e heq
    rw [heq] at helements hproper
    obtain ⟨⟨⟩, hcheck₁, -⟩ := bind_eq_ok_iff.1 helements
    rcases nodes_of_checkLine hcheck with ⟨-, rfl⟩ | ⟨hlong, -⟩
    · obtain ⟨id, a₁, h₁, hr₁, c, hc, -⟩ :=
        h.element hs line.line hcheck₁ (hproper e (List.mem_singleton_self e))
      exact ⟨id, a₁, h₁, hr₁, c, hc⟩
    · rw [heq] at hlong
      simp at hlong
  · rename_i hone
    have hlong := two_le_length hne hone
    rcases nodes_of_checkLine hcheck with ⟨hshort, -⟩ | ⟨-, hname, hfresh, rfl⟩
    · omega
    · obtain ⟨bits, a₁, h₁, hr₁, hbits⟩ := Registered.elements line.line h hs helements hproper
      refine ⟨a₁.rules.size, _, ?_, hr₁.pushLine line.line bits hname hfresh
        (tag_or_isNumbered htag) hbits, _, Array.getElem?_push_size⟩
      simp only [h₁, bind, Except.bind, pure, Except.pure]
      rfl

theorem Registered.alternativeLines {rule : String} {lines : List BodyLine} : ∀ {a : Arena}
    {index : Nat} {nodes : List String}, a.Registered declared tags count nodes → a.Sound →
    (∀ line ∈ lines, line.Read ∧ ∀ tag, line.tag = some tag → tag ∈ tags) →
    checkLines declared rule false nodes index lines = .ok nodes' →
    ∃ bits a', a.alternativeLines rule index lines = .ok (bits, a') ∧
      a'.Registered declared tags count nodes' ∧ ∀ bit ∈ bits, ∃ c, a'.rules[bit]? = some c := by
  induction lines with
  | nil =>
    intro a index nodes h hs hlines hcheck
    cases hcheck
    exact ⟨[], a, rfl, h, fun _ hbit => nomatch hbit⟩
  | cons line lines ih =>
    intro a index nodes h hs hlines hcheck
    obtain ⟨nodes₁, hcheck₁, hcheck⟩ := bind_eq_ok_iff.1 hcheck
    obtain ⟨⟨hread, htag⟩, hlines⟩ := List.forall_mem_cons.1 hlines
    obtain ⟨id, a₁, h₁, hr₁, c, hc⟩ := h.alternativeLine hs hread htag hcheck₁
    have hs₁ := (hs.alternativeLine hread.1 h₁).1
    obtain ⟨bits, a₂, h₂, hr₂, hbits⟩ := ih hr₁ hs₁ hlines hcheck
    have hk := (hs₁.alternativeLines (fun l hl => (hlines l hl).1.1) h₂).2
    refine ⟨id :: bits, a₂, ?_, hr₂, List.forall_mem_cons.2 ⟨⟨c, hk _ _ hc⟩, hbits⟩⟩
    simp only [Arena.alternativeLines, h₁, h₂, bind, Except.bind, pure, Except.pure]

/-- A checked body has a shape, which is not that of a line. -/
theorem Registered.body (h : a.Registered declared tags count nodes) (hs : a.Sound)
    {decl : RuleDecl}
    (hlines : ∀ line ∈ decl.body, line.Read ∧ ∀ tag, line.tag = some tag → tag ∈ tags)
    (hcheck : checkLines declared decl.name (decl.body.length == 1) nodes 0 decl.body =
      .ok nodes') :
    ∃ family shape a', a.body decl = .ok (family, shape, a') ∧
      a'.Registered declared tags count nodes' ∧ (∀ bits, shape ≠ .sequence bits true) ∧
        ∀ child ∈ shape.children, ∃ c, a'.rules[child]? = some c ∧
          (c.IsLine → ∃ bits, shape = .alternative bits) := by
  unfold Arena.body
  split
  · rename_i line hbody
    rw [hbody] at hcheck hlines
    obtain ⟨⟨hne, text, hparse⟩, -⟩ := hlines line (List.mem_singleton_self line)
    have hproper := Line.proper_of_parse hparse
    have helements := checkElements_of_checkLines hcheck line (List.mem_singleton_self line)
    obtain ⟨nodes₁, hline, hcheck⟩ := bind_eq_ok_iff.1 hcheck
    cases hcheck
    obtain rfl := nodes_of_checkLine_single hline
    split
    · rename_i e heq
      rw [heq] at helements hproper
      obtain ⟨⟨⟩, hcheck₁, -⟩ := bind_eq_ok_iff.1 helements
      obtain ⟨child, a₁, h₁, hr₁, c, hc, hwhole⟩ :=
        h.element hs line.line hcheck₁ (hproper e (List.mem_singleton_self e))
      refine ⟨"alias", .aliasOf child, a₁, ?_, hr₁, by simp, fun i hi => ?_⟩
      · simp only [h₁, bind, Except.bind, pure, Except.pure]
      · obtain rfl := List.mem_singleton.1 hi
        exact ⟨c, hc, fun hl => absurd hl hwhole⟩
    · obtain ⟨bits, a₁, h₁, hr₁, hbits⟩ := Registered.elements line.line h hs helements hproper
      refine ⟨"tree", .sequence bits false, a₁, ?_, hr₁, by simp, fun i hi => ?_⟩
      · simp only [h₁, bind, Except.bind, pure, Except.pure]
      · obtain ⟨c, hc, hwhole⟩ := hbits i hi
        exact ⟨c, hc, fun hl => absurd hl hwhole⟩
  · rename_i hone
    have hmany : (decl.body.length == 1) = false := by
      rw [beq_eq_false_iff_ne]
      intro hlength
      obtain ⟨line, hline⟩ := List.length_eq_one_iff.1 hlength
      exact hone line hline
    rw [hmany] at hcheck
    obtain ⟨bits, a₁, h₁, hr₁, hbits⟩ := h.alternativeLines hs hlines hcheck
    refine ⟨"any", .alternative bits, a₁, ?_, hr₁, by simp, fun i hi => ?_⟩
    · simp only [h₁, bind, Except.bind, pure, Except.pure]
    · obtain ⟨c, hc⟩ := hbits i hi
      exact ⟨c, hc, fun _ => ⟨bits, rfl⟩⟩

/-- Checked rules have bodies. -/
theorem Registered.bodies {decls : List RuleDecl} : ∀ {a : Arena} {id : Nat}
    {nodes : List String}, a.Registered declared tags count nodes → a.Sound →
    (∀ decl ∈ decls, ∀ line ∈ decl.body, line.Read ∧ ∀ tag, line.tag = some tag → tag ∈ tags) →
    (∀ k decl, decls[k]? = some decl → id + k < count ∧
      ∃ r, a.rules[id + k]? = some r ∧ r.name = decl.name) →
    checkBodies declared nodes decls = .ok nodes' →
    ∃ a', a.bodies id decls = .ok a' ∧ a'.Sound ∧ a'.Registered declared tags count nodes' := by
  induction decls with
  | nil =>
    intro a id nodes h hs hlines hplaces hcheck
    cases hcheck
    exact ⟨a, rfl, hs, h⟩
  | cons decl decls ih =>
    intro a id nodes h hs hlines hplaces hcheck
    obtain ⟨nodes₁, hcheck₁, hcheck⟩ := bind_eq_ok_iff.1 hcheck
    obtain ⟨hline, hlines⟩ := List.forall_mem_cons.1 hlines
    obtain ⟨family, shape, a₁, h₁, hr₁, hshape, hchildren⟩ := h.body hs hline hcheck₁
    obtain ⟨hs₁, hk, hlong⟩ := hs.body (fun l hl => (hline l hl).1.1) h₁
    obtain ⟨hid, old, hold, hname⟩ := hplaces 0 decl rfl
    have hold' : a₁.rules[id]? = some old := hk _ _ hold
    have hr := hr₁.replace ⟨.inFamily family decl.name decl.name, decl.line, shape⟩ hid hold' hname
      (fun ⟨bits, hbits⟩ => hshape bits hbits) hchildren
    have hplaces' : ∀ k d, decls[k]? = some d → id + 1 + k < count ∧
        ∃ r, (a₁.rules.setIfInBounds id
          ⟨.inFamily family decl.name decl.name, decl.line, shape⟩)[id + 1 + k]? = some r ∧
            r.name = d.name := by
      intro k d hd
      obtain ⟨hk', r, hr, hrname⟩ := hplaces (k + 1) d hd
      have hne : id ≠ id + 1 + k := by omega
      refine ⟨by omega, r, ?_, hrname⟩
      rw [Array.getElem?_setIfInBounds_ne hne, Nat.add_assoc, Nat.add_comm 1 k]
      exact hk _ _ hr
    obtain ⟨a', ha', hs', hr'⟩ :=
      ih hr (hs₁.replace _ hold' hname hlong) hlines hplaces' hcheck
    refine ⟨a', ?_, hs', hr'⟩
    simp only [Arena.bodies, h₁, bind, Except.bind]
    exact ha'

/-! ## Whole texts -/

/-- Rules are pushed one after the other, each of a name of its own. -/
theorem foldl_push_spec {α : Type} (rule : α → Arena → Rule) (name : α → String)
    (hname : ∀ x a, (rule x a).name = name x) (xs : List α) : ∀ a : Arena,
    (xs.foldl (fun a x => (a.push (rule x a)).2) a).rules.toList.map Rule.name =
        a.rules.toList.map Rule.name ++ xs.map name ∧
      (xs.foldl (fun a x => (a.push (rule x a)).2) a).names.map Prod.fst =
        (xs.map name).reverse ++ a.names.map Prod.fst ∧
      (xs.foldl (fun a x => (a.push (rule x a)).2) a).suffixed = a.suffixed ∧
      ∀ r ∈ (xs.foldl (fun a x => (a.push (rule x a)).2) a).rules, r ∈ a.rules ∨
        ∃ x a', r = rule x a' ∧ a'.rules.size < a.rules.size + xs.length := by
  induction xs with
  | nil => exact fun a => ⟨by simp, by simp, rfl, fun r hr => .inl hr⟩
  | cons x xs ih =>
    intro a
    obtain ⟨hrules, hnames, hsuffixed, hmem⟩ := ih (a.push (rule x a)).2
    rw [List.foldl_cons, hrules, hnames, hsuffixed]
    refine ⟨by simp [Arena.push, hname], by simp [Arena.push, hname], rfl, fun r hr => ?_⟩
    have hsize : (a.push (rule x a)).2.rules.size = a.rules.size + 1 := Array.size_push _
    rcases hmem r hr with hr | ⟨y, a', rfl, hlt⟩
    · rcases Array.mem_push.1 hr with hr | rfl
      · exact .inl hr
      · exact .inr ⟨x, a, rfl, by simp⟩
    · refine .inr ⟨y, a', rfl, ?_⟩
      rw [List.length_cons]
      omega

/-- The first pass lists the declared names, under which there are no lines yet. The rules there
    lead to none but declared ones. -/
theorem declare_spec (s : Source) :
    (declare s).rules.toList.map Rule.name = (declarations s).map Mention.name ∧
      (declare s).names.map Prod.fst = ((declarations s).map Mention.name).reverse ∧
      (declare s).suffixed = [] ∧ ∀ r ∈ (declare s).rules, ¬ r.IsLine ∧
        ∀ child ∈ r.shape.children, child < (declare s).rules.size := by
  obtain ⟨hrules, hnames, hsuffixed, hmem⟩ :=
    foldl_push_spec (fun t _ => termRule t) TermDecl.name (fun _ _ => rfl) s.terms empty
  obtain ⟨hrules', hnames', hsuffixed', hmem'⟩ :=
    foldl_push_spec (fun r a => placeholder r a.rules.size) RuleDecl.name (fun _ _ => rfl)
      s.rules (s.terms.foldl (fun a t => (a.push (termRule t)).2) empty)
  rw [hrules] at hrules'
  rw [hnames] at hnames'
  rw [hsuffixed] at hsuffixed'
  have hsize : (declare s).rules.size =
      (s.terms.foldl (fun a t => (a.push (termRule t)).2) empty).rules.size + s.rules.length := by
    rw [← Array.length_toList, ← List.length_map Rule.name, ← Array.length_toList,
      ← List.length_map Rule.name, hrules]
    exact (congrArg List.length hrules').trans (by simp [Nat.add_assoc])
  refine ⟨hrules'.trans ?_, hnames'.trans ?_, hsuffixed', fun r hr => ?_⟩
  · simp [declarations, empty, Function.comp_def]
  · simp [declarations, empty, Function.comp_def]
  · rcases hmem' r hr with hr | ⟨decl, a', rfl, hlt⟩
    · rcases hmem r hr with hr | ⟨t, a', rfl, -⟩
      · simp [empty] at hr
      · refine ⟨?_, fun _ hchild => absurd hchild List.not_mem_nil⟩
        rintro ⟨bits, hbits⟩
        exact Shape.noConfusion hbits
    · refine ⟨?_, fun child hchild => ?_⟩
      · rintro ⟨bits, hbits⟩
        exact Shape.noConfusion hbits
      obtain rfl := List.mem_singleton.1 hchild
      rw [hsize]
      exact hlt

theorem registered_declare {s : Source} (h : declareAll [] (declarations s) = .ok declared) :
    (declare s).Registered declared tags (declare s).rules.size (declared.map Prod.fst) := by
  obtain ⟨hrules, hnames, hsuffixed, hline⟩ := declare_spec s
  obtain ⟨hdeclared, hnodup, -⟩ := declareAll_spec h
  rw [List.map_nil, List.append_nil] at hdeclared
  have hlt : ∀ {id : RuleId} {r : Rule}, (declare s).rules[id]? = some r →
      id < (declare s).rules.size := fun hr => (Array.getElem?_eq_some_iff.1 hr).1
  have hget : ∀ {id : RuleId} {r : Rule}, (declare s).rules[id]? = some r →
      ((declarations s).map Mention.name)[id]? = some r.name := by
    intro id r hr
    rw [← hrules, List.getElem?_map, Array.getElem?_toList, hr]
    rfl
  have hmem : ∀ {name : String}, name ∈ declared.map Prod.fst ↔
      name ∈ (declarations s).map Mention.name := by
    intro name
    rw [hdeclared, List.mem_reverse]
  have hlisted : ∀ {name : String}, name ∈ declared.map Prod.fst →
      ((declare s).names.lookup name).isSome = true := by
    intro name hname
    rw [Source.isSome_lookup_iff, hnames, List.mem_reverse]
    exact hmem.1 hname
  have hdistinct := hnodup List.nodup_nil
  rw [hdeclared, List.nodup_reverse] at hdistinct
  refine ⟨Nat.le_refl _, fun hr => ?_, fun hi hr hr' heq => ?_, fun hr => ?_, fun name hname => ?_,
    fun hid hr => ?_, fun hr hl => ?_, fun hr _ hl => ?_, fun hmem => ?_, fun hmem => ?_,
    fun hr hchild => ?_⟩
  · rw [isSome_lookup_iff, hmem]
    exact iff_of_true (hlt hr) (List.mem_of_getElem? (hget hr))
  · exact (List.getElem?_inj (by simpa [← hrules] using hi) hdistinct).1
      ((hget hr).trans (heq ▸ (hget hr').symm))
  · exact hlisted (hmem.2 (List.mem_of_getElem? (hget hr)))
  · exact hlisted (hname.elim isSome_lookup_iff.1 id)
  · exact absurd (hlt hr) (Nat.not_lt.2 hid)
  · exact absurd hl (hline _ (Array.mem_of_getElem? hr)).1
  · exact absurd hl (hline _ (Array.mem_of_getElem? hr)).1
  · rw [hsuffixed] at hmem
    cases hmem
  · rw [hsuffixed] at hmem
    cases hmem
  · obtain ⟨hwhole, hchildren⟩ := hline _ (Array.mem_of_getElem? hr)
    have hget := Array.getElem?_eq_getElem (hchildren _ hchild)
    exact ⟨_, hget, fun hl => absurd hl (hline _ (Array.mem_of_getElem? hget)).1⟩

end Arena

end LanguageWorkbench
