import LanguageWorkbench.Proofs.Conservation
import LanguageWorkbench.Proofs.Constructing
import LanguageWorkbench.Proofs.Dependents
import LanguageWorkbench.Proofs.Preservation
import LanguageWorkbench.Proofs.Recognition

/-!
# What the checked constructors build

The checked constructors look at each child by itself. For them a dependent is nothing or a
value of its child, whatever stands before it, while lowering leaves it out exactly if the
bit before it is left out. So the constructors build trees whose leaves are no sentence.
Where every dependent is nothing exactly if the child before it is, they build sentences
only.

Results:
* `Schema.Builds`: the nodes that calls of the checked constructors make.
* `Schema.isCoupled`: dependents go with what stands before them.
* `Schema.derives_of_is`: the leaves of a coupled value are a sentence of its rule.
* `Schema.not_derives_pairs`: a value that is not coupled, and no sentence.
-/

namespace LanguageWorkbench

open Shape (Plain Opens Attached)

/-! ## Coupled nodes -/

/-- Whether a rule is a dependent. -/
def Grammar.isDependent (g : Grammar) (id : RuleId) : Bool :=
  match g.shape? id with
  | some (.dependent _) => true
  | _ => false

/-- Whether every child for a dependent is nothing exactly if the child before it is. The
    flag says whether the child before the first is nothing. -/
def Grammar.agrees (g : Grammar) : Bool → List Node → List RuleId → Bool
  | absent, n :: children, bit :: bits =>
    (!g.isDependent bit || n.isNothing == absent) && g.agrees n.isNothing children bits
  | _, _, _ => true

namespace Schema

/-- Whether the children of a tree of the given kind agree with its bits, if it is the kind
    of a sequence. -/
def childrenAgree (s : Schema) (kind : Kind) (children : List Node) : Bool :=
  match (s.kinds[kind]?).bind s.ruleShape? with
  | some (g, _, .sequence bits _) => g.agrees false children bits
  | _ => true

mutual

/-- Whether the children of all trees of a node agree with their bits. -/
def isCoupled (s : Schema) : Node → Bool
  | .nothing | .leaf .. => true
  | .tree _ kind _ children => s.childrenAgree kind children && s.allCoupled children

/-- Whether nodes side by side are coupled. -/
def allCoupled (s : Schema) : List Node → Bool
  | [] => true
  | n :: rest => s.isCoupled n && s.allCoupled rest

end

theorem allCoupled_iff {s : Schema} {nodes : List Node} :
    s.allCoupled nodes = true ↔ ∀ n ∈ nodes, s.isCoupled n = true := by
  induction nodes with
  | nil => simp [allCoupled]
  | cons n nodes ih => rw [allCoupled, Bool.and_eq_true, ih, List.forall_mem_cons]

/-! ## Names of leaves -/

/-- The names of the kinds of the leaves, left to right. -/
def spell (s : Schema) (n : Node) : List String := n.leaves.map fun l => s.nameOf l.kind

theorem spell_eq (s : Schema) (n : Node) : s.spell n = n.word.map fun x => s.nameOf x.1 := by
  rw [← Node.map_leavesUnder none n, List.map_map]
  rfl

theorem spell_leaf (s : Schema) (id : NodeId) (kind : Kind) (text : String) :
    s.spell (.leaf id kind text) = [s.nameOf kind] := rfl

theorem spell_tree (s : Schema) (id : NodeId) (kind : Kind) (tokens : Nat)
    (children : List Node) : s.spell (.tree id kind tokens children) = children.flatMap s.spell := by
  rw [spell_eq, Node.word]
  induction children with
  | nil => rfl
  | cons n children ih => rw [Node.wordOf, List.map_append, ih, List.flatMap_cons, spell_eq s n]

/-! ## Calls -/

/-- A store and nodes in it that calls of the checked constructors make, beginning with a new
    store. -/
inductive Builds (s : Schema) : Store → List Node → Prop
  | start (realm : Nat) : Builds s (.empty realm) [.nothing]
  | terminal {store store' : Store} {nodes : List Node} {name text : String} {n : Node}
      (h : Builds s store nodes) (hcall : s.terminal store name text = .ok (n, store')) :
      Builds s store' (n :: nodes)
  | create {store store' : Store} {nodes children : List Node} {name : String} {n : Node}
      (h : Builds s store nodes) (hchildren : ∀ c ∈ children, c ∈ nodes)
      (hcall : s.create store name children = .ok (n, store')) : Builds s store' (n :: nodes)

/-- The nodes that the checked constructors of a grammar allow. -/
inductive Allowed (g : Grammar) : Node → Prop
  | nothing : Allowed g .nothing
  | leaf {id : NodeId} {kind : Kind} {text : String} {r : RuleId} {rule : Rule}
      (hrule : g.rule? r = some rule) (hkind : IsKind g r rule kind)
      (hshape : rule.shape.isTerm = true) : Allowed g (.leaf id kind text)
  | tree {id : NodeId} {kind : Kind} {tokens : Nat} {children : List Node} {r : RuleId}
      {rule : Rule} {bits : List RuleId} (hrule : g.rule? r = some rule)
      (hkind : IsKind g r rule kind)
      (hshape : (∃ anonymous, rule.shape = .sequence bits anonymous) ∨
        ∃ child, rule.shape = .plus child ∧ bits = [r, child])
      (hvalues : List.Forall₂ (fun n bit => (ofGrammar g).isValue g n bit = true) children bits)
      (hchildren : ∀ c ∈ children, Allowed g c) : Allowed g (.tree id kind tokens children)

section

variable {g : Grammar} {id : RuleId} {kind : Kind} {store store' : Store} {name text : String}
variable {n : Node} {children : List Node}

/-- A kind is that of a rule. -/
theorem exists_isKind_of_expectKind (hg : g.Distinct)
    (h : (ofGrammar g).expectKind name = .ok kind) :
    ∃ id rule, g.rule? id = some rule ∧ IsKind g id rule kind := by
  unfold expectKind at h
  split at h
  · rename_i found hfound
    cases h
    obtain ⟨⟨info, k⟩, hfind, rfl⟩ := Option.map_eq_some_iff.1 hfound
    have hname : info.name = name := by simpa using List.find?_some hfind
    have hget := List.mem_reverse.1 (List.mem_of_find?_eq_some hfind)
    rw [List.mk_mem_zipIdx_iff_getElem?, Array.getElem?_toList, kinds_ofGrammar,
      Option.map_eq_some_iff] at hget
    obtain ⟨⟨rule, id⟩, hmem, rfl⟩ := hget
    obtain ⟨hrule, hshape⟩ := mem_concreteRules.1 (List.mem_of_getElem? hmem)
    obtain ⟨kind, hkind⟩ := exists_isKind hg hrule hshape
    have hsame := hkind.byName
    simp only at hname
    rw [hname, hfound, Option.some.injEq] at hsame
    exact ⟨id, rule, hrule, hsame ▸ hkind⟩
  · cases h

/-- A call of the leaf constructor that is not refused. -/
theorem terminal_spec (hg : g.Distinct)
    (h : (ofGrammar g).terminal store name text = .ok (n, store')) :
    ∃ id rule kind, g.rule? id = some rule ∧ IsKind g id rule kind ∧ rule.shape.isTerm = true ∧
      (n, store') = store.leaf kind text := by
  obtain ⟨kind, hexpect, h⟩ := bind_eq_ok_iff.1 h
  obtain ⟨id, rule, hrule, hkind⟩ := exists_isKind_of_expectKind hg hexpect
  obtain ⟨info, hinfo, h⟩ := bind_eq_ok_iff.1 h
  rw [hkind.info_eq, Except.ok.injEq] at hinfo
  subst hinfo
  simp only [ruleShape?_ofGrammar hrule] at h
  cases hshape : rule.shape with
  | term termKind pattern =>
    simp only [hshape, Shape.isTerm, Bool.not_true, Bool.false_eq_true, if_false] at h
    split_ifs at h
    · cases h
    · exact ⟨id, rule, kind, hrule, hkind, by rw [hshape]; rfl, (Except.ok.inj h).symm⟩
  | _ =>
    simp only [hshape, Shape.isTerm, Bool.not_false, if_true] at h
    cases h

/-- Children that pass the check are values of their bits. -/
theorem forall₂_of_checkChildren {s : Schema} {index : Nat} {bits : List RuleId}
    (hlen : children.length = bits.length)
    (h : s.checkChildren g name index children bits = .ok ()) :
    List.Forall₂ (fun n bit => s.isValue g n bit = true) children bits := by
  induction children generalizing index bits with
  | nil =>
    cases bits with
    | nil => exact .nil
    | cons bit bits => cases hlen
  | cons n children ih =>
    cases bits with
    | nil => cases hlen
    | cons bit bits =>
      simp only [checkChildren] at h
      by_cases hvalue : s.isValue g n bit = true
      · simp only [hvalue] at h
        exact .cons hvalue (ih (Nat.succ.inj hlen) h)
      · simp only [Bool.not_eq_true] at hvalue
        simp only [hvalue] at h
        cases h

/-- A call of the tree constructor that is not refused. -/
theorem create_spec (hg : g.Distinct)
    (h : (ofGrammar g).create store name children = .ok (n, store')) :
    ∃ id rule kind bits, g.rule? id = some rule ∧ IsKind g id rule kind ∧
      ((∃ anonymous, rule.shape = .sequence bits anonymous) ∨
        ∃ child, rule.shape = .plus child ∧ bits = [id, child]) ∧
      List.Forall₂ (fun n bit => (ofGrammar g).isValue g n bit = true) children bits ∧
      (n, store') = store.tree kind children := by
  obtain ⟨kind, hexpect, h⟩ := bind_eq_ok_iff.1 h
  obtain ⟨id, rule, hrule, hkind⟩ := exists_isKind_of_expectKind hg hexpect
  obtain ⟨info, hinfo, h⟩ := bind_eq_ok_iff.1 h
  rw [hkind.info_eq, Except.ok.injEq] at hinfo
  subst hinfo
  simp only [ruleShape?_ofGrammar hrule] at h
  cases hshape : rule.shape with
  | term termKind pattern =>
    simp only [hshape, Shape.isTerm, if_true] at h
    cases h
  | sequence bits anonymous =>
    simp only [hshape, Shape.isTerm, Bool.false_eq_true, if_false, pure_bind] at h
    split_ifs at h with hfew hlen hlen
    · cases h
    · cases h
    · cases h
    · obtain ⟨_, hcheck, h⟩ := bind_eq_ok_iff.1 h
      exact ⟨id, rule, kind, bits, hrule, hkind, .inl ⟨anonymous, hshape⟩,
        forall₂_of_checkChildren (not_ne_iff.1 hlen) hcheck, Store.eq_tree_of_checkedTree h⟩
  | plus child =>
    simp only [hshape, Shape.isTerm, Bool.false_eq_true, if_false, pure_bind] at h
    split_ifs at h with hfew hlen hlen
    · cases h
    · cases h
    · cases h
    · obtain ⟨_, hcheck, h⟩ := bind_eq_ok_iff.1 h
      exact ⟨id, rule, kind, [id, child], hrule, hkind, .inr ⟨child, hshape, rfl⟩,
        forall₂_of_checkChildren (not_ne_iff.1 hlen) hcheck, Store.eq_tree_of_checkedTree h⟩
  | _ =>
    simp only [hshape, Shape.isTerm, Bool.false_eq_true, if_false] at h
    split_ifs at h <;> cases h

/-- What the calls make, the store holds, and it is allowed. -/
theorem Builds.spec (hg : g.Distinct) {nodes : List Node}
    (h : Builds (ofGrammar g) store nodes) :
    store.Sound ∧ ∀ n ∈ nodes, store.Holds n ∧ Allowed g n := by
  induction h with
  | start realm =>
    refine ⟨Store.sound_empty realm, fun n hn => ?_⟩
    obtain rfl := List.mem_singleton.1 hn
    exact ⟨.inl rfl, .nothing⟩
  | @terminal _ _ _ _ _ n _ hcall ih =>
    obtain ⟨hsound, hnodes⟩ := ih
    obtain ⟨r, rule, kind, hrule, hkind, hshape, hmade⟩ := terminal_spec hg hcall
    obtain ⟨hsound', hholds, hnew, id, heq⟩ := hsound.leaf_spec kind _
    rw [← hmade] at hsound' hholds hnew heq
    refine ⟨hsound', List.forall_mem_cons.2 ⟨⟨hnew, ?_⟩, fun c hc => ?_⟩⟩
    · rw [show n = _ from heq]
      exact .leaf hrule hkind hshape
    · exact (hnodes c hc).imp_left (hholds c)
  | @create _ _ _ _ _ n _ hchildren hcall ih =>
    obtain ⟨hsound, hnodes⟩ := ih
    obtain ⟨r, rule, kind, bits, hrule, hkind, hshape, hvalues, hmade⟩ := create_spec hg hcall
    obtain ⟨hsound', hholds, hnew, id, heq⟩ :=
      hsound.tree_spec kind fun c hc => (hnodes c (hchildren c hc)).1
    rw [← hmade] at hsound' hholds hnew heq
    refine ⟨hsound', List.forall_mem_cons.2 ⟨⟨hnew, ?_⟩, fun c hc => ?_⟩⟩
    · rw [show n = _ from heq]
      exact .tree hrule hkind hshape hvalues fun c hc => (hnodes c (hchildren c hc)).2
    · exact (hnodes c hc).imp_left (hholds c)

end

/-! ## Leaves of values -/

section

variable {g : Grammar} {text : String} {l : Lowered} {symbols : SymbolMap} {id : RuleId}
variable {n : Node}

/-- The leaves of a node are a word of every rule with nodes of its kind. -/
def Conforms (g : Grammar) (n : Node) : Prop :=
  ∀ {id : RuleId} {kind : Kind}, n.kind? = some kind →
    (ofGrammar g).kindOfRule? id = some kind → g.Matches id ((ofGrammar g).spell n)

/-- A rule that accepts a node by itself is left out for nothing, or has the kind of it. -/
theorem matchesBit_of_accepts (hl : g.LowersTo symbols l) (hplain : Plain g.shape? id)
    (hn : Conforms g n) (h : (ofGrammar g).accepts g n id = true) (afterAbsent : Bool) :
    ∃ absent, g.MatchesBit afterAbsent id absent ((ofGrammar g).spell n) ∧
      (absent = true → n = .nothing) := by
  obtain ⟨shape, hshape, hplain⟩ := hplain
  have hown : n.kind?.isSome = true ∧ n.kind? = (ofGrammar g).kindOfRule? id →
      ∃ absent, g.MatchesBit afterAbsent id absent ((ofGrammar g).spell n) ∧
        (absent = true → n = .nothing) := by
    rintro ⟨hsome, hkind⟩
    obtain ⟨kind, hsome⟩ := Option.isSome_iff_exists.1 hsome
    exact ⟨false, .rule (hn hsome (hkind.symm.trans hsome)), Bool.noConfusion⟩
  simp only [accepts, hshape] at h
  cases shape with
  | term | sequence | plus => exact hown (by simpa using h)
  | option child =>
    cases n with
    | nothing => exact ⟨true, .leftOut hshape, fun _ => rfl⟩
    | leaf | tree => cases h
  | dependent child => exact absurd rfl (hplain child)
  | separator child =>
    obtain ⟨rule, hrule, heq⟩ := Option.map_eq_some_iff.1 hshape
    exact absurd heq (hl.repeats hrule child).1
  | aliasOf | alternative | delimiter => cases h

/-- The leaves of a value of a rule are a word of the rule as a bit. -/
theorem matchesBit_of_isValue (hload : Grammar.load text = .ok g) (hl : g.LowersTo symbols l)
    (hplain : Plain g.shape? id) (hn : Conforms g n) (h : (ofGrammar g).isValue g n id = true)
    (afterAbsent : Bool) :
    ∃ absent, g.MatchesBit afterAbsent id absent ((ofGrammar g).spell n) ∧
      (absent = true → n = .nothing) := by
  obtain ⟨y, hlinked, haccepts⟩ := isValue_iff.1 h
  clear h
  induction hlinked using Relation.ReflTransGen.head_induction_on generalizing afterAbsent with
  | refl => exact matchesBit_of_accepts hl hplain hn haccepts afterAbsent
  | @head x child hlink _ ih =>
    obtain ⟨shape, hshape, hdependent⟩ := hplain
    obtain ⟨rule, hrule, hrule'⟩ := Option.map_eq_some_iff.1 hshape
    rw [offersOf_eq hshape] at hlink
    have hchild : ∀ bits anonymous, shape ≠ .sequence bits anonymous := by
      rintro bits anonymous rfl
      cases hlink
    have hplain : Plain g.shape? child := by
      refine Grammar.plain_of_load hload hshape hchild ?_
      cases shape <;> first | exact hlink | cases hlink
    obtain ⟨absent, hbit, habsent⟩ := ih hplain false
    cases shape with
    | term | sequence => cases hlink
    | alternative bits =>
      -- no branch is left out
      refine ⟨false, .rule (.alternative hshape hlink (hbit.matches fun k y hk => ?_)),
        Bool.noConfusion⟩
      exact hk.not_isOptional (Grammar.check_of_load hload) hrule hrule' hlink
    | option _ =>
      obtain rfl := List.mem_singleton.1 hlink
      obtain ⟨absent, hbit, habsent⟩ := ih hplain afterAbsent
      exact ⟨absent, .option hshape hbit, habsent⟩
    | aliasOf _ =>
      obtain rfl := List.mem_singleton.1 hlink
      obtain ⟨absent, hbit, habsent⟩ := ih hplain afterAbsent
      exact ⟨absent, .aliasOf hshape hbit, habsent⟩
    | dependent child => exact absurd rfl (hdependent child)
    | plus _ =>
      obtain rfl := List.mem_singleton.1 hlink
      have hbits := Grammar.MatchesBits.cons hbit .nil
      rw [List.append_nil] at hbits
      exact ⟨false, .rule (.plus (n := 0) hshape hbits), Bool.noConfusion⟩
    | separator child => exact absurd hrule' (hl.repeats hrule child).1
    | delimiter child => exact absurd hrule' (hl.repeats hrule child).2

/-- An option goes with nothing exactly if it is left out, and other bits do not matter to
    what comes after them. -/
theorem matchesBit_of_plain (hload : Grammar.load text = .ok g) (hl : g.LowersTo symbols l)
    (hplain : Plain g.shape? id) (hn : Conforms g n) (h : (ofGrammar g).isValue g n id = true)
    (afterAbsent : Bool) :
    ∃ absent, g.MatchesBit afterAbsent id absent ((ofGrammar g).spell n) ∧
      (Opens g.shape? id → absent = n.isNothing) := by
  obtain ⟨absent, hbit, habsent⟩ := matchesBit_of_isValue hload hl hplain hn h afterAbsent
  cases n with
  | nothing =>
    by_cases hopens : Opens g.shape? id
    · obtain ⟨child, hoption | hdependent⟩ := hopens
      · exact ⟨true, .leftOut hoption, fun _ => rfl⟩
      · obtain ⟨shape, hshape, hplain⟩ := hplain
        rw [hshape, Option.some.injEq] at hdependent
        exact absurd hdependent (hplain child)
    · exact ⟨absent, hbit, fun h => absurd h hopens⟩
  | leaf | tree =>
    cases absent with
    | true => cases habsent rfl
    | false => exact ⟨false, hbit, fun _ => rfl⟩

/-- A value of a bit that is not plain is a value of a dependent. -/
theorem exists_dependent_of_not_plain (hplain : ¬ Plain g.shape? id)
    (h : (ofGrammar g).isValue g n id = true) : ∃ child, g.shape? id = some (.dependent child) := by
  by_contra hno
  cases hshape : g.shape? id with
  | some shape => exact hplain ⟨shape, hshape, fun child hchild => hno ⟨child, hchild ▸ hshape⟩⟩
  | none =>
    obtain ⟨y, hlinked, haccepts⟩ := isValue_iff.1 h
    rcases Relation.ReflTransGen.cases_head hlinked with rfl | ⟨z, hlink, -⟩
    · simp [accepts, hshape] at haccepts
    · simp [offersOf, hshape] at hlink

/-- A dependent that goes with what stands before it is left out together with it. -/
theorem matchesBit_of_dependent (hload : Grammar.load text = .ok g) (hl : g.LowersTo symbols l)
    {child : RuleId} (hshape : g.shape? id = some (.dependent child)) (hn : Conforms g n)
    (h : (ofGrammar g).isValue g n id = true) :
    g.MatchesBit n.isNothing id n.isNothing ((ofGrammar g).spell n) := by
  have hpresent : n ≠ .nothing → g.MatchesBit false id false ((ofGrammar g).spell n) := by
    intro hne
    have hchild : (ofGrammar g).isValue g n child = true := by
      obtain ⟨y, hlinked, haccepts⟩ := isValue_iff.1 h
      rcases Relation.ReflTransGen.cases_head hlinked with rfl | ⟨z, hlink, hlinked⟩
      · simp only [accepts, hshape] at haccepts
        cases n with
        | nothing => exact absurd rfl hne
        | leaf | tree => cases haccepts
      · rw [offersOf_eq hshape] at hlink
        obtain rfl := List.mem_singleton.1 hlink
        exact isValue_iff.2 ⟨y, hlinked, haccepts⟩
    have hplain : Plain g.shape? child :=
      Grammar.plain_of_load hload hshape (fun _ _ h => by cases h) (List.mem_singleton_self child)
    obtain ⟨absent, hbit, habsent⟩ := matchesBit_of_isValue hload hl hplain hn hchild false
    cases absent with
    | true => exact absurd (habsent rfl) hne
    | false => exact .dependent hshape hbit
  cases n with
  | nothing => exact .absent hshape
  | leaf | tree => exact hpresent (by intro h; cases h)

/-- Values that agree with the bits of a sequence are a word of the bits. -/
theorem matchesBits_of_values (hload : Grammar.load text = .ok g) (hl : g.LowersTo symbols l)
    {children : List Node} {bits : List RuleId} {before : Option RuleId}
    (hbits : Shape.Attached g.shape? before bits)
    (hvalues : List.Forall₂ (fun n bit => (ofGrammar g).isValue g n bit = true) children bits)
    (hn : ∀ c ∈ children, Conforms g c) {afterAbsent absent : Bool}
    (hbefore : ∀ b, before = some b → Opens g.shape? b → afterAbsent = absent)
    (hagrees : g.agrees absent children bits = true) :
    g.MatchesBits afterAbsent bits (children.flatMap (ofGrammar g).spell) := by
  induction hvalues generalizing before afterAbsent absent with
  | nil => exact .nil
  | @cons n bit children bits hvalue _ ih =>
    obtain ⟨hn, hchildren⟩ := List.forall_mem_cons.1 hn
    rw [Grammar.agrees, Bool.and_eq_true] at hagrees
    obtain ⟨hagree, hagrees⟩ := hagrees
    cases hbits with
    | cons hbit hbits =>
      rw [List.flatMap_cons]
      by_cases hplain : Plain g.shape? bit
      · obtain ⟨absent', hmatches, hopens⟩ :=
          matchesBit_of_plain hload hl hplain hn hvalue afterAbsent
        refine .cons hmatches (ih hbits hchildren (fun b hb hopens' => ?_) hagrees)
        cases hb
        exact hopens hopens'
      · obtain ⟨b, hb, hopens⟩ := hbit.resolve_left hplain
        obtain ⟨child, hshape⟩ := exists_dependent_of_not_plain hplain hvalue
        simp only [Grammar.isDependent, hshape, Bool.not_true, Bool.false_or, beq_iff_eq] at hagree
        rw [hbefore b hb hopens, ← hagree]
        refine .cons (matchesBit_of_dependent hload hl hshape hn hvalue)
          (ih hbits hchildren (fun _ _ _ => rfl) hagrees)

/-- The leaves of a value of a rule with a symbol are a word of the rule. -/
theorem matches_of_isValue (hload : Grammar.load text = .ok g) (hl : g.LowersTo symbols l)
    {rule : Rule} (hrule : g.rule? id = some rule)
    (hkind : rule.shape.isTerm = true ∨ Grammar.hasNonterminal rule.shape = true)
    (hn : Conforms g n) (h : (ofGrammar g).isValue g n id = true) :
    g.Matches id ((ofGrammar g).spell n) := by
  have hshape := Grammar.shape?_of_rule? hrule rfl
  have hplain : Plain g.shape? id := by
    refine ⟨rule.shape, hshape, fun child hchild => ?_⟩
    rw [hchild] at hkind
    rcases hkind with hkind | hkind <;> cases hkind
  obtain ⟨absent, hbit, -⟩ := matchesBit_of_isValue hload hl hplain hn h false
  refine hbit.matches fun k y hk hopt => ?_
  cases hk with
  | refl _ => cases hr : rule.shape <;> simp_all [Grammar.isOptional, Shape.isTerm,
      Grammar.hasNonterminal]
  | step hnext _ =>
    rw [Grammar.aliasTarget?_eq_some_iff, hshape, Option.some.injEq] at hnext
    rw [hnext] at hkind
    rcases hkind with hkind | hkind <;> cases hkind

/-! ## Allowed nodes -/

/-- The leaves of a node that is allowed and coupled are a word of the rule of its kind. -/
theorem Allowed.conforms (hload : Grammar.load text = .ok g) (hl : g.LowersTo symbols l)
    (h : Allowed g n) (hcoupled : (ofGrammar g).isCoupled n = true) : Conforms g n := by
  induction h with
  | nothing =>
    intro id kind hsome
    cases hsome
  | @leaf _ kind _ r rule hrule hkind hshape =>
    intro id kind' hsome hid
    cases hsome
    obtain rfl := hkind.eq_of_kindOfRule? hid
    rw [spell_leaf, hkind.nameOf]
    cases hterm : rule.shape with
    | term termKind pattern =>
      have hword := Grammar.Matches.term (Grammar.shape?_of_rule? hrule hterm)
      rwa [Grammar.nameOf, hrule] at hword
    | _ => rw [hterm] at hshape; cases hshape
  | @tree _ kind _ children r rule bits hrule hkind hshape hvalues _ ih =>
    intro id kind' hsome hid
    cases hsome
    obtain rfl := hkind.eq_of_kindOfRule? hid
    rw [isCoupled, Bool.and_eq_true, allCoupled_iff] at hcoupled
    obtain ⟨hagree, hcoupled⟩ := hcoupled
    have hconform : ∀ c ∈ children, Conforms g c := fun c hc => ih c hc (hcoupled c hc)
    rw [spell_tree]
    rcases hshape with ⟨anonymous, hshape⟩ | ⟨child, hshape, rfl⟩
    · have hsequence := Grammar.shape?_of_rule? hrule hshape
      rw [childrenAgree, hkind.info, Option.bind_some, ruleShape?_ofGrammar hrule, hshape] at hagree
      exact .sequence hsequence (matchesBits_of_values hload hl
        (Grammar.attached_of_load hload hsequence) hvalues hconform (by simp) hagree)
    · -- a list that is one bit longer than the first child
      have hplus := Grammar.shape?_of_rule? hrule hshape
      cases hvalues with
      | @cons list _ _ _ hlist hrest =>
        cases hrest with
        | @cons last _ _ _ hlast hnil =>
          cases hnil
          obtain ⟨hlist', hlast', -⟩ : Conforms g list ∧ Conforms g last ∧ True := by
            simpa using hconform
          have hlonger := matches_of_isValue hload hl hrule (.inr (by rw [hshape]; rfl)) hlist' hlist
          obtain ⟨k, hbits⟩ := hlonger.exists_bits hplus
          have hplain : Plain g.shape? child := Grammar.plain_of_load hload hplus
            (fun _ _ h => Shape.noConfusion h) (List.mem_singleton_self child)
          obtain ⟨absent, hbit, -⟩ := matchesBit_of_isValue hload hl hplain hlast' hlast false
          obtain ⟨m, hbits⟩ := hbits.snoc hbit
          rw [List.flatMap_cons, List.flatMap_cons, List.flatMap_nil, List.append_nil]
          exact .plus hplus hbits

/-- The leaves of an allowed node have the names of terms. -/
theorem Allowed.exists_term (h : Allowed g n) {name : String}
    (hname : name ∈ (ofGrammar g).spell n) :
    ∃ r rule, g.rule? r = some rule ∧ rule.shape.isTerm = true ∧ rule.name = name := by
  induction h with
  | nothing => cases hname
  | leaf hrule hkind hshape =>
    rw [spell_leaf, hkind.nameOf, List.mem_singleton] at hname
    exact ⟨_, _, hrule, hshape, hname.symm⟩
  | tree _ _ _ _ _ ih =>
    rw [spell_tree] at hname
    obtain ⟨c, hc, hname⟩ := List.mem_flatMap.1 hname
    exact ih c hc hname

end

end Schema

/-- Names of terms are the names of the symbols of a word. -/
theorem Grammar.Numbers.exists_word {g : Grammar} {l : Lowered} {symbols : SymbolMap}
    (h : g.Numbers l symbols) {names : List String}
    (hnames : ∀ name ∈ names,
      ∃ r rule, g.rule? r = some rule ∧ rule.shape.isTerm = true ∧ rule.name = name) :
    ∃ w : List Symbol, names.map l.symbol? = w.map some ∧ (∀ x ∈ w, l.isTerminal x = true) ∧
      w.map l.nameOf = names := by
  induction names with
  | nil => exact ⟨[], rfl, by simp, rfl⟩
  | cons name names ih =>
    obtain ⟨hname, hrest⟩ := List.forall_mem_cons.1 hnames
    obtain ⟨w, hw, hterminals, hspell⟩ := ih hrest
    obtain ⟨r, rule, hrule, hshape, rfl⟩ := hname
    obtain ⟨x, hx⟩ := h.exists_lookup hrule (.inl hshape)
    have hname : g.nameOf r = rule.name := by rw [Grammar.nameOf, hrule, Option.map_some, Option.getD_some]
    obtain ⟨rule', hrule', -, ⟨-, -, hlt⟩ | ⟨hnonterminal, -, -⟩⟩ := h.of_lookup hx
    · refine ⟨x :: w, ?_, List.forall_mem_cons.2 ⟨decide_eq_true hlt, hterminals⟩, ?_⟩
      · rw [List.map_cons, List.map_cons, hw, ← hname, h.symbol?_nameOf hx]
      · rw [List.map_cons, hspell, h.nameOf_eq hx, hname]
    · obtain rfl := Option.some.inj (hrule.symm.trans hrule')
      rw [Grammar.not_hasNonterminal_of_isTerm hshape] at hnonterminal
      cases hnonterminal

namespace Schema

section

variable {g : Grammar} {text : String} {l : Lowered} {id : RuleId} {n : Node}

/-! ## The main result -/

/-- Of the nodes that the checked constructors of a grammar make, those that are coupled and
    values of a rule with a symbol have leaves that the symbol derives. -/
theorem derives_of_is (hload : Grammar.load text = .ok g) (hnames : g.Distinct)
    (hl : (Lowered.ofGrammar g).result = .ok l) {store : Store} {nodes : List Node}
    (hbuilds : Builds (ofGrammar g) store nodes) (hn : n ∈ nodes)
    (hcoupled : (ofGrammar g).isCoupled n = true) {rule : Rule} (hrule : g.rule? id = some rule)
    (hkind : rule.shape.isTerm = true ∨ Grammar.hasNonterminal rule.shape = true)
    (his : (ofGrammar g).is n rule.name = true) :
    ∃ s w, l.symbol? rule.name = some s ∧
      n.leaves.map (fun leaf => l.symbol? ((ofGrammar g).nameOf leaf.kind)) = w.map some ∧
      l.Derives [s] w := by
  obtain ⟨symbols, h⟩ := Grammar.lowersTo_of_ofGrammar hl
  have hg := Grammar.sound_of_load hload
  have hallowed := ((Builds.spec hnames hbuilds).2 n hn).2
  -- the name of the rule leads back to the rule
  have hvalue : (ofGrammar g).isValue g n id = true := by
    obtain ⟨id', hid', hvalue⟩ := (Option.any_eq_true ..).1 his
    obtain ⟨rule', hrule', hname⟩ := hg.named hid'
    obtain rfl := hnames hrule' hrule hname
    exact hvalue
  have hmatches := matches_of_isValue hload h hrule hkind (hallowed.conforms hload h hcoupled) hvalue
  obtain ⟨s, hs⟩ := h.numbers.exists_lookup hrule hkind
  obtain ⟨w, hw, hterminals, hspell⟩ := h.numbers.exists_word fun name => hallowed.exists_term
  rw [spell, List.map_map] at hw
  refine ⟨s, w, ?_, hw, ?_⟩
  · have := h.numbers.symbol?_nameOf hs
    rwa [Grammar.nameOf, hrule] at this
  · rw [h.derives_iff hg (Grammar.check_of_load hload) hrule hkind hs hterminals, hspell]
    exact hmatches

end

end Schema

/-- An optional `a`, a `b` that goes with it, and a `c`. -/
def Grammar.pairs : String :=
  "language pairs\nkeyword a\nkeyword b\nkeyword c\nstart s\ns:\n    a? b= c\n"

namespace Schema

/-- With both `a` and `b` the tree is coupled. -/
theorem derives_of_is_pairs : ∃ g l store nodes n rule, Grammar.load Grammar.pairs = .ok g ∧
    (Lowered.ofGrammar g).result = .ok l ∧ Builds (ofGrammar g) store nodes ∧ n ∈ nodes ∧
      (ofGrammar g).isCoupled n = true ∧ g.rule? 3 = some rule ∧
      (ofGrammar g).is n rule.name = true ∧ ∃ s w, l.symbol? rule.name = some s ∧
        n.leaves.map (fun leaf => l.symbol? ((ofGrammar g).nameOf leaf.kind)) = w.map some ∧
        l.Derives [s] w := by
  have hok : (Grammar.load Grammar.pairs).toOption.any (fun g =>
      (Lowered.ofGrammar g).result.toOption.any fun l =>
        ((ofGrammar g).terminal (.empty 0) "a" "a").toOption.any fun a =>
          ((ofGrammar g).terminal a.2 "b" "b").toOption.any fun b =>
            ((ofGrammar g).terminal b.2 "c" "c").toOption.any fun c =>
              ((ofGrammar g).create c.2 "s" [a.1, b.1, c.1]).toOption.any fun n =>
                (g.rule? 3).any fun rule => decide (g.rules.toList.map Rule.name).Nodup &&
                  Grammar.hasNonterminal rule.shape && (ofGrammar g).is n.1 rule.name &&
                  (ofGrammar g).isCoupled n.1) = true := by
    decide +kernel
  obtain ⟨g, hload, hok⟩ := any_toOption_iff.1 hok
  obtain ⟨l, hl, hok⟩ := any_toOption_iff.1 hok
  obtain ⟨⟨a, _⟩, ha, hok⟩ := any_toOption_iff.1 hok
  obtain ⟨⟨b, _⟩, hb, hok⟩ := any_toOption_iff.1 hok
  obtain ⟨⟨c, _⟩, hc, hok⟩ := any_toOption_iff.1 hok
  obtain ⟨⟨n, _⟩, hn, hok⟩ := any_toOption_iff.1 hok
  obtain ⟨rule, hrule, hok⟩ := (Option.any_eq_true ..).1 hok
  simp only [Bool.and_eq_true, decide_eq_true_eq] at hok
  obtain ⟨⟨⟨hnodup, hkind⟩, his⟩, hcoupled⟩ := hok
  have hbuilds := ((((Builds.start 0).terminal ha).terminal hb).terminal hc).create (by simp) hn
  exact ⟨g, l, _, _, n, rule, hload, hl, hbuilds, List.mem_cons_self, hcoupled, hrule, his,
    derives_of_is hload (Grammar.distinct_of_nodup hnodup) hl hbuilds List.mem_cons_self hcoupled
      hrule (.inr hkind) his⟩

/-- With `b` and without `a` the tree is allowed, and its leaves are no sentence. -/
theorem not_derives_pairs : ∃ g l store nodes n rule s w, Grammar.load Grammar.pairs = .ok g ∧
    g.Distinct ∧ (Lowered.ofGrammar g).result = .ok l ∧ Builds (ofGrammar g) store nodes ∧
      n ∈ nodes ∧ g.rule? 3 = some rule ∧ (ofGrammar g).is n rule.name = true ∧
      l.symbol? rule.name = some s ∧
      n.leaves.map (fun leaf => l.symbol? ((ofGrammar g).nameOf leaf.kind)) = w.map some ∧
      ¬ l.Derives [s] w := by
  have hok : (Grammar.load Grammar.pairs).toOption.any (fun g =>
      (Lowered.ofGrammar g).result.toOption.any fun l =>
        (Table.build l).result.toOption.any fun t =>
          ((ofGrammar g).terminal (.empty 0) "b" "b").toOption.any fun b =>
            ((ofGrammar g).terminal b.2 "c" "c").toOption.any fun c =>
              ((ofGrammar g).create c.2 "s" [.nothing, b.1, c.1]).toOption.any fun n =>
                (g.rule? 3).any fun rule => decide (g.rules.toList.map Rule.name).Nodup &&
                  (ofGrammar g).is n.1 rule.name && decide (l.symbol? rule.name = some 5) &&
                  decide (n.1.leaves.map (fun leaf =>
                    l.symbol? ((ofGrammar g).nameOf leaf.kind)) = [some 2, some 3]) &&
                  l.isTerminal 2 && l.isTerminal 3 &&
                  decide (l.productions[0]? = some ⟨l.accept, [5, endSymbol]⟩) &&
                  (Machine.feedAll ⟨l, t, .ofLowered l (ofGrammar g)⟩ .initial (.empty 0)
                    [(2, "b"), (3, "c"), (endSymbol, "")]).isNone) = true := by
    decide +kernel
  obtain ⟨g, hload, hok⟩ := any_toOption_iff.1 hok
  obtain ⟨l, hl, hok⟩ := any_toOption_iff.1 hok
  obtain ⟨t, ht, hok⟩ := any_toOption_iff.1 hok
  obtain ⟨⟨b, _⟩, hb, hok⟩ := any_toOption_iff.1 hok
  obtain ⟨⟨c, _⟩, hc, hok⟩ := any_toOption_iff.1 hok
  obtain ⟨⟨n, _⟩, hn, hok⟩ := any_toOption_iff.1 hok
  obtain ⟨rule, hrule, hok⟩ := (Option.any_eq_true ..).1 hok
  simp only [Bool.and_eq_true, decide_eq_true_eq] at hok
  obtain ⟨⟨⟨⟨⟨⟨⟨hnodup, his⟩, hs⟩, hleaves⟩, htwo⟩, hthree⟩, hzero⟩, hrefused⟩ := hok
  have hbuilds := (((Builds.start 0).terminal hb).terminal hc).create (by simp) hn
  refine ⟨g, l, _, _, n, rule, 5, [2, 3], hload, Grammar.distinct_of_nodup hnodup, hl, hbuilds,
    List.mem_cons_self, hrule, his, hs, hleaves, fun hderives => ?_⟩
  -- the automaton would take what the symbol derives, but it refuses these terminals
  have hterminals : ∀ x ∈ [((2, "b") : Terminal), (3, "c")],
      l.isTerminal x.1 = true ∧ x.1 ≠ endSymbol := by
    simp [htwo, hthree, endSymbol]
  obtain ⟨hwell, hready⟩ :=
    Lowered.MadeWith.ready (g := l) (.inl ⟨Grammar.pairs, g, hload, hl, rfl⟩)
  obtain ⟨tree, hgrows⟩ := (Lowered.derives_iff_grows fun x hx => (hterminals x hx).1).1 hderives
  obtain ⟨a, store, hfed⟩ := Machine.feedAll_of_grows hwell ht (Machine.serves_of_ready hwell ht hready)
    hzero hgrows (fun x hx => (hterminals x hx).2) "" (.empty 0)
  rw [List.cons_append, List.cons_append, List.nil_append] at hfed
  rw [hfed] at hrefused
  cases hrefused

end Schema

end LanguageWorkbench
