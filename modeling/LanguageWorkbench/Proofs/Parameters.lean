import LanguageWorkbench.Bindings
import LanguageWorkbench.Proofs.SuffixTags

/-!
# The parameters of constructors

The parameters of the constructor of a node are named after the children, and the second and
later uses of a name get a number. A canonical name may end in a number itself, so a numbered
name may be that of another child.

Results:
* `Bindings.getElem?_numberedNames`: each name has the number of its use.
* `Bindings.nodup_numberedNames_iff`: numberedName names are distinct exactly if none of them is
  among the names that they are made from.
* `Grammar.parameters_of_load`: when the parameters of the constructors are distinct.
-/

namespace LanguageWorkbench

namespace Bindings

variable {name name' : String} {names before : List String} {i j k k' : Nat}

/-! ## Numbered names -/

/-- A name with the number of its use. -/
def numberedName (name : String) (use : Nat) : String :=
  if use = 1 then name else name ++ "_" ++ toString use

theorem exists_toList_numberedName (name : String) (use : Nat) :
    ∃ more, (numberedName name use).toList = name.toList ++ more := by
  unfold numberedName
  split_ifs
  · exact ⟨[], (List.append_nil _).symm⟩
  · exact ⟨'_' :: (toString use).toList, by simp [String.toList_append]⟩

/-- The number of the use of a name at a place. -/
def useAt (names : List String) (i : Nat) (name : String) : Nat := (names.take i).count name + 1

theorem numberedNames_cons : numberedNames before (name :: names) =
    numberedName name (before.count name + 1) :: numberedNames (name :: before) names := rfl

theorem getElem?_numberedNames : (numberedNames before names)[i]? =
    names[i]?.map fun name => numberedName name (before.count name + useAt names i name) := by
  induction names generalizing before i with
  | nil => simp [numberedNames]
  | cons first names ih =>
    rw [numberedNames_cons]
    cases i with
    | zero => simp [useAt]
    | succ i =>
      rw [List.getElem?_cons_succ, List.getElem?_cons_succ, ih]
      congr 1
      funext name
      simp only [useAt, List.take_succ_cons, List.count_cons]
      congr 1
      omega

theorem length_numberedNames : (numberedNames before names).length = names.length := by
  induction names generalizing before with
  | nil => rfl
  | cons first names ih => rw [numberedNames_cons, List.length_cons, List.length_cons, ih]

/-- A number tells the name in front of it. -/
theorem append_number_inj (h : name ++ "_" ++ toString k = name' ++ "_" ++ toString k') :
    name = name' ∧ k = k' := by
  have htoList : ∀ (name : String) (k : Nat), (name ++ "_" ++ toString k).toList =
      name.toList ++ '_' :: Nat.toDigits 10 k := fun name k => by
    simp [String.toList_append]
  have hdigits : ∀ k : Nat, '_' ∉ Nat.toDigits 10 k := fun k hmem => by
    have hdigit := Nat.isDigit_of_mem_toDigits (by omega) (by omega) hmem
    cases hdigit
  have hlists := congrArg String.toList h
  rw [htoList, htoList] at hlists
  -- the longer of the two names would end among the digits of the other
  have hsame : name.toList = name'.toList := by
    rcases List.append_eq_append_iff.1 hlists with ⟨more, hname, hrest⟩ | ⟨more, hname, hrest⟩
    · cases more with
      | nil => simpa using hname.symm
      | cons c more =>
        obtain ⟨rfl, htail⟩ := List.cons.inj hrest
        refine absurd ?_ (hdigits k)
        rw [htail]
        exact List.mem_append_right _ List.mem_cons_self
    · cases more with
      | nil => simpa using hname
      | cons c more =>
        obtain ⟨rfl, htail⟩ := List.cons.inj hrest
        refine absurd ?_ (hdigits k')
        rw [htail]
        exact List.mem_append_right _ List.mem_cons_self
  obtain rfl := String.toList_inj.1 hsame
  exact ⟨rfl, Nat.repr_injective ((String.append_right_inj _).1 h)⟩

theorem useAt_eq (hi : names[i]? = some name) : useAt names i name = (names.take (i + 1)).count name := by
  simp [useAt, List.take_add_one, hi]

theorem useAt_pos (names : List String) (i : Nat) (name : String) : 1 ≤ useAt names i name :=
  Nat.le_add_left 1 _

/-- A later use has a greater number. -/
theorem useAt_lt (hi : names[i]? = some name) (hij : i < j) :
    useAt names i name < useAt names j name := by
  rw [useAt_eq hi]
  exact Nat.lt_succ_of_le ((List.take_sublist_take_left hij).count_le name)

theorem useAt_le (hi : names[i]? = some name) : useAt names i name ≤ names.count name := by
  rw [useAt_eq hi]
  exact (List.take_sublist _ _).count_le name

/-- Every number up to that of the last use is the number of a use. -/
theorem exists_useAt (hk : 1 ≤ k) (hle : k ≤ names.count name) :
    ∃ i, names[i]? = some name ∧ useAt names i name = k := by
  induction names generalizing k with
  | nil => simp at hle; omega
  | cons first names ih =>
    by_cases hfirst : first = name
    · subst hfirst
      rcases Nat.eq_or_lt_of_le hk with rfl | hk
      · exact ⟨0, rfl, rfl⟩
      · rw [List.count_cons_self] at hle
        obtain ⟨i, hi, huse⟩ := ih (k := k - 1) (by omega) (by omega)
        refine ⟨i + 1, hi, ?_⟩
        simp only [useAt, List.take_succ_cons, List.count_cons_self] at huse ⊢
        omega
    · rw [List.count_cons_of_ne hfirst] at hle
      obtain ⟨i, hi, huse⟩ := ih hk hle
      refine ⟨i + 1, hi, ?_⟩
      simpa only [useAt, List.take_succ_cons, List.count_cons_of_ne hfirst] using huse

/-- Numbered names are distinct exactly if none of them is among the names that they are made
    from. -/
theorem nodup_numberedNames_iff : (numberedNames [] names).Nodup ↔
    ∀ name k, 2 ≤ k → k ≤ names.count name → name ++ "_" ++ toString k ∉ names := by
  have hget : ∀ {i : Nat} {name : String}, names[i]? = some name →
      (numberedNames [] names)[i]? = some (numberedName name (useAt names i name)) := by
    intro i name hi
    rw [getElem?_numberedNames, hi, Option.map_some, List.count_nil, Nat.zero_add]
  constructor
  · intro hnodup name k hk hle hmem
    obtain ⟨i, hi, huse⟩ := exists_useAt (by omega : 1 ≤ k) hle
    -- the first use of the made name keeps it, and the later use of `name` is given it
    obtain ⟨j, hj, huse'⟩ := exists_useAt (Nat.le_refl 1) (List.count_pos_iff.2 hmem)
    have hsame : (numberedNames [] names)[i]? = (numberedNames [] names)[j]? := by
      rw [hget hi, hget hj, huse, huse', numberedName, numberedName, if_neg (by omega), if_pos rfl]
    have hlt : i < (numberedNames [] names).length := by
      rw [length_numberedNames]
      exact (List.getElem?_eq_some_iff.1 hi).1
    obtain rfl := (List.getElem?_inj hlt hnodup).1 hsame
    have hself : name.toList = (name ++ "_" ++ toString k).toList :=
      congrArg String.toList (Option.some.inj (hi.symm.trans hj))
    have hlength := congrArg List.length hself
    simp [String.toList_append] at hlength
  · intro h
    rw [List.nodup_iff_getElem?_ne_getElem?]
    intro i j hij hj hsame
    rw [length_numberedNames] at hj
    have hi' := List.getElem?_eq_getElem (Nat.lt_trans hij hj)
    have hj' := List.getElem?_eq_getElem hj
    generalize names[i] = name at hi'
    generalize names[j] = name' at hj'
    rw [hget hi', hget hj', Option.some_inj, numberedName, numberedName] at hsame
    have hpos := useAt_pos names i name
    have hpos' := useAt_pos names j name'
    have hmem := List.mem_of_getElem? hi'
    have hmem' := List.mem_of_getElem? hj'
    split_ifs at hsame with hfirst hfirst' hfirst'
    · subst hsame
      have := useAt_lt hi' hij
      omega
    · exact h name' _ (by omega) (useAt_le hj') (hsame ▸ hmem)
    · exact h name _ (by omega) (useAt_le hi') (hsame ▸ hmem')
    · obtain ⟨rfl, huse⟩ := append_number_inj hsame
      have := useAt_lt hi' hij
      omega

end Bindings

/-! ## Names of children -/

namespace Identifier

/-- A name with a number, spelled with underscores. -/
theorem lower_eq_number_iff {i j : Identifier} (hi : Dashed i.dash.toList)
    (hj : Dashed j.dash.toList) (k : Nat) :
    j.lower = i.lower ++ "_" ++ toString k ↔ j.dash = i.dash ++ "-" ++ toString k := by
  have hdigits : ∀ c ∈ Nat.toDigits 10 k, c.isDigit = true := fun c hc =>
    Nat.isDigit_of_mem_toDigits (by omega) (by omega) hc
  have hword : Dashed (Nat.toDigits 10 k) := by
    refine .of_word Nat.toDigits_ne_nil (List.all_eq_true.2 fun c hc => ?_)
    simp [isWordChar, hdigits c hc]
  have hdash : Dashed (i.dash ++ "-" ++ toString k).toList := by
    have hall : (i.dash ++ "-" ++ toString k).toList = i.dash.toList ++ '-' :: Nat.toDigits 10 k := by
      simp [String.toList_append]
    rw [hall]
    exact hi.append hword
  have hlower : (Identifier.mk (i.dash ++ "-" ++ toString k) "").lower =
      i.lower ++ "_" ++ toString k := by
    have hkeep : (Nat.toDigits 10 k).map (fun c => if c = '-' then '_' else c) = Nat.toDigits 10 k := by
      refine (List.map_congr_left fun c hc => ?_).trans (List.map_id _)
      have hne : c ≠ '-' := by
        rintro rfl
        cases hdigits _ hc
      rw [if_neg hne, id]
    rw [← String.toList_inj, toList_lower]
    simp [String.toList_append, toList_lower, hkeep]
  rw [← hlower]
  exact lower_inj hj hdash

end Identifier

theorem Bindings.getElem?_argumentNames {children : List Rule} {i : Nat} :
    (argumentNames children)[i]? = children[i]?.map fun c =>
      numberedName c.tag.lower (useAt (children.map (·.tag.lower)) i c.tag.lower) := by
  rw [argumentNames, getElem?_numberedNames, List.getElem?_map]
  cases children[i]? <;> simp

/-- What the parameters for children are named. -/
structure Bindings.NamesChildren (children : List Rule) : Prop where
  /-- Each child has a parameter, named after it, from the second use on with a number. -/
  get : ∀ i : Nat, (argumentNames children)[i]? = children[i]?.map fun c =>
    numberedName c.tag.lower (useAt (children.map (·.tag.lower)) i c.tag.lower)
  schema : "schema" ∉ argumentNames children
  store : "store" ∉ argumentNames children
  /-- The names are distinct exactly if none with a number is that of another child. -/
  nodup_iff : (argumentNames children).Nodup ↔ ∀ c ∈ children, ∀ k, 2 ≤ k → k ≤ children.count c →
    ∀ c' ∈ children, c'.tag.dash ≠ c.tag.dash ++ "-" ++ toString k

namespace Grammar

open Bindings

variable {text : String} {g : Grammar} {id : RuleId} {r : Rule} {children : List Rule}

/-- A list comes after its element. -/
theorem lt_of_plus_of_load (h : load text = .ok g) (hr : g.rule? id = some r) {child : RuleId}
    (hshape : r.shape = .plus child) : child < id := by
  obtain ⟨s, declared, nodes, a, hread⟩ := exists_readFrom (read_of_load h)
  rw [hread.rule?_eq] at hr
  have hplus : r.shape = Arena.suffixShape child .plus := hshape
  have hne : Source.Suffix.plus ≠ .star := nofun
  have hle := hread.stage.size_le_of_shape hread.proper hr hplus
  obtain ⟨base, suffix, hbase, hkey⟩ := hread.stage.exists_key_of_shape hread.proper hr hplus
  cases hread.proper.follows.wraps hkey with
  | single hstar ho hw =>
    obtain rfl := Option.some.inj (hr.symm.trans ho)
    obtain ⟨rfl, -⟩ := Arena.suffixShape_inj hne hstar (hplus.symm.trans hw)
    exact Nat.lt_of_lt_of_le hbase hle
  | star hl hlist ho hw =>
    obtain rfl := Option.some.inj (hr.symm.trans ho)
    cases hshape.symm.trans hw

/-- No name of a rule begins like the common parameters. -/
theorem exists_lower_of_load (h : load text = .ok g) (hr : g.rule? id = some r) :
    ∃ c d cs, r.tag.lower.toList = c :: d :: cs ∧ ¬ (c = 's' ∧ (d = 'c' ∨ d = 't')) := by
  obtain ⟨name, hname⟩ := tag_inFamily_of_load h hr
  obtain ⟨rest, hrest⟩ := exists_toList_canonical_inFamily r.shape.dashed_family name
  rw [Identifier.toList_lower, hname, hrest]
  cases r.shape <;> simp [Shape.family]

section

variable (h : load text = .ok g) (hchildren : ∀ c ∈ children, ∃ id, g.rule? id = some c)

include h hchildren

/-- No parameter for a child is named like a common parameter. -/
theorem not_mem_argumentNames_of_load {common : String}
    (hcommon : ∃ d cs, common.toList = 's' :: d :: cs ∧ (d = 'c' ∨ d = 't')) :
    common ∉ argumentNames children := by
  obtain ⟨d, cs, hcommon, hd⟩ := hcommon
  intro hmem
  obtain ⟨i, hi⟩ := List.mem_iff_getElem?.1 hmem
  rw [getElem?_argumentNames] at hi
  obtain ⟨c, hc, rfl⟩ := Option.map_eq_some_iff.1 hi
  obtain ⟨id, hid⟩ := hchildren c (List.mem_of_getElem? hc)
  obtain ⟨e, f, rest, hlower, hnot⟩ := exists_lower_of_load h hid
  obtain ⟨more, hmore⟩ := exists_toList_numberedName c.tag.lower
    (useAt (children.map (·.tag.lower)) i c.tag.lower)
  rw [hmore, hlower] at hcommon
  obtain ⟨rfl, htail⟩ := List.cons.inj hcommon
  obtain ⟨rfl, -⟩ := List.cons.inj htail
  exact hnot ⟨rfl, hd⟩

/-- The uses of a name are those of the child that it is the name of. -/
theorem count_lower_of_load {c : Rule} (hc : c ∈ children) :
    (children.map (·.tag.lower)).count c.tag.lower = children.count c := by
  rw [List.count, List.count, List.countP_map]
  refine List.countP_congr fun c' hc' => ?_
  simp only [Function.comp_apply, beq_iff_eq]
  refine ⟨fun hlower => ?_, fun heq => heq ▸ rfl⟩
  obtain ⟨id, hid⟩ := hchildren c hc
  obtain ⟨id', hid'⟩ := hchildren c' hc'
  have hdash := (Identifier.lower_inj (dashed_of_load h hid') (dashed_of_load h hid)).1 hlower
  obtain rfl := eq_of_dash_eq_of_load h hid' hid hdash
  exact Option.some.inj (hid'.symm.trans hid)

/-- The parameters for children are distinct exactly if no repeated child with a number is named
    like another child. -/
theorem nodup_argumentNames_iff_of_load : (argumentNames children).Nodup ↔
    ∀ c ∈ children, ∀ k, 2 ≤ k → k ≤ children.count c →
      ∀ c' ∈ children, c'.tag.dash ≠ c.tag.dash ++ "-" ++ toString k := by
  have hnumber : ∀ c ∈ children, ∀ c' ∈ children, ∀ k : Nat,
      c'.tag.lower = c.tag.lower ++ "_" ++ toString k ↔
        c'.tag.dash = c.tag.dash ++ "-" ++ toString k := by
    intro c hc c' hc' k
    obtain ⟨id, hid⟩ := hchildren c hc
    obtain ⟨id', hid'⟩ := hchildren c' hc'
    exact Identifier.lower_eq_number_iff (dashed_of_load h hid) (dashed_of_load h hid') k
  rw [argumentNames, nodup_numberedNames_iff]
  constructor
  · intro hnone c hc k hk hle c' hc' hdash
    refine hnone c.tag.lower k hk ((count_lower_of_load h hchildren hc).symm ▸ hle) ?_
    rw [← (hnumber c hc c' hc' k).2 hdash]
    exact List.mem_map_of_mem hc'
  · intro hnone name k hk hle hmem
    obtain ⟨c, hc, rfl⟩ := List.mem_map.1
      (List.count_pos_iff.1 (Nat.lt_of_lt_of_le (by omega) hle))
    obtain ⟨c', hc', hlower⟩ := List.mem_map.1 hmem
    rw [count_lower_of_load h hchildren hc] at hle
    exact hnone c hc k hk hle c' hc' ((hnumber c hc c' hc' k).1 hlower)

theorem namesChildren_of_load : NamesChildren children where
  get _ := getElem?_argumentNames
  schema := not_mem_argumentNames_of_load h hchildren (by simp)
  store := not_mem_argumentNames_of_load h hchildren (by simp)
  nodup_iff := nodup_argumentNames_iff_of_load h hchildren

end

/-! ## The main result -/

/-- The constructor of a sequence in a loaded grammar has a parameter for each bit, and that of a
    list one for the list and one for its element. They are named after their children and never
    like the common parameters; those of a list are distinct, and those of a sequence unless the
    name of a repeated child with a number is that of another child. -/
theorem parameters_of_load (h : load text = .ok g) (hr : g.rule? id = some r) :
    (∀ bits anonymous, r.shape = .sequence bits anonymous → ∃ children,
      bits.map g.rule? = children.map some ∧
      constructorFor g r = treeConstructor r children ∧ NamesChildren children) ∧
    ∀ child, r.shape = .plus child → ∃ c, g.rule? child = some c ∧
      constructorFor g r = treeConstructor r [r, c] ∧ NamesChildren [r, c] ∧
      (argumentNames [r, c]).Nodup := by
  obtain ⟨s, declared, nodes, a, hread⟩ := exists_readFrom (read_of_load h)
  constructor
  · intro bits anonymous hbits
    have hrules : ∀ {ids : List RuleId}, (∀ id ∈ ids, ∃ c, g.rule? id = some c) →
        ids.map g.rule? = (ids.filterMap g.rule?).map some := by
      intro ids
      induction ids with
      | nil => simp
      | cons id ids ih =>
        intro hall
        obtain ⟨⟨c, hc⟩, hids⟩ := List.forall_mem_cons.1 hall
        simp [hc, ih hids]
    refine ⟨bits.filterMap g.rule?, hrules fun bit hbit => ?_, by rw [constructorFor, hbits], ?_⟩
    · exact hread.exists_child hr (by rw [hbits]; exact hbit)
    refine namesChildren_of_load h fun c hc => ?_
    obtain ⟨bit, -, hbit⟩ := List.mem_filterMap.1 hc
    exact ⟨bit, hbit⟩
  · intro child hchild
    have hmem : child ∈ r.shape.children := by
      rw [hchild]
      exact List.mem_singleton_self child
    obtain ⟨c, hc⟩ := hread.exists_child hr hmem
    have hnames : NamesChildren [r, c] := by
      refine namesChildren_of_load h fun c' hc' => ?_
      rcases List.mem_pair.1 hc' with rfl | rfl
      · exact ⟨id, hr⟩
      · exact ⟨child, hc⟩
    refine ⟨c, hc, by simp [constructorFor, hchild, hc], hnames, hnames.nodup_iff.2 ?_⟩
    -- the list is not its own element
    have hne : r ≠ c := by
      rintro rfl
      exact Nat.ne_of_lt (lt_of_plus_of_load h hr hchild) (eq_of_dash_eq_of_load h hc hr rfl)
    intro c' _ k hk hle
    have hnodup : [r, c].Nodup := by simp [hne]
    have hone := List.nodup_iff_count_le_one.1 hnodup c'
    omega

/-- A grammar with a repeated child beside one whose name has another number. -/
def repeated : String :=
  "language repeated\nkeyword x\nkeyword x-3\nstart s\ns:\n    x x-3 x x+\n"

theorem parameters_of_load_repeated : ∃ g s l, load repeated = .ok g ∧ g.rule? 2 = some s ∧
    g.rule? 3 = some l ∧
    (∃ children, [0, 1, 0, 3].map g.rule? = children.map some ∧
      constructorFor g s = treeConstructor s children ∧ NamesChildren children) ∧
    ∃ x, g.rule? 0 = some x ∧ constructorFor g l = treeConstructor l [l, x] ∧
      NamesChildren [l, x] ∧ (argumentNames [l, x]).Nodup := by
  have hok : (load repeated).toOption.any (fun g =>
      decide (g.shape? 2 = some (.sequence [0, 1, 0, 3] false) ∧ g.shape? 3 = some (.plus 0))) =
      true := by
    decide +kernel
  obtain ⟨g, hg, hrules⟩ := any_toOption_iff.1 hok
  obtain ⟨hs, hl⟩ := of_decide_eq_true hrules
  obtain ⟨s, hs, hbits⟩ := Option.map_eq_some_iff.1 hs
  obtain ⟨l, hl, hchild⟩ := Option.map_eq_some_iff.1 hl
  exact ⟨g, s, l, hg, hs, hl, (parameters_of_load hg hs).1 _ _ hbits,
    (parameters_of_load hg hl).2 _ hchild⟩

/-- A grammar with a repeated child beside one whose name has the number of the second use. -/
def renumbered : String :=
  "language renumbered\nkeyword x\nkeyword x-2\nstart s\ns:\n    x x x-2\n"

/-- Two parameters of the constructor have the same name. -/
theorem exists_parameters_not_nodup_renumbered : ∃ g s children, load renumbered = .ok g ∧
    g.rule? 2 = some s ∧ s.shape = .sequence [0, 0, 1] false ∧
    [0, 0, 1].map g.rule? = children.map some ∧
    constructorFor g s = treeConstructor s children ∧
    argumentNames children = ["tok_x", "tok_x_2", "tok_x_2"] ∧ ¬ (argumentNames children).Nodup := by
  have hok : (load renumbered).toOption.any (fun g =>
      decide (g.shape? 2 = some (.sequence [0, 0, 1] false) ∧
        (g.rule? 0).map (·.tag.lower) = some "tok_x" ∧
        (g.rule? 1).map (·.tag.lower) = some "tok_x_2")) = true := by
    decide +kernel
  obtain ⟨g, hg, hrules⟩ := any_toOption_iff.1 hok
  obtain ⟨hs, hx, hy⟩ := of_decide_eq_true hrules
  obtain ⟨s, hs, hbits⟩ := Option.map_eq_some_iff.1 hs
  obtain ⟨x, hx, hxlower⟩ := Option.map_eq_some_iff.1 hx
  obtain ⟨y, hy, hylower⟩ := Option.map_eq_some_iff.1 hy
  have hnames : argumentNames [x, x, y] = ["tok_x", "tok_x_2", "tok_x_2"] := by
    rw [argumentNames, List.map_cons, List.map_cons, List.map_singleton, hxlower, hylower]
    decide
  refine ⟨g, s, [x, x, y], hg, hs, hbits, by simp [hx, hy], ?_, hnames, ?_⟩
  · simp [constructorFor, hbits, hx, hy]
  · rw [hnames]
    decide

end Grammar

end LanguageWorkbench
