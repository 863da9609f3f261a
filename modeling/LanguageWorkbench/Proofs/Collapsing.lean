import LanguageWorkbench.Proofs.Sentences
import LanguageWorkbench.Proofs.Slots
import LanguageWorkbench.Proofs.UniqueNames

/-!
# Values of collapsed sequences

A list of one element is the element, and the element is a value of the list. A sequence that
collapses is its only live child, but only a node of its own kind is a value of a sequence. So
what a parser puts in the place of a collapsed sequence is a value of it only if the child
has the kind of the sequence itself, and the checked constructor of the parent refuses others.

Results:
* `TreeBuilder.Splices.reduce_cases`: what a reduction by a production of a sequence does.
* `Schema.is_sequence_iff`: the values of a sequence.
* `Schema.is_reduced_iff`: when a reduction makes a value of its sequence.
* `Schema.not_is_collapsed`: a collapsed child that is refused.
-/

namespace LanguageWorkbench

theorem Store.Sound.kind?_tree {s : Store} (h : s.Sound) (kind : Kind) (children : List Node) :
    (s.tree kind children).1.kind? = some kind := by
  unfold Store.tree
  dsimp only
  split
  · rename_i n hfound
    obtain ⟨id, cs, rfl, -⟩ := h.tree (mem_of_lookup hfound)
    rfl
  · rfl

namespace TreeBuilder

theorem onlyLive?_eq_some_iff {arguments : List Node} {v : Node} :
    onlyLive? arguments = some v ↔ arguments.filter (!·.isNothing) = [v] := by
  unfold onlyLive?
  split
  · rename_i n hn
    rw [hn, Option.some.injEq, List.cons.injEq, and_iff_left rfl]
  · rename_i hno
    constructor
    · intro h
      cases h
    · exact fun h => absurd h (hno v)

variable {b : TreeBuilder} {n : Nat} {d : Derivation} {count : Nat} {values arguments : List Node}

/-- What stands for the arguments of a collapsing derivation is their only value. -/
theorem Splices.single_iff (h : b.Splices n d count values arguments) (v : Node) :
    (if d.collapse = true then onlyLive? arguments else none) = some v ↔
      d.collapse = true ∧ values = [v] := by
  by_cases hd : d.collapse = true
  · rw [if_pos hd, onlyLive?_eq_some_iff, h.live_eq, and_iff_right hd]
  · simp [hd]

/-- A reduction hands back the single value of a collapsing derivation, and makes a tree of any
    other values. -/
theorem Splices.reduce_cases (h : b.Splices n d count values arguments) :
    ∃ kind, b.kinds[n]? = some (some kind) ∧
      ((∃ v, d.collapse = true ∧ values = [v] ∧
          ∀ store, b.reduce store n values = .ok (v, store)) ∨
        (∀ v, d.collapse = true → values ≠ [v]) ∧
          ∀ store, b.reduce store n values = .ok (store.tree kind arguments)) := by
  obtain ⟨kind, hbuilt, hreduce⟩ := h.reduce_eq
  refine ⟨kind, hbuilt, ?_⟩
  cases hlast : (if d.collapse = true then onlyLive? arguments else none) with
  | some v =>
    rw [hlast] at hreduce
    obtain ⟨hd, hv⟩ := (h.single_iff v).1 hlast
    exact .inl ⟨v, hd, hv, hreduce⟩
  | none =>
    rw [hlast] at hreduce
    refine .inr ⟨fun v hd heq => ?_, hreduce⟩
    have hv := (h.single_iff v).2 ⟨hd, heq⟩
    rw [hlast] at hv
    cases hv

end TreeBuilder

namespace Schema

variable {text : String} {g : Grammar} {l : Lowered} {id : RuleId} {rule : Rule}

/-- Where names are unique, the name of a rule asks for its values. -/
theorem is_name_eq (hload : Grammar.load text = .ok g) (hd : g.Distinct)
    (hrule : g.rule? id = some rule) (n : Node) :
    (ofGrammar g).is n rule.name = (ofGrammar g).isValue g n id := by
  obtain ⟨id', rule', hlookup, hrule', hname⟩ := Grammar.exists_lookup_of_load hload hrule
  obtain rfl := hd hrule' hrule hname
  show (g.lookup rule.name).any _ = _
  rw [hlookup, Option.any_some]

/-- The values of a sequence are the nodes of its own kind. -/
theorem is_sequence_iff (hload : Grammar.load text = .ok g) (hd : g.Distinct)
    {bits : List RuleId} {anonymous : Bool} (hshape : g.shape? id = some (.sequence bits anonymous))
    (n : Node) : (ofGrammar g).is n (g.nameOf id) = true ↔
      n.kind?.isSome = true ∧ n.kind? = (ofGrammar g).kind? (g.nameOf id) := by
  obtain ⟨rule, hrule, hr⟩ := Option.map_eq_some_iff.1 hshape
  obtain ⟨kind, hkind⟩ := exists_isKind hd hrule (by rw [hr]; rfl)
  have hname : g.nameOf id = rule.name := by rw [Grammar.nameOf, hrule]; rfl
  rw [hname, is_name_eq hload hd hrule, hkind.byName]
  have haccepts : (ofGrammar g).accepts g n id = true ↔
      n.kind?.isSome = true ∧ n.kind? = some kind := by
    simp [accepts, hshape, hkind.byRule]
  rw [← haccepts]
  constructor
  · intro hvalue
    obtain ⟨y, hlinked, hy⟩ := isValue_iff.1 hvalue
    -- a sequence offers no values of other rules
    rcases Relation.ReflTransGen.cases_head hlinked with rfl | ⟨z, hz, -⟩
    · exact hy
    · rw [offersOf_eq hshape] at hz
      cases hz
  · exact isValue_of_accepts

/-- A production of a sequence makes a value of the sequence, unless the sequence collapses and
    the production has a single value of another kind, which then stands for itself. -/
theorem is_reduced_iff (hload : Grammar.load text = .ok g) (hd : g.Distinct)
    (hl : (Lowered.ofGrammar g).result = .ok l) {head : RuleId} {bits : List RuleId}
    {anonymous : Bool} (hshape : g.shape? id = some (.sequence bits anonymous))
    (hhead : g.Heads head id) {n : Nat} {p : Production} {d : Derivation}
    (hp : l.productions[n]? = some p) (hder : l.derivations[n]? = some d)
    (hlhs : l.symbol? (g.nameOf head) = some p.lhs) (hid : d.rule = some id)
    {store : Store} (hstore : store.Sound) {values : List Node}
    (hlen : values.length = p.rhs.length) (hlive : ∀ v ∈ values, v.isNothing = false) :
    ∃ r store', (TreeBuilder.ofLowered l (ofGrammar g)).reduce store n values = .ok (r, store') ∧
      ((ofGrammar g).is r (g.nameOf id) = true ↔ ∀ v, id ∈ g.collapse → values = [v] →
        v.kind? = (ofGrammar g).kind? (g.nameOf id)) ∧
      ∀ v, id ∈ g.collapse → values = [v] → r = v ∧ store' = store := by
  obtain ⟨symbols, h⟩ := Grammar.lowersTo_of_ofGrammar hl
  have hg := Grammar.sound_of_load hload
  obtain ⟨lhs, _, hlookup, -, -⟩ := h.expanded hg (hhead.expands hshape)
  obtain rfl := Option.some.inj ((h.numbers.symbol?_nameOf hlookup).symm.trans hlhs)
  obtain ⟨choice, hrhs, rfl, hchosen⟩ := h.exists_chosen_of_head hg
    (Grammar.check_of_load hload) hhead hshape hlookup hp hder hid
  obtain ⟨rule, hrule, hr⟩ := Option.map_eq_some_iff.1 hshape
  have hsplices := Grammar.splices_of_chosen hchosen (hg.long hshape) hrule (by rw [hr]; rfl)
    hder (hrhs ▸ hlen) hlive
  obtain ⟨kind, hbuilt, hcases⟩ := hsplices.reduce_cases
  have hkind : (ofGrammar g).kind? (g.nameOf id) = some kind := by
    simpa [TreeBuilder.ofLowered, hder, Grammar.derivationOf] using hbuilt
  have hcollapse : (g.derivationOf id choice).collapse = true ↔ id ∈ g.collapse :=
    List.contains_iff_mem
  simp only [is_sequence_iff hload hd hshape, hkind, ← hcollapse]
  -- the only value stands for itself, or there is a new tree of the kind of the sequence
  rcases hcases with ⟨v, hmem, rfl, hreduce⟩ | ⟨hnot, hreduce⟩
  · have hsome : v.kind?.isSome = true := by
      cases v with
      | nothing => cases hlive .nothing (List.mem_singleton_self _)
      | leaf id kind text => rfl
      | tree id kind tokens children => rfl
    refine ⟨v, store, hreduce store, ⟨?_, ?_⟩, fun v' _ heq => ⟨(List.cons.inj heq).1, rfl⟩⟩
    · rintro hv v' - heq
      rw [← (List.cons.inj heq).1]
      exact hv.2
    · exact fun hv => ⟨hsome, hv v hmem rfl⟩
  · refine ⟨_, _, hreduce store, ?_, fun v hmem heq => absurd heq (hnot v hmem)⟩
    show (store.tree kind _).1.kind?.isSome = true ∧ (store.tree kind _).1.kind? = _ ↔ _
    rw [hstore.kind?_tree]
    exact ⟨fun _ v hmem heq => absurd heq (hnot v hmem), fun _ => ⟨rfl, rfl⟩⟩

end Schema

/-- A parent with a sequence that collapses. -/
def Grammar.collapsing : String :=
  "language collapsing\nkeyword x\nkeyword y\ncollapse s\nstart t\nt:\n    s y\ns:\n    x? y\n"

namespace Schema

/-- With both `x` and `y` the sequence is built. -/
theorem is_reduced_collapsing : ∃ g l x y store nodes r store',
    Grammar.load Grammar.collapsing = .ok g ∧ (Lowered.ofGrammar g).result = .ok l ∧
    Builds (ofGrammar g) store (y :: x :: nodes) ∧
    (TreeBuilder.ofLowered l (ofGrammar g)).reduce store 3 [x, y] = .ok (r, store') ∧
    (ofGrammar g).is r (g.nameOf 3) = true := by
  have hok : (Grammar.load Grammar.collapsing).toOption.any (fun g =>
      (Lowered.ofGrammar g).result.toOption.any fun l =>
        ((ofGrammar g).terminal (.empty 0) "x" "x").toOption.any fun x =>
          ((ofGrammar g).terminal x.2 "y" "y").toOption.any fun y =>
            l.productions[3]?.any fun p => l.derivations[3]?.any fun d =>
              decide (g.rules.toList.map Rule.name).Nodup &&
                decide (g.shape? 3 = some (.sequence [4, 1] false)) &&
                decide (l.symbol? (g.nameOf 3) = some p.lhs) && decide (d.rule = some 3) &&
                decide (2 = p.rhs.length) && !x.1.isNothing && !y.1.isNothing) = true := by
    decide +kernel
  obtain ⟨g, hload, hok⟩ := any_toOption_iff.1 hok
  obtain ⟨l, hl, hok⟩ := any_toOption_iff.1 hok
  obtain ⟨⟨x, _⟩, hx, hok⟩ := any_toOption_iff.1 hok
  obtain ⟨⟨y, store⟩, hy, hok⟩ := any_toOption_iff.1 hok
  obtain ⟨p, hp, hok⟩ := (Option.any_eq_true ..).1 hok
  obtain ⟨d, hder, hok⟩ := (Option.any_eq_true ..).1 hok
  simp only [Bool.and_eq_true, decide_eq_true_eq, Bool.not_eq_true'] at hok
  obtain ⟨⟨⟨⟨⟨⟨hnodup, hshape⟩, hlhs⟩, hid⟩, hlen⟩, hlivex⟩, hlivey⟩ := hok
  have hd : g.Distinct := Grammar.distinct_of_nodup hnodup
  have hbuilds := ((Builds.start 0).terminal hx).terminal hy
  have hcount : [x, y].length = p.rhs.length := hlen
  have hlive : ∀ v ∈ [x, y], v.isNothing = false := by simp [hlivex, hlivey]
  obtain ⟨r, store', hreduce, his, -⟩ := is_reduced_iff hload hd hl hshape (.own hshape) hp hder
    hlhs hid (Builds.spec hd hbuilds).1 hcount hlive
  refine ⟨g, l, x, y, store, _, r, store', hload, hl, hbuilds, hreduce, his.2 ?_⟩
  -- two values are not a single one
  intro v _ heq
  cases heq

/-- Without `x` the leaf stands for the sequence, and is no value of it: the constructor of the
    parent refuses the child that a reduction puts there. -/
theorem not_is_collapsed : ∃ g l y y' store nodes p kind,
    Grammar.load Grammar.collapsing = .ok g ∧ g.Distinct ∧
    (Lowered.ofGrammar g).result = .ok l ∧ 3 ∈ g.collapse ∧
    l.productions[2]? = some p ∧ l.symbol? (g.nameOf 3) = some p.lhs ∧
    p.rhs.map l.nameOf = ["y"] ∧ Builds (ofGrammar g) store (y' :: y :: nodes) ∧
    y.isNothing = false ∧ (ofGrammar g).is y "y" = true ∧
    (TreeBuilder.ofLowered l (ofGrammar g)).reduce store 2 [y] = .ok (y, store) ∧
    (ofGrammar g).is y (g.nameOf 3) = false ∧ (ofGrammar g).kind? "t" = some kind ∧
    (TreeBuilder.ofLowered l (ofGrammar g)).reduce store 1 [y, y'] =
      .ok (store.tree kind [y, y']) ∧
    (ofGrammar g).create store "t" [y, y'] = .error (.wrongChild 0 "t" "s" "y") := by
  have hok : (Grammar.load Grammar.collapsing).toOption.any (fun g =>
      (Lowered.ofGrammar g).result.toOption.any fun l =>
        ((ofGrammar g).terminal (.empty 0) "y" "y").toOption.any fun y =>
          ((ofGrammar g).terminal y.2 "y" "y").toOption.any fun y' =>
            l.productions[2]?.any fun p => ((ofGrammar g).kind? "t").any fun kind =>
              decide (g.rules.toList.map Rule.name).Nodup && decide (3 ∈ g.collapse) &&
                decide (l.symbol? (g.nameOf 3) = some p.lhs) &&
                decide (p.rhs.map l.nameOf = ["y"]) && !y.1.isNothing &&
                (ofGrammar g).is y.1 "y" && !(ofGrammar g).is y.1 (g.nameOf 3) &&
                decide (l.derivations[2]? = some ⟨"s", some 3, [0], true⟩) &&
                decide (l.derivations[1]? = some ⟨"t", some 2, [], false⟩) &&
                decide (((ofGrammar g).create y'.2 "t" [y.1, y'.1]).map (fun _ => ()) =
                  .error (.wrongChild 0 "t" "s" "y"))) = true := by
    decide +kernel
  obtain ⟨g, hload, hok⟩ := any_toOption_iff.1 hok
  obtain ⟨l, hl, hok⟩ := any_toOption_iff.1 hok
  obtain ⟨⟨y, _⟩, hy, hok⟩ := any_toOption_iff.1 hok
  obtain ⟨⟨y', store⟩, hy', hok⟩ := any_toOption_iff.1 hok
  obtain ⟨p, hp, hok⟩ := (Option.any_eq_true ..).1 hok
  obtain ⟨kind, hkind, hok⟩ := (Option.any_eq_true ..).1 hok
  simp only [Bool.and_eq_true, decide_eq_true_eq, Bool.not_eq_true'] at hok
  obtain ⟨⟨⟨⟨⟨⟨⟨⟨⟨hnodup, hmem⟩, hlhs⟩, hrhs⟩, hlive⟩, his⟩, hnot⟩, hs⟩, ht⟩, hrefused⟩ := hok
  have hbuilds := ((Builds.start 0).terminal hy).terminal hy'
  have hone : (TreeBuilder.ofLowered l (ofGrammar g)).reduce store 2 [y] = .ok (y, store) := by
    have hlast : TreeBuilder.onlyLive? [.nothing, y] = some y := by
      rw [TreeBuilder.onlyLive?_eq_some_iff, List.filter_cons_of_neg (by decide),
        List.filter_singleton, hlive]
      rfl
    simp [TreeBuilder.reduce, TreeBuilder.ofLowered, hs, TreeBuilder.splice, hlast, bind,
      Except.bind, pure, Except.pure]
  have htwo : (TreeBuilder.ofLowered l (ofGrammar g)).reduce store 1 [y, y'] =
      .ok (store.tree kind [y, y']) := by
    simp [TreeBuilder.reduce, TreeBuilder.ofLowered, ht, hkind, TreeBuilder.splice, bind,
      Except.bind, pure, Except.pure]
  have herror : (ofGrammar g).create store "t" [y, y'] = .error (.wrongChild 0 "t" "s" "y") := by
    cases hcreate : (ofGrammar g).create store "t" [y, y'] with
    | ok made => rw [hcreate] at hrefused; cases hrefused
    | error f => rw [hcreate] at hrefused; exact congrArg _ (Except.error.inj hrefused)
  exact ⟨g, l, y, y', store, _, p, kind, hload, Grammar.distinct_of_nodup hnodup, hl, hmem, hp,
    hlhs, hrhs, hbuilds, hlive, his, hone, hnot, hkind, htwo, herror⟩

end Schema

end LanguageWorkbench
