import LanguageWorkbench.Proofs.Values

/-!
# Membership in rules

Which nodes are values of which rules is given by a few inference rules, and the rules of a
grammar may refer to each other in circles. Asking about a rule answers no where the same
rule is asked about again. Still every value is found, whatever the arena looks like, and
the question always ends.

Results:
* `Schema.Holds`: the values of rules, by inference rules.
* `Schema.isValue_iff_holds`: the values that are found are those that can be inferred.
* `Schema.is_iff_holds`: the same for the name of a rule, and more fuel changes nothing.
-/

namespace LanguageWorkbench.Schema

variable {g : Grammar} {n : Node} {id : RuleId}

/-- `Holds g n id`: that the node is a value of the rule follows by finitely many uses of
    these rules. -/
inductive Holds (g : Grammar) (n : Node) : RuleId → Prop
  /-- A leaf of the kind of a term. -/
  | term {id : RuleId} {kind : TermKind} {pattern : Option String}
      (hshape : g.shape? id = some (.term kind pattern)) {k : Kind} (hn : n.kind? = some k)
      (hk : (ofGrammar g).kindOfRule? id = some k) : Holds g n id
  /-- A tree of the kind of a sequence. -/
  | sequence {id : RuleId} {bits : List RuleId} {anonymous : Bool}
      (hshape : g.shape? id = some (.sequence bits anonymous)) {k : Kind} (hn : n.kind? = some k)
      (hk : (ofGrammar g).kindOfRule? id = some k) : Holds g n id
  /-- A list of several elements. -/
  | list {id child : RuleId} (hshape : g.shape? id = some (.plus child)) {k : Kind}
      (hn : n.kind? = some k) (hk : (ofGrammar g).kindOfRule? id = some k) : Holds g n id
  /-- A list of one element is that element. -/
  | element {id child : RuleId} (hshape : g.shape? id = some (.plus child))
      (h : Holds g n child) : Holds g n id
  /-- Nothing, where the rule may be absent. -/
  | absent {id child : RuleId} (hshape : g.shape? id = some (.option child) ∨
      g.shape? id = some (.dependent child) ∨ g.shape? id = some (.separator child))
      (hn : n = .nothing) : Holds g n id
  /-- A value of the child of a rule that may be absent. -/
  | present {id child : RuleId} (hshape : g.shape? id = some (.option child) ∨
      g.shape? id = some (.dependent child) ∨ g.shape? id = some (.separator child))
      (h : Holds g n child) : Holds g n id
  /-- A value of the rule behind an alias or a delimiter. -/
  | behind {id child : RuleId} (hshape : g.shape? id = some (.aliasOf child) ∨
      g.shape? id = some (.delimiter child)) (h : Holds g n child) : Holds g n id
  /-- A value of a branch. -/
  | branch {id bit : RuleId} {bits : List RuleId}
      (hshape : g.shape? id = some (.alternative bits)) (hbit : bit ∈ bits)
      (h : Holds g n bit) : Holds g n id

/-! ## One step -/

/-- A rule that accepts a node by itself holds for it. -/
theorem holds_of_accepts (h : (ofGrammar g).accepts g n id = true) : Holds g n id := by
  have hown : (n.kind?.isSome && decide (n.kind? = (ofGrammar g).kindOfRule? id)) = true →
      ∃ k, n.kind? = some k ∧ (ofGrammar g).kindOfRule? id = some k := by
    intro hown
    rw [Bool.and_eq_true, decide_eq_true_eq] at hown
    obtain ⟨k, hk⟩ := Option.isSome_iff_exists.1 hown.1
    exact ⟨k, hk, hown.2 ▸ hk⟩
  have hnothing : n.isNothing = true → n = .nothing := by
    cases n <;> simp [Node.isNothing]
  unfold accepts at h
  split at h
  · exact .absent (.inl ‹_›) (hnothing h)
  · exact .absent (.inr (.inl ‹_›)) (hnothing h)
  · exact .absent (.inr (.inr ‹_›)) (hnothing h)
  · obtain ⟨k, hn, hk⟩ := hown h
    exact .term ‹_› hn hk
  · obtain ⟨k, hn, hk⟩ := hown h
    exact .sequence ‹_› hn hk
  · obtain ⟨k, hn, hk⟩ := hown h
    exact .list ‹_› hn hk
  all_goals cases h

/-- A rule holds for what holds for a rule whose values it offers. -/
theorem Holds.of_offers {child : RuleId} (hchild : child ∈ offersOf g id) (h : Holds g n child) :
    Holds g n id := by
  cases hshape : g.shape? id with
  | none => simp [offersOf, hshape] at hchild
  | some shape =>
    rw [offersOf_eq hshape] at hchild
    cases shape with
    | term kind pattern => cases hchild
    | sequence bits anonymous => cases hchild
    | alternative bits => exact .branch hshape hchild h
    | option c => exact .present (.inl hshape) (List.mem_singleton.1 hchild ▸ h)
    | aliasOf c => exact .behind (.inl hshape) (List.mem_singleton.1 hchild ▸ h)
    | dependent c => exact .present (.inr (.inl hshape)) (List.mem_singleton.1 hchild ▸ h)
    | plus c => exact .element hshape (List.mem_singleton.1 hchild ▸ h)
    | separator c => exact .present (.inr (.inr hshape)) (List.mem_singleton.1 hchild ▸ h)
    | delimiter c => exact .behind (.inr hshape) (List.mem_singleton.1 hchild ▸ h)

/-- Whatever can be inferred is found. -/
theorem Holds.isValue (h : Holds g n id) : (ofGrammar g).isValue g n id = true := by
  induction h with
  | term hshape hn hk => exact isValue_of_accepts (by simp [accepts, hshape, hn, hk])
  | sequence hshape hn hk => exact isValue_of_accepts (by simp [accepts, hshape, hn, hk])
  | list hshape hn hk => exact isValue_of_accepts (by simp [accepts, hshape, hn, hk])
  | element hshape _ ih => exact isValue_of_offers hshape (List.mem_singleton_self _) ih
  | absent hshape hn =>
    subst hn
    rcases hshape with hshape | hshape | hshape <;>
      exact isValue_of_accepts (by simp [accepts, hshape, Node.isNothing])
  | present hshape _ ih =>
    rcases hshape with hshape | hshape | hshape <;>
      exact isValue_of_offers hshape (List.mem_singleton_self _) ih
  | behind hshape _ ih =>
    rcases hshape with hshape | hshape <;>
      exact isValue_of_offers hshape (List.mem_singleton_self _) ih
  | branch hshape hbit _ ih => exact isValue_of_offers hshape hbit ih

/-! ## The whole question -/

/-- The values that are found are those that can be inferred. -/
theorem isValue_iff_holds : (ofGrammar g).isValue g n id = true ↔ Holds g n id := by
  constructor
  · refine inferredVia_induction (P := Holds g n) fun known id hknown h => ?_
    rcases isValueBy_iff.1 h with h | ⟨child, hchild, hk⟩
    · exact holds_of_accepts h
    · exact .of_offers hchild (hknown child hk)
  · exact Holds.isValue

/-- A node is found to be a value of the rule with a name exactly if that can be inferred.
    The question ends: with more fuel than there are rules the answer is always the same. -/
theorem is_iff_holds (g : Grammar) (n : Node) {name : String} (hname : g.lookup name = some id) :
    ((ofGrammar g).is n name = true ↔ Holds g n id) ∧
      ∀ fuel, g.size < fuel →
        inferredVia ((ofGrammar g).isValueBy g n) fuel [] id = (ofGrammar g).is n name := by
  have his : (ofGrammar g).is n name = (ofGrammar g).isValue g n id := by
    show (g.lookup name).any _ = _
    rw [hname, Option.any_some]
  rw [his]
  exact ⟨isValue_iff_holds, fun fuel hfuel =>
    inferredVia_eq (monotonic_isValueBy _ g n) (within_isValueBy _ g n) hfuel⟩

/-- An arena in which an alias leads back to the alternative it is a branch of, before the
    branch that has the values. -/
def circular : Grammar where
  language := .ofName "circular" "circular"
  whitespace := none
  start := 1
  collapse := []
  spacing := []
  rules := #[⟨.inFamily "tok" "a" "a", 2, .term .keyword none⟩,
    ⟨.inFamily "any" "s" "s", 4, .alternative [2, 0]⟩,
    ⟨.inFamily "alias" "r" "r", 7, .aliasOf 1⟩]
  names := [("r", 2), ("s", 1), ("a", 0)]
  declared := 3

/-- In the circle the leaf is a value of the alias by way of the branch that the alias meets
    last, and nothing is a value of no rule. -/
theorem is_iff_holds_circular :
    (circular.lookup "r" = some 2 ∧ Holds circular (.leaf ⟨0, 0⟩ 0 "a") 2) ∧
      ¬ Holds circular .nothing 2 := by
  have hname : circular.lookup "r" = some 2 := by decide
  refine ⟨⟨hname, (is_iff_holds circular (.leaf ⟨0, 0⟩ 0 "a") hname).1.1 (by decide +kernel)⟩,
    fun h => ?_⟩
  have hvalue := (is_iff_holds circular .nothing hname).1.2 h
  revert hvalue
  decide +kernel

end LanguageWorkbench.Schema
