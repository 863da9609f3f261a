import LanguageWorkbench.Proofs.Interning
import LanguageWorkbench.Proofs.Serving
import LanguageWorkbench.Proofs.Values

/-!
# Checked constructors and reductions

What the checked constructors allow for the kind of a rule, and what a reduction makes: a
single value stands for itself, and any other values, with nothing in the places of absent
bits, become the children of a tree unless the derivation collapses.

Results:
* `Schema.IsKind.terminal_eq`, `Schema.IsKind.create_eq`: the nodes that are allowed.
* `TreeBuilder.reduce_single`, `TreeBuilder.reduce_several`: the two kinds of reductions.
* `Grammar.Chosen.values`: the children of a tree are values of the bits of its choice.
-/

namespace LanguageWorkbench

/-! ## Allowed nodes -/

namespace Schema

variable {g : Grammar} {id : RuleId} {rule : Rule} {kind : Kind}

theorem IsKind.expectKind_eq (h : IsKind g id rule kind) :
    (ofGrammar g).expectKind ((ofGrammar g).nameOf kind) = .ok kind := by
  rw [h.nameOf, expectKind, h.byName]

theorem IsKind.info_eq (h : IsKind g id rule kind) :
    (ofGrammar g).info kind = .ok ⟨rule.name, rule.tag.dash, some id, rule.shape.isTerm⟩ := by
  rw [Schema.info, h.info]

theorem ruleShape?_ofGrammar (hrule : g.rule? id = some rule) (name tag : String)
    (terminal : Bool) :
    (ofGrammar g).ruleShape? ⟨name, tag, some id, terminal⟩ = some (g, id, rule.shape) := by
  simp [ruleShape?, ofGrammar, Grammar.shape?, hrule]

/-- A term allows leaves with its name, and an atom any leaves. -/
theorem IsKind.terminal_eq (h : IsKind g id rule kind) (hrule : g.rule? id = some rule)
    {termKind : TermKind} {pattern : Option String} (hshape : rule.shape = .term termKind pattern)
    {text : String} (htext : termKind ≠ .atom → text = rule.name) (store : Store) :
    (ofGrammar g).terminal store ((ofGrammar g).nameOf kind) text = .ok (store.leaf kind text) := by
  have hname := h.nameOf
  unfold terminal
  rw [h.expectKind_eq]
  refine bind_eq_ok_iff.2 ⟨kind, rfl, ?_⟩
  rw [h.info_eq]
  refine bind_eq_ok_iff.2 ⟨_, rfl, ?_⟩
  rw [ruleShape?_ofGrammar hrule, hshape]
  by_cases hatom : termKind = .atom
  · simp [Shape.isTerm, hatom]
    rfl
  · simp [Shape.isTerm, hname, htext hatom]
    rfl

theorem checkChildren_eq {s : Schema} {name : String} {index : Nat} {children : List Node}
    {bits : List RuleId} (h : List.Forall₂ (fun n bit => s.isValue g n bit = true) children bits) :
    s.checkChildren g name index children bits = .ok () := by
  induction h generalizing index with
  | nil => rfl
  | cons hvalue _ ih =>
    simp only [checkChildren, hvalue]
    exact ih

/-- A sequence allows trees over values of its bits, and a list allows trees over a value
    of its own and one of its child. -/
theorem IsKind.create_eq (h : IsKind g id rule kind) (hrule : g.rule? id = some rule)
    {bits : List RuleId}
    (hshape : (∃ anonymous, rule.shape = .sequence bits anonymous) ∨
      ∃ child, rule.shape = .plus child ∧ bits = [id, child])
    {children : List Node} (hlen : 2 ≤ children.length)
    (hvalues : List.Forall₂ (fun n bit => (ofGrammar g).isValue g n bit = true) children bits)
    (store : Store) :
    (ofGrammar g).create store ((ofGrammar g).nameOf kind) children =
      store.checkedTree kind children := by
  unfold create
  simp only [h.expectKind_eq, h.info_eq, ok_bind, ruleShape?_ofGrammar hrule]
  have hcount := hvalues.length_eq
  rw [hcount] at hlen
  have hfew : ¬ bits.length < 2 := Nat.not_lt.2 hlen
  rcases hshape with ⟨anonymous, hshape⟩ | ⟨child, hshape, rfl⟩
  · rw [hshape]
    simp [Shape.isTerm, hfew, hcount, checkChildren_eq hvalues, ok_bind]
  · rw [hshape]
    simp [Shape.isTerm, hcount, checkChildren_eq hvalues, ok_bind]

end Schema

/-! ## Reductions without collapse -/

namespace TreeBuilder

open Grammar (absentPlaces presentSymbols)

variable {b : TreeBuilder} {p : Nat} {d : Derivation} {choice : List (Option Symbol)}
variable {store : Store} {values : List Node}

/-- The bits of a choice are absent or present. -/
theorem length_absentPlaces (place : Nat) (choice : List (Option Symbol)) :
    (absentPlaces place choice).length + (presentSymbols choice).length = choice.length := by
  induction choice generalizing place with
  | nil => rfl
  | cons r choice ih =>
    have := ih (place + 1)
    cases r <;> simp only [absentPlaces, Grammar.presentSymbols_none, Grammar.presentSymbols_some,
      List.length_cons] <;> omega

/-- The value of a choice of one present bit stands for itself. -/
theorem reduce_single {s : Symbol} {value : Node} (hd : b.derivations[p]? = some d)
    (homitted : d.omitted = absentPlaces 0 [some s]) :
    b.reduce store p [value] = .ok (value, store) := by
  simp [reduce, hd, homitted, absentPlaces]
  rfl

/-- The values of a choice of several bits become a tree, or the only live one stands for
    itself. -/
theorem reduce_several {kind : Kind} (hd : b.derivations[p]? = some d)
    (homitted : d.omitted = absentPlaces 0 choice) (hkind : b.kinds[p]? = some (some kind))
    (hchoice : 2 ≤ choice.length) (hlen : values.length = (presentSymbols choice).length) :
    b.reduce store p values = .ok
      (match if d.collapse then onlyLive? (fill choice values) else none with
        | some only => (only, store)
        | none => store.tree kind (fill choice values)) := by
  have hcount := length_absentPlaces 0 choice
  have hsplice := splice_absentPlaces d.name hlen
  rw [← homitted] at hcount hsplice
  unfold reduce
  simp only [hd]
  split
  · rename_i hone hnone
    rw [hnone, ← hlen] at hcount
    simp at hcount
    omega
  · rename_i values _ _ _
    rw [hsplice]
    simp only [hkind, bind, Except.bind]
    cases (if d.collapse = true then onlyLive? (fill choice values) else none) with
    | none => rfl
    | some only => rfl

/-- Without collapse the values of a choice of several bits become a tree. -/
theorem reduce_tree {kind : Kind} (hd : b.derivations[p]? = some d)
    (homitted : d.omitted = absentPlaces 0 choice) (hcollapse : d.collapse = false)
    (hkind : b.kinds[p]? = some (some kind)) (hchoice : 2 ≤ choice.length)
    (hlen : values.length = (presentSymbols choice).length) :
    b.reduce store p values = .ok (store.tree kind (fill choice values)) := by
  rw [reduce_several hd homitted hkind hchoice hlen, hcollapse]
  rfl

theorem length_fill (hlen : values.length = (presentSymbols choice).length) :
    (fill choice values).length = choice.length := by
  induction choice generalizing values with
  | nil => simpa [fill] using hlen
  | cons r choice ih =>
    cases r with
    | none => simpa [fill] using ih hlen
    | some s =>
      cases values with
      | nil => simp at hlen
      | cons value values => simpa [fill] using ih (by simpa using hlen)

theorem mem_fill {n : Node} (h : n ∈ fill choice values) : n = .nothing ∨ n ∈ values := by
  induction choice generalizing values with
  | nil => exact .inr h
  | cons r choice ih =>
    cases r with
    | none =>
      rcases List.mem_cons.1 h with rfl | h
      · exact .inl rfl
      · exact ih h
    | some s =>
      cases values with
      | nil => exact ih h
      | cons value values =>
        rcases List.mem_cons.1 h with rfl | h
        · exact .inr List.mem_cons_self
        · exact (ih h).imp_right (List.mem_cons_of_mem _)

end TreeBuilder

/-- Values of the symbols of a choice, with nothing in the places of absent bits, are
    values of the bits. -/
theorem Grammar.Chosen.values {g : Grammar} {symbols : SymbolMap} {s : Schema}
    {afterAbsent : Bool} {bits : List RuleId} {choice : List (Option Symbol)}
    (h : Chosen g symbols afterAbsent bits choice) {values : List Node}
    (hvalues : List.Forall₂ (fun n x => ∀ id, symbols.lookup id = some x →
      s.isValue g n id = true) values (presentSymbols choice)) :
    List.Forall₂ (fun n bit => s.isValue g n bit = true) (TreeBuilder.fill choice values) bits := by
  induction h generalizing values with
  | nil =>
    cases hvalues
    exact .nil
  | @cons _ _ _ r _ hr _ ih =>
    cases r with
    | none => exact .cons (hr.isValue (fun _ => rfl) fun _ _ hs => nomatch hs) (ih hvalues)
    | some x =>
      rw [presentSymbols_some] at hvalues
      cases hvalues with
      | cons hvalue hvalues =>
        refine .cons (hr.isValue (fun hnone => nomatch hnone) ?_) (ih hvalues)
        rintro x' y hx hy
        exact hvalue y (by rw [hy, hx])

end LanguageWorkbench
