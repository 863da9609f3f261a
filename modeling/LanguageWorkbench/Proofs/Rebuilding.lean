import LanguageWorkbench.Language
import LanguageWorkbench.Proofs.LiteralPrograms
import LanguageWorkbench.Proofs.Spelling

/-!
# Parsed trees are what the checked constructors build

A parser makes its trees by the productions of the lowered grammar, and the checked
constructors go by the rules of the grammar. Where no two rules share a name and no rule
collapses, the constructors give back every node of a parsed tree from the store of the
parser.

Results:
* `Language.MadeOf`, `Language.madeOf_of_compile`: the parts of a language.
* `Language.rebuild_eq_of_parseParts`: parsed trees are values of the start rule, and
  rebuilding them changes nothing.
-/

namespace LanguageWorkbench.Language

/-- What a language is made of. -/
structure MadeOf (engine : RegexEngine) (source : String) (l : Language) : Prop where
  load : Grammar.load source = .ok l.grammar
  lowered : (Lowered.ofGrammar l.grammar).result = .ok l.lowered
  table : (Table.build l.lowered).result = .ok l.table
  schema : l.schema = .ofGrammar l.grammar
  parser : ∃ lexicon, (Lexicon.ofGrammarWith engine l.grammar l.lowered).result = .ok lexicon ∧
    l.parser = .new ⟨l.lowered, l.table, .ofLowered l.lowered l.schema⟩ lexicon 0

variable {engine : RegexEngine} {source : String} {l : Language}

theorem madeOf_of_compile (h : (compileWith engine source).result = .ok l) :
    l.MadeOf engine source := by
  unfold compileWith at h
  obtain ⟨grammar, hload, h⟩ := Noted.result_bind_eq_ok_iff.1 h
  obtain ⟨-, -, h⟩ := Noted.result_bind_eq_ok_iff.1 h
  obtain ⟨-, -, h⟩ := Noted.result_bind_eq_ok_iff.1 h
  obtain ⟨lowered, hlowered, h⟩ := Noted.result_bind_eq_ok_iff.1 h
  obtain ⟨-, -, h⟩ := Noted.result_bind_eq_ok_iff.1 h
  obtain ⟨table, htable, h⟩ := Noted.result_bind_eq_ok_iff.1 h
  obtain ⟨-, -, h⟩ := Noted.result_bind_eq_ok_iff.1 h
  obtain ⟨lexicon, hlexicon, h⟩ := Noted.result_bind_eq_ok_iff.1 h
  cases h
  exact ⟨hload, hlowered, htable, rfl, lexicon, hlexicon, rfl⟩

/-- A parsed tree other than nothing is a value of the start rule, and the checked
    constructors make every node of it again: the same node, from the store of the parser. Of the
    engine it is used that an escaped text matches nothing but the text. -/
theorem rebuild_eq_of_parseParts (hengine : engine.ReadsEscapes)
    (hl : (compileWith engine source).result = .ok l)
    (hcollapse : l.grammar.collapse = []) (hnames : l.grammar.Distinct) {file : String}
    {realm : Nat} {parts : List String} {t : Node}
    (ht : ((l.parser.resetTo file realm).parseParts parts).result = .ok t) (hne : t ≠ .nothing) :
    l.schema.is t (l.grammar.nameOf l.grammar.start) = true ∧
      ∀ v ∈ t.visits,
        l.schema.rebuild v.node ((l.parser.resetTo file realm).parseParts parts).parser.store =
          .ok (v.node, ((l.parser.resetTo file realm).parseParts parts).parser.store) := by
  obtain ⟨hload, hlowered, htable, hschema, lexicon, hlexicon, hparser⟩ := madeOf_of_compile hl
  obtain ⟨symbols, h⟩ := Grammar.lowersTo_of_ofGrammar hlowered
  have hsound := Grammar.sound_of_load hload
  have hcheck := Grammar.check_of_load hload
  have hwell := h.wellFormed
  obtain ⟨a, hfed, hresult⟩ := Parser.feedAll_of_parseParts ht hne
  rw [hparser, hschema] at hfed
  have hspelled : ∀ x ∈ Lexicon.terminals (lexicon.cutParts [] (parts.map String.toList)).1,
      x.1 ≠ endSymbol ∧ l.grammar.Spelled symbols x := fun _ hx =>
    ⟨h.ne_end_of_cutParts hlexicon hx, h.spelled_of_cutParts hengine hlexicon hx⟩
  obtain ⟨start, tree, value, hzero, hgrows, hfold, hvalues⟩ :=
    Machine.grows_of_feedAll hwell htable (fun x hx => (hspelled x hx).1) hfed
  obtain ⟨id, s, hstart, hs, hzero'⟩ := h.start
  obtain rfl : start = s := by
    rw [hzero, Option.some.injEq, Production.mk.injEq, List.cons.injEq] at hzero'
    exact hzero'.2.1
  obtain rfl : value = t := by
    rw [Automaton.result?, hvalues] at hresult
    split at hresult
    · exact Option.some.inj hresult
    · cases hresult
  have hbuilt := h.fold_spec hsound hcheck hnames hcollapse hgrows
    (Lowered.sole_singleton fun t' ht' =>
      Lowered.grows_unique hwell htable hzero (fun x hx => (hspelled x hx).1) hgrows ht')
    hs (fun x hx => (hspelled x hx).2) (Store.interns_empty _ realm) hfold
  rw [hparser, hschema]
  refine ⟨?_, fun v hv => (hbuilt.interned.of_mem_visitsUnder hv).rebuild_eq⟩
  have hvalue := (Grammar.stripsTo_of_startRule hstart).isValue hbuilt.value
  simp [Schema.is, Schema.ofGrammar, hsound.start] at hvalue ⊢
  exact hvalue

/-- A grammar of steps that may end with an exclamation mark. -/
def steps : String :=
  "language steps\natom ID x+|y+\nsymbol ';' semi\nsymbol '!' bang\nstart program\n" ++
    "program:\n    step+ '!'?\nstep:\n    ID ';'\n"

theorem rebuild_eq_of_parseParts_steps : ∃ l t, (compile steps).result = .ok l ∧
    ((l.parser.resetTo "in" 0).parseParts ["x;y", ";"]).result = .ok t ∧ t ≠ .nothing ∧
      l.schema.is t (l.grammar.nameOf l.grammar.start) = true ∧
        ∀ v ∈ t.visits,
          l.schema.rebuild v.node ((l.parser.resetTo "in" 0).parseParts ["x;y", ";"]).parser.store =
            .ok (v.node, ((l.parser.resetTo "in" 0).parseParts ["x;y", ";"]).parser.store) := by
  have hok : ((compile steps).result.toOption.map fun l =>
      decide (l.grammar.collapse = []) && decide (l.grammar.rules.toList.map Rule.name).Nodup &&
        ((l.parser.resetTo "in" 0).parseParts ["x;y", ";"]).result.toOption.any
          (!·.isNothing)) = some true := by
    decide +kernel
  cases hl : (compile steps).result with
  | error f =>
    rw [hl] at hok
    cases hok
  | ok l =>
    rw [hl] at hok
    simp only [Except.toOption, Option.map_some, Option.some.injEq, Bool.and_eq_true,
      decide_eq_true_eq] at hok
    obtain ⟨⟨hcollapse, hnodup⟩, hparse⟩ := hok
    cases ht : ((l.parser.resetTo "in" 0).parseParts ["x;y", ";"]).result with
    | error f =>
      rw [ht] at hparse
      cases hparse
    | ok t =>
      have hne : t ≠ .nothing := by
        rintro rfl
        rw [ht] at hparse
        cases hparse
      exact ⟨l, t, rfl, ht, hne, rebuild_eq_of_parseParts Pattern.readsEscapes hl hcollapse
        (Grammar.distinct_of_nodup hnodup) ht hne⟩

end LanguageWorkbench.Language
