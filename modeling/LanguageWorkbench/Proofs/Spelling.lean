import LanguageWorkbench.Proofs.Building
import LanguageWorkbench.Proofs.Driving
import LanguageWorkbench.Proofs.Literals

/-!
# Texts of terminals

The lexicon of a grammar has an entry for each term with a pattern. What an entry matches
for a term that is no atom is the name of the term, if the engine reads escapes.

Results:
* `Lexicon.sources`, `Lexicon.compiledFrom_of_ofGrammar`: what the entries are compiled from.
* `Grammar.LowersTo.exists_term_of_cutParts`: the terminals of the pieces of a text are those
  of terms.
* `Grammar.LowersTo.spelled_of_cutParts`: their texts are such as the terms allow.
-/

namespace LanguageWorkbench

namespace Lexicon

variable {engine : RegexEngine} {g : Grammar} {l : Lowered} {lexicon : Lexicon}

/-- The pattern of an entry, with its symbol and its line. -/
structure Source where
  symbol : Option Symbol
  line : Nat
  pattern : String
deriving DecidableEq

/-- What the entries of terms are compiled from. -/
def termSources (l : Lowered) (terms : List (Rule × RuleId)) : List Source :=
  terms.filterMap fun (rule, _) =>
    (patternOf rule).map fun pattern => ⟨l.symbol? rule.name, rule.line, pattern⟩

/-- What the entries of a grammar are compiled from: what is skipped, then the terms. -/
def sources (g : Grammar) (l : Lowered) : List Source :=
  (g.whitespace.map fun (line, pattern) => ⟨none, line, pattern⟩).toList ++ termSources l g.terms

/-- An entry is compiled from a source. -/
def CompiledFrom (engine : RegexEngine) (s : Source) (e : LexiconEntry) : Prop :=
  e.symbol = s.symbol ∧ compile engine s.line s.pattern = .ok e.branches

theorem CompiledFrom.eq {s : Source} {e : LexiconEntry} {branches : List Regex}
    (h : CompiledFrom engine s e) (hcompile : compile engine s.line s.pattern = .ok branches) :
    e = ⟨s.symbol, branches⟩ := by
  obtain ⟨symbol, branches'⟩ := e
  obtain ⟨rfl, hcompile'⟩ := h
  rw [hcompile] at hcompile'
  cases hcompile'
  rfl

theorem termSources_of_none {rule : Rule} {id : RuleId} {rest : List (Rule × RuleId)}
    (h : patternOf rule = none) : termSources l ((rule, id) :: rest) = termSources l rest := by
  simp [termSources, h]

theorem termSources_of_some {rule : Rule} {id : RuleId} {rest : List (Rule × RuleId)}
    {pattern : String} (h : patternOf rule = some pattern) :
    termSources l ((rule, id) :: rest) =
      ⟨l.symbol? rule.name, rule.line, pattern⟩ :: termSources l rest := by
  simp [termSources, h]

theorem compiledFrom_of_termEntries {terms : List (Rule × RuleId)} {es : List LexiconEntry}
    (h : termEntries engine l terms = .ok es) :
    List.Forall₂ (CompiledFrom engine) (termSources l terms) es := by
  induction terms generalizing es with
  | nil =>
    cases h
    exact .nil
  | cons r rest ih =>
    obtain ⟨rule, id⟩ := r
    unfold termEntries at h
    cases hpattern : patternOf rule with
    | none =>
      rw [hpattern] at h
      rw [termSources_of_none hpattern]
      exact ih h
    | some pattern =>
      rw [hpattern] at h
      rw [termSources_of_some hpattern]
      cases hsymbol : l.symbol? rule.name with
      | none =>
        simp only [hsymbol] at h
        cases h
      | some x =>
        simp only [hsymbol] at h
        obtain ⟨branches, hcompile, h⟩ := bind_eq_ok_iff.1 h
        obtain ⟨es', hes', h⟩ := bind_eq_ok_iff.1 h
        cases h
        exact .cons ⟨rfl, hcompile⟩ (ih hes')

/-- The entries of a grammar are compiled from its sources, in order. -/
theorem compiledFrom_of_ofGrammar (h : (ofGrammarWith engine g l).result = .ok lexicon) :
    List.Forall₂ (CompiledFrom engine) (sources g l) lexicon.entries := by
  unfold ofGrammarWith at h
  unfold sources
  cases hspace : g.whitespace with
  | none =>
    simp only [hspace] at h
    obtain ⟨skipped, hskipped, h⟩ := Noted.result_bind_eq_ok_iff.1 h
    obtain ⟨terms, hterms, h⟩ := Noted.result_bind_eq_ok_iff.1 h
    obtain ⟨-, -, h⟩ := Noted.result_bind_eq_ok_iff.1 h
    cases hskipped
    cases h
    exact compiledFrom_of_termEntries hterms
  | some space =>
    simp only [hspace] at h
    obtain ⟨branches, hbranches, h⟩ := Noted.result_bind_eq_ok_iff.1 h
    obtain ⟨skipped, hskipped, h⟩ := Noted.result_bind_eq_ok_iff.1 h
    obtain ⟨terms, hterms, h⟩ := Noted.result_bind_eq_ok_iff.1 h
    obtain ⟨-, -, h⟩ := Noted.result_bind_eq_ok_iff.1 h
    cases hskipped
    cases h
    exact .cons ⟨rfl, hbranches⟩ (compiledFrom_of_termEntries hterms)

/-- Every entry is compiled from a source. -/
theorem exists_source_of_mem (h : (ofGrammarWith engine g l).result = .ok lexicon)
    {e : LexiconEntry} (he : e ∈ lexicon.entries) :
    ∃ s ∈ sources g l, CompiledFrom engine s e :=
  exists_of_forall₂ (compiledFrom_of_ofGrammar h).flip he

/-- A source with a symbol is that of a term. -/
theorem exists_term_of_source {s : Source} (hs : s ∈ sources g l) {x : Symbol}
    (hx : s.symbol = some x) :
    ∃ rule id, g.rule? id = some rule ∧ rule.shape.isTerm = true ∧
      patternOf rule = some s.pattern ∧ l.symbol? rule.name = some x ∧ s.line = rule.line := by
  rcases List.mem_append.1 hs with hs | hs
  · obtain ⟨_, -, rfl⟩ := Option.map_eq_some_iff.1 (Option.mem_toList.1 hs)
    cases hx
  · obtain ⟨⟨rule, id⟩, hterm, hs⟩ := List.mem_filterMap.1 hs
    obtain ⟨pattern, hpattern, rfl⟩ := Option.map_eq_some_iff.1 hs
    obtain ⟨hrule, hshape⟩ := Grammar.mem_terms.1 hterm
    exact ⟨rule, id, hrule, hshape, hpattern, hx, rfl⟩

/-- The pieces of a text in parts are longest matches. -/
theorem mem_cutParts {waiting : List Char} {parts : List (List Char)} {piece : Piece}
    (h : piece ∈ (lexicon.cutParts waiting parts).1) :
    ∃ rest n, lexicon.longest rest = some (piece.symbol, n) ∧ piece.text = rest.take n := by
  induction parts generalizing waiting with
  | nil => exact mem_pieces h
  | cons part parts ih =>
    rcases List.mem_append.1 h with h | h
    · exact mem_pieces h
    · exact ih h

theorem mem_terminals {pieces : List Piece} {x : Terminal} :
    x ∈ terminals pieces ↔
      ∃ piece ∈ pieces, piece.symbol = some x.1 ∧ String.ofList piece.text = x.2 := by
  simp [terminals, Prod.ext_iff, List.mem_filterMap]

end Lexicon

namespace Grammar

variable {engine : RegexEngine} {g : Grammar} {symbols : SymbolMap} {l : Lowered}
variable {lexicon : Lexicon}

/-- A terminal of a text in parts is that of a term, whose pattern matched its text. -/
theorem LowersTo.exists_term_of_cutParts (h : g.LowersTo symbols l)
    (hlexicon : (Lexicon.ofGrammarWith engine g l).result = .ok lexicon) {waiting : List Char}
    {parts : List (List Char)} {x : Terminal}
    (hx : x ∈ Lexicon.terminals (lexicon.cutParts waiting parts).1) :
    ∃ rule id pattern branches, g.rule? id = some rule ∧ symbols.lookup id = some x.1 ∧
      Lexicon.patternOf rule = some pattern ∧
      Lexicon.compile engine rule.line pattern = .ok branches ∧
      ∃ r ∈ branches, ∃ text n, r.find text = some n ∧ text.take n = x.2.toList := by
  obtain ⟨piece, hpiece, hsymbol, htext⟩ := Lexicon.mem_terminals.1 hx
  obtain ⟨rest, n, hlongest, htake⟩ := Lexicon.mem_cutParts hpiece
  obtain ⟨-, -, e, he, hesymbol, r, hr, hfind⟩ := Lexicon.longest_spec hlongest
  obtain ⟨source, hsource, hsame, hcompile⟩ := Lexicon.exists_source_of_mem hlexicon he
  obtain ⟨rule, id, hrule, hshape, hpattern, hx', hline⟩ :=
    Lexicon.exists_term_of_source hsource (hsame.symm.trans (hesymbol.trans hsymbol))
  rw [hline] at hcompile
  obtain ⟨s, hs⟩ := h.numbers.exists_lookup hrule (.inl hshape)
  have hname : g.nameOf id = rule.name := by simp [nameOf, hrule]
  obtain rfl : x.1 = s :=
    Option.some.inj (hx'.symm.trans (hname ▸ h.numbers.symbol?_nameOf hs))
  exact ⟨rule, id, _, e.branches, hrule, hs, hpattern, hcompile, r, hr, rest, n, hfind,
    by rw [← htext, ← htake, String.toList_ofList]⟩

/-- A terminal of a text in parts is not the end of the input. -/
theorem LowersTo.ne_end_of_cutParts (h : g.LowersTo symbols l)
    (hlexicon : (Lexicon.ofGrammarWith engine g l).result = .ok lexicon) {waiting : List Char}
    {parts : List (List Char)} {x : Terminal}
    (hx : x ∈ Lexicon.terminals (lexicon.cutParts waiting parts).1) : x.1 ≠ endSymbol := by
  obtain ⟨_, _, _, _, -, hs, -⟩ := h.exists_term_of_cutParts hlexicon hx
  exact (h.numbers.ne_of_lookup hs).2.1

/-- A terminal of a text in parts has the name of its term as its text unless the term is an
    atom. -/
theorem LowersTo.spelled_of_cutParts (h : g.LowersTo symbols l) (hengine : engine.ReadsEscapes)
    (hlexicon : (Lexicon.ofGrammarWith engine g l).result = .ok lexicon) {waiting : List Char}
    {parts : List (List Char)} {x : Terminal}
    (hx : x ∈ Lexicon.terminals (lexicon.cutParts waiting parts).1) : g.Spelled symbols x := by
  obtain ⟨rule, id, pattern, branches, hrule, hs, hpattern, hcompile, r, hr, text, n, hfind, htext⟩ :=
    h.exists_term_of_cutParts hlexicon hx
  intro id' rule' kind pattern' hid' hrule' hshape' hatom
  obtain rfl := h.numbers.lookup_inj hs hid'
  obtain rfl := Option.some.inj (hrule.symm.trans hrule')
  have hescape : pattern = Regex.escape rule.name := by
    rw [Lexicon.patternOf, hshape'] at hpattern
    cases kind with
    | atom => exact absurd rfl hatom
    | keyword => exact (Option.some.inj hpattern).symm
    | symbol => exact (Option.some.inj hpattern).symm
  rw [hescape] at hcompile
  rw [Lexicon.take_eq_of_escape hengine hcompile hr hfind] at htext
  exact String.toList_inj.1 htext.symm

end Grammar

end LanguageWorkbench
