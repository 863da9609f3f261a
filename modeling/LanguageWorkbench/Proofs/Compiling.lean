import LanguageWorkbench.Proofs.Links
import LanguageWorkbench.Proofs.OnePass
import LanguageWorkbench.Proofs.Rebuilding

/-!
# Compiling and parsing without faults

No text breaks a contract between the parts of a language. Where no rule reaches itself
through aliases and options the text is compiled or refused with an error, and whatever the
parsers of a compiled language are called with, they answer with results and errors only.

Results:
* `Parser.Use`, `Parser.used`: the calls on a parser, with any answers.
* `Parser.Steady`: what every call keeps, so that no call ends in a fault.
* `Language.flawless_of_loopless`: compiling a text and using its parsers.
-/

namespace LanguageWorkbench

/-! ## Compiling -/

theorem Table.flawless_build (g : Lowered) : Flawless (Table.build g).result := by
  have hstates : ∀ (cs : List CollectionState) (n : Nat), Flawless (Table.statesOf g n cs).result := by
    intro cs
    induction cs with
    | nil => exact fun _ => Flawless.ok []
    | cons c cs ih =>
      intro n
      unfold Table.statesOf
      split
      · exact Flawless.error _
      · exact Flawless.noted_bind (Flawless.ok ()) fun _ _ =>
          Flawless.noted_bind (ih (n + 1)) fun _ _ => Flawless.ok _
  exact Flawless.noted_bind (hstates _ 0) fun _ _ => Flawless.ok _

namespace Lexicon

theorem flawless_compile (engine : RegexEngine) (line : Nat) (pattern : String) :
    Flawless (compile engine line pattern) :=
  Flawless.mapError (fun _ _ => Failure.noConfusion) _

variable {engine : RegexEngine} {g : Grammar} {l : Lowered} {symbols : SymbolMap}

theorem flawless_termEntries (hnum : g.Numbers l symbols) {terms : List (Rule × RuleId)}
    (hterms : ∀ t ∈ terms, t ∈ g.terms) : Flawless (termEntries engine l terms) := by
  induction terms with
  | nil => exact Flawless.ok []
  | cons t terms ih =>
    obtain ⟨rule, id⟩ := t
    obtain ⟨ht, hterms⟩ := List.forall_mem_cons.1 hterms
    obtain ⟨hr, hterm⟩ := Grammar.mem_terms.1 ht
    obtain ⟨s, hs⟩ := hnum.exists_lookup hr (.inl hterm)
    have hsymbol : l.symbol? rule.name = some s := by
      have hname := hnum.symbol?_nameOf hs
      rwa [Grammar.nameOf, hr] at hname
    unfold termEntries
    split
    · exact ih hterms
    · simp only [hsymbol]
      exact (flawless_compile _ _ _).bind fun _ _ => (ih hterms).bind fun _ _ => Flawless.ok _

theorem flawless_ofGrammar (hnum : g.Numbers l symbols) :
    Flawless (ofGrammarWith engine g l).result := by
  have hterms : Flawless (termEntries engine l g.terms) := flawless_termEntries hnum fun _ ht => ht
  unfold ofGrammarWith
  dsimp only
  split
  · exact Flawless.noted_bind (Flawless.ok _) fun _ _ => Flawless.noted_bind hterms fun _ _ =>
      Flawless.noted_bind (Flawless.ok ()) fun _ _ => Flawless.ok _
  · exact Flawless.noted_bind (flawless_compile _ _ _) fun _ _ =>
      Flawless.noted_bind (Flawless.ok _) fun _ _ => Flawless.noted_bind hterms fun _ _ =>
        Flawless.noted_bind (Flawless.ok ()) fun _ _ => Flawless.ok _

end Lexicon

namespace Language

theorem flawless_tellWarnings (name : String) (warnings : List String) :
    Flawless (tellWarnings name warnings).result := by
  induction warnings with
  | nil => exact Flawless.ok ()
  | cons w rest ih => exact Flawless.noted_bind (Flawless.ok ()) fun _ _ => ih

variable {engine : RegexEngine}

theorem flawless_compile {text : String} (hloop : ∀ g, Grammar.load text = .ok g → g.Loopless) :
    Flawless (compileWith engine text).result := by
  refine Flawless.noted_bind (Grammar.flawless_load text) fun g hload => ?_
  refine Flawless.noted_bind (flawless_tellWarnings _ _) fun _ _ => ?_
  refine Flawless.noted_bind (Flawless.ok ()) fun _ _ => ?_
  refine Flawless.noted_bind (Grammar.flawless_ofGrammar hload (hloop g hload)) fun l hl => ?_
  refine Flawless.noted_bind (Flawless.ok ()) fun _ _ => ?_
  refine Flawless.noted_bind (Table.flawless_build l) fun _ _ => ?_
  obtain ⟨symbols, h⟩ := Grammar.lowersTo_of_ofGrammar hl
  refine Flawless.noted_bind (Flawless.ok ()) fun _ _ => ?_
  exact Flawless.noted_bind (Lexicon.flawless_ofGrammar h.numbers) fun _ _ => Flawless.ok _

end Language

/-! ## Calls -/

/-- Feeding an automaton that calls lead to answers yes or no. -/
def Machine.Answers (m : Machine) : Prop :=
  ∀ a, m.Reached a → ∀ store x text, ∃ taken, (m.feed a store x text).outcome = .ok taken

namespace Parser

/-- A call on a parser. -/
inductive Use where
  | feed (part : String)
  | finish
  | reset (realm : Nat)
  | resetTo (file : String) (realm : Nat)
  /-- A copy is used instead. -/
  | fork (realm : Nat)
  | parse (file text : String) (realm : Nat)

/-- The parser after a call, and whether the call failed. -/
def use (p : Parser) : Use → Parser × Except Failure Unit
  | .feed part => ((p.feed part).parser, (p.feed part).result)
  | .finish => (p.finish.parser, p.finish.result.map fun _ => ())
  | .reset realm => (p.reset realm, .ok ())
  | .resetTo file realm => (p.resetTo file realm, .ok ())
  | .fork realm => (p.fork realm, .ok ())
  | .parse file text realm => (p, (p.parse file text realm).result.map fun _ => ())

/-- The parser after calls, whether they failed or not. -/
def used (p : Parser) (uses : List Use) : Parser := uses.foldl (fun p u => (p.use u).1) p

/-- The parser runs a machine, and its automaton is one that calls on the machine lead to. -/
structure Steady (m : Machine) (p : Parser) : Prop where
  machine : p.machine = m
  reached : m.Reached p.automaton

variable {m : Machine} {p : Parser}

theorem Steady.feedPieces (hm : m.Answers) (remainder : Lexicon.Remainder)
    (pieces : List Lexicon.Piece) (h : p.Steady m) :
    (p.feedPieces remainder pieces).parser.Steady m ∧
      Flawless (p.feedPieces remainder pieces).result := by
  induction pieces generalizing p with
  | nil =>
    unfold Parser.feedPieces
    dsimp only
    split
    · exact ⟨⟨h.machine, h.reached⟩, Flawless.error _⟩
    · exact ⟨⟨h.machine, h.reached⟩, Flawless.ok ()⟩
  | cons piece pieces ih =>
    obtain ⟨rfl, hreached⟩ := h
    unfold Parser.feedPieces
    dsimp only
    split
    · exact ih ⟨rfl, hreached⟩
    · rename_i symbol hsymbol
      obtain ⟨taken, htaken⟩ := hm p.automaton hreached p.store symbol (String.ofList piece.text)
      have hnext := hreached.feed htaken
      rw [htaken]
      cases taken with
      | false => exact ⟨⟨rfl, hnext⟩, Flawless.error _⟩
      | true => exact ih ⟨rfl, hnext⟩

theorem Steady.feed (hm : m.Answers) (h : p.Steady m) (part : String) :
    (p.feed part).parser.Steady m ∧ Flawless (p.feed part).result :=
  Steady.feedPieces hm _ _ ⟨h.machine, h.reached⟩

theorem Steady.finish (hm : m.Answers) (h : p.Steady m) :
    p.finish.parser.Steady m ∧ Flawless p.finish.result := by
  obtain ⟨hdrained, hflawless⟩ := Steady.feedPieces hm (p.lexicon.pieces true p.pending).2
    (p.lexicon.pieces true p.pending).1 h
  unfold Parser.finish
  change (p.drain true).parser.Steady m at hdrained
  change Flawless (p.drain true).result at hflawless
  dsimp only
  split
  · rename_i f hf
    exact ⟨hdrained, fun fault he => hflawless fault (by cases he; exact hf)⟩
  · obtain ⟨rfl, hreached⟩ := hdrained
    obtain ⟨taken, htaken⟩ := hm _ hreached (p.drain true).parser.store endSymbol ""
    have hnext := hreached.feed htaken
    rw [htaken]
    cases taken with
    | true => exact ⟨⟨rfl, hnext⟩, Flawless.ok _⟩
    | false =>
      dsimp only
      split
      · exact ⟨⟨rfl, hnext⟩, Flawless.ok _⟩
      · exact ⟨⟨rfl, hnext⟩, Flawless.error _⟩

theorem Steady.resetTo (h : p.Steady m) (file : String) (realm : Nat) :
    (p.resetTo file realm).Steady m :=
  ⟨h.machine, Machine.reached_initial⟩

theorem Steady.parse (hm : m.Answers) (h : p.Steady m) (file text : String) (realm : Nat) :
    Flawless (p.parse file text realm).result := by
  obtain ⟨hfed, hflawless⟩ := (h.resetTo file realm).feed hm text
  unfold Parser.parse
  dsimp only
  split
  · rename_i f hf
    exact fun fault he => hflawless fault (by cases he; exact hf)
  · exact (hfed.finish hm).2

/-- Every call keeps a parser steady and ends in no fault. -/
theorem Steady.use (hm : m.Answers) (h : p.Steady m) (u : Use) :
    (p.use u).1.Steady m ∧ Flawless (p.use u).2 := by
  cases u with
  | feed part => exact h.feed hm part
  | finish => exact ⟨(h.finish hm).1, (h.finish hm).2.map⟩
  | reset realm => exact ⟨h.resetTo _ realm, Flawless.ok ()⟩
  | resetTo file realm => exact ⟨h.resetTo file realm, Flawless.ok ()⟩
  | fork realm => exact ⟨⟨h.machine, h.reached⟩, Flawless.ok ()⟩
  | parse file text realm => exact ⟨h, (h.parse hm file text realm).map⟩

theorem Steady.used (hm : m.Answers) (uses : List Use) (h : p.Steady m) : (p.used uses).Steady m := by
  induction uses generalizing p with
  | nil => exact h
  | cons u uses ih => exact ih (h.use hm u).1

end Parser

/-! ## The main result -/

namespace Language

/-- A text in which no rule reaches itself through aliases and options is compiled or refused
    with an error, whatever patterns the engine takes. All numbers in what it stands for are in
    range, and no calls on its parsers end in a fault. -/
theorem flawless_of_loopless (engine : RegexEngine) {text : String}
    (hloop : ∀ g, Grammar.load text = .ok g → g.Loopless) :
    Flawless (compileWith engine text).result ∧ (∀ g, Grammar.read text = .ok g → g.Closed) ∧
      ∀ l, (compileWith engine text).result = .ok l →
        l.lowered.WellFormed ∧ l.lowered.derivations.size = l.lowered.productions.size ∧
          l.table.Bounded l.lowered ∧
            ∀ uses u, Flawless ((l.parser.used uses).use u).2 := by
  refine ⟨flawless_compile hloop, fun g hg => Grammar.closed_of_read hg, fun l hl => ?_⟩
  obtain ⟨hload, hlowered, htable, hschema, lexicon, -, hparser⟩ := madeOf_of_compile hl
  obtain ⟨symbols, h⟩ := Grammar.lowersTo_of_ofGrammar hlowered
  have hwell := h.wellFormed
  have hserves := Machine.serves_of_ready hwell htable
    (h.ready (Grammar.sound_of_load hload) (Grammar.check_of_load hload))
  refine ⟨hwell, h.size_eq, Table.bounded_of_build hwell htable, fun uses u => ?_⟩
  have hanswers : l.parser.machine.Answers := by
    rw [hparser, hschema]
    exact fun a ha => Machine.exists_outcome hwell htable hserves ha
  have hsteady : l.parser.Steady l.parser.machine := by
    refine ⟨rfl, ?_⟩
    rw [hparser]
    exact Machine.reached_initial
  exact ((hsteady.used hanswers uses).use hanswers u).2

/-- Options in the grammar of steps lead to earlier rules. -/
theorem loopless_steps {g : Grammar} (h : Grammar.load steps = .ok g) : g.Loopless := by
  have hok : ((Grammar.load steps).toOption.all fun g => (List.range g.size).all fun id =>
      (g.children id).all fun child => decide
        (g.shape? id = some (.aliasOf child) ∨ g.shape? id = some (.option child) →
          child < id)) = true := by
    decide +kernel
  rw [h] at hok
  refine Grammar.loopless_of_rank id fun i child hlink => ?_
  have hchildren := List.all_eq_true.1 hok i (List.mem_range.2 (Grammar.Follows.lt (.inl hlink)))
  have hchild : child ∈ g.children i := by
    rcases hlink with hlink | hlink <;>
    · rw [Grammar.children, hlink]
      exact List.mem_singleton_self child
  exact of_decide_eq_true (List.all_eq_true.1 hchildren child hchild) hlink

theorem flawless_of_loopless_steps : ∃ l, (compile steps).result = .ok l ∧
    l.lowered.WellFormed ∧ l.table.Bounded l.lowered ∧
      ∀ uses u, Flawless ((l.parser.used uses).use u).2 := by
  have hok : ((compile steps).result.toOption.any fun _ => true) = true := by
    decide +kernel
  obtain ⟨l, hl, -⟩ := any_toOption_iff.1 hok
  obtain ⟨-, -, h⟩ := flawless_of_loopless Pattern.engine fun g hg => loopless_steps hg
  obtain ⟨hwell, -, hbounded, hused⟩ := h l hl
  exact ⟨l, hl, hwell, hbounded, hused⟩

end Language

end LanguageWorkbench
