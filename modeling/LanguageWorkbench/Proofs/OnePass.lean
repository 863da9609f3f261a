import LanguageWorkbench.Proofs.Rebuilding
import LanguageWorkbench.Proofs.Termination
import LanguageWorkbench.Proofs.Tokenizing

/-!
# Parsing in one pass

A parser reads a text in two steps, and in the first it holds back what may still grow.
That makes no difference: the outcome is that of all tokens fed one after the other to a
fresh automaton, up to the first that is refused, and then of the lexical error, if there
is one, or of the end of the input.

Results:
* `Parser.OnePass`: the outcome of a text, by its tokens.
* `Machine.exists_outcome`: feeding an automaton of a language answers yes or no.
* `Parser.OnePass.result_eq`, `Parser.exists_onePass`: parsing has the outcome of the
  tokens, and they have one.
* `Language.onePass_spec`: a compiled language parses a text to the outcome of its tokens.
* `Language.parse_iff_onePass`: parsing has this outcome and no other.
-/

namespace LanguageWorkbench

/-! ## Tokens -/

namespace Lexicon

/-- The terminal that is fed for a token. -/
def Token.terminal (t : Token) : Terminal := (t.symbol, t.text)

theorem map_terminal_tokensFrom (location : Location) (pieces : List Piece) :
    (tokensFrom location pieces).1.map Token.terminal = terminals pieces := by
  induction pieces generalizing location with
  | nil => rfl
  | cons piece rest ih =>
    have hrest := ih (location.advance piece.text)
    cases hsymbol : piece.symbol with
    | none => simpa [tokensFrom, hsymbol, terminals] using hrest
    | some symbol => simpa [tokensFrom, hsymbol, terminals, Token.terminal] using hrest

/-- Without an error the tokens reach to the end of the text. -/
theorem tokenize_of_error_none {l : Lexicon} {location : Location} {text : List Char}
    (h : (l.tokenize true location text).error = none) :
    (l.pieces true text).2 = .held [] ∧
      location.advance ((l.pieces true text).1.flatMap Piece.text) = location.advance text := by
  rcases pieces_true_rest l text with hrest | ⟨c, rest, hrest⟩
  · refine ⟨hrest, ?_⟩
    have hall := flatMap_pieces l true text
    rw [hrest, Remainder.rest, List.append_nil] at hall
    rw [hall]
  · simp [tokenize_eq, errorOf, hrest] at h

end Lexicon

namespace Parser

/-! ## The reference -/

/-- `OnePass m l file text realm r`: the tokens of the text are fed one after the other to
    a fresh automaton, and `r` is what comes of it. -/
inductive OnePass (m : Machine) (l : Lexicon) (file text : String) (realm : Nat) :
    Except Failure Node → Prop
  /-- The first token that the automaton refuses is the error. -/
  | refused {before after : List Lexicon.Token} {token : Lexicon.Token} {a : Automaton}
      {store : Store}
      (htokens : (l.tokenize true (.start file) text.toList).tokens = before ++ token :: after)
      (hbefore : m.feedAll .initial (.empty realm) (before.map Lexicon.Token.terminal) =
        some (a, store))
      (hrefused : (m.feed a store token.symbol token.text).outcome = .ok false) :
      OnePass m l file text realm
        (.error (.error (.unexpected token.location (m.grammar.nameOf token.symbol) token.text)))
  /-- All tokens are taken up to a character that starts none. -/
  | lexical {a : Automaton} {store : Store} {e : Error}
      (hall : m.feedAll .initial (.empty realm)
        ((l.tokenize true (.start file) text.toList).tokens.map Lexicon.Token.terminal) =
          some (a, store))
      (herror : (l.tokenize true (.start file) text.toList).error = some e) :
      OnePass m l file text realm (.error (.error e))
  /-- All tokens are taken, and then the end of the input is. -/
  | accepted {a : Automaton} {store : Store} {t : Node}
      (hall : m.feedAll .initial (.empty realm)
        ((l.tokenize true (.start file) text.toList).tokens.map Lexicon.Token.terminal) =
          some (a, store))
      (herror : (l.tokenize true (.start file) text.toList).error = none)
      (hend : (m.feed a store endSymbol "").outcome = .ok true)
      (hresult : (m.feed a store endSymbol "").automaton.result? = some t) :
      OnePass m l file text realm (.ok t)
  /-- There are no tokens, and the end of the input is refused. -/
  | nothing (htokens : (l.tokenize true (.start file) text.toList).tokens = [])
      (herror : (l.tokenize true (.start file) text.toList).error = none)
      (hend : (m.feed .initial (.empty realm) endSymbol "").outcome = .ok false) :
      OnePass m l file text realm (.ok .nothing)
  /-- All of at least one token are taken, and the end of the input is refused. -/
  | ended {a : Automaton} {store : Store}
      (htokens : (l.tokenize true (.start file) text.toList).tokens ≠ [])
      (hall : m.feedAll .initial (.empty realm)
        ((l.tokenize true (.start file) text.toList).tokens.map Lexicon.Token.terminal) =
          some (a, store))
      (herror : (l.tokenize true (.start file) text.toList).error = none)
      (hend : (m.feed a store endSymbol "").outcome = .ok false) :
      OnePass m l file text realm
        (.error (.error (.unexpected ((Location.start file).advance text.toList) "$end" "")))

/-! ## Feeding the pieces of a text -/

variable {p : Parser} {remainder : Lexicon.Remainder} {a : Automaton} {store : Store}

/-- Pieces whose terminals are all taken are read to their end. -/
theorem feedPieces_of_feedAll {pieces : List Lexicon.Piece} :
    ∀ p : Parser, p.machine.feedAll p.automaton p.store (Lexicon.terminals pieces) =
        some (a, store) →
      ∃ moves, p.feedPieces remainder pieces =
        (({ p with
            automaton := a, store := store,
            location := p.location.advance (pieces.flatMap Lexicon.Piece.text) } :
          Parser).feedPieces remainder []).after moves := by
  induction pieces with
  | nil =>
    intro p h
    obtain ⟨rfl, rfl⟩ := Prod.mk.inj (Option.some.inj h)
    exact ⟨[], rfl⟩
  | cons piece rest ih =>
    intro p h
    rw [List.flatMap_cons, Location.advance_append]
    cases hsymbol : piece.symbol with
    | none =>
      have hrest : Lexicon.terminals (piece :: rest) = Lexicon.terminals rest := by
        simp [Lexicon.terminals, hsymbol]
      rw [hrest] at h
      obtain ⟨moves, heq⟩ := ih { p with location := p.location.advance piece.text } h
      exact ⟨moves, by simp only [feedPieces, hsymbol, heq]⟩
    | some symbol =>
      have hrest : Lexicon.terminals (piece :: rest) =
          (symbol, String.ofList piece.text) :: Lexicon.terminals rest := by
        simp [Lexicon.terminals, hsymbol]
      rw [hrest] at h
      have hout := Machine.outcome_of_feedAll h
      rw [Machine.feedAll_cons hout] at h
      simp only at hout h
      -- one token is taken, and the rest is fed to the parser that it leaves
      obtain ⟨fed, hfed⟩ :
          ∃ fed, p.machine.feed p.automaton p.store symbol (String.ofList piece.text) = fed := ⟨_, rfl⟩
      rw [hfed] at hout h
      obtain ⟨moves, heq⟩ := ih { p with
        automaton := fed.automaton, store := fed.store,
        location := p.location.advance piece.text } h
      exact ⟨fed.moves ++ moves, by
        simp only [feedPieces, hsymbol, hfed, hout, heq, Stepped.after_after]⟩

/-- The first token that is refused is the error. -/
theorem result_feedPieces_of_refused {pieces : List Lexicon.Piece} :
    ∀ (p : Parser) {before after : List Lexicon.Token} {token : Lexicon.Token},
      (Lexicon.tokensFrom p.location pieces).1 = before ++ token :: after →
      p.machine.feedAll p.automaton p.store (before.map Lexicon.Token.terminal) = some (a, store) →
      (p.machine.feed a store token.symbol token.text).outcome = .ok false →
      (p.feedPieces remainder pieces).result = .error (.error
        (.unexpected token.location (p.machine.grammar.nameOf token.symbol) token.text)) := by
  induction pieces with
  | nil =>
    intro p before after token htokens
    cases before <;> cases htokens
  | cons piece rest ih =>
    intro p before after token htokens hbefore hrefused
    cases hsymbol : piece.symbol with
    | none =>
      simp only [Lexicon.tokensFrom, hsymbol] at htokens
      simp only [feedPieces, hsymbol]
      exact ih { p with location := p.location.advance piece.text } htokens hbefore hrefused
    | some symbol =>
      simp only [Lexicon.tokensFrom, hsymbol] at htokens
      cases before with
      | nil =>
        obtain ⟨rfl, -⟩ := List.cons.inj htokens
        obtain ⟨rfl, rfl⟩ := Prod.mk.inj (Option.some.inj hbefore)
        simp only [feedPieces, hsymbol, hrefused]
      | cons first before =>
        rw [List.cons_append] at htokens
        obtain ⟨rfl, hrest⟩ := List.cons.inj htokens
        rw [List.map_cons] at hbefore
        have hout := Machine.outcome_of_feedAll hbefore
        rw [Machine.feedAll_cons hout] at hbefore
        simp only [Lexicon.Token.terminal] at hout hbefore
        simp only [feedPieces, hsymbol, hout]
        exact ih { p with
          automaton := (p.machine.feed p.automaton p.store symbol (String.ofList piece.text)).automaton,
          store := (p.machine.feed p.automaton p.store symbol (String.ofList piece.text)).store,
          location := p.location.advance piece.text } hrest hbefore hrefused

/-- Parsing feeds the pieces of the whole text and ends the input. -/
theorem result_parse (p : Parser) (file text : String) (realm : Nat) :
    (p.parse file text realm).result =
      (close ((p.resetTo file realm).feedPieces (p.lexicon.pieces true text.toList).2
        (p.lexicon.pieces true text.toList).1)).result := by
  have hwhole := p.lexicon.agrees_singleton text.toList
  rw [Lexicon.Agrees, List.flatten_singleton] at hwhole
  have h := congrArg Stepped.result (parseParts_unread (p.resetTo file realm) [text])
  rw [parse_eq, ← hwhole]
  exact h

theorem close_of_error {drained : Stepped Unit} {f : Failure} (h : drained.result = .error f) :
    (close drained).result = .error f := by
  simp only [close, h]

/-- Parsing has the outcome of the tokens, whatever state the parser is in, if there is a
    value wherever a token was taken. -/
theorem OnePass.result_eq {file text : String} {realm : Nat} {r : Except Failure Node}
    (hvalues : ∀ {a : Automaton} {store : Store},
      (p.lexicon.tokenize true (.start file) text.toList).tokens ≠ [] →
      p.machine.feedAll .initial (.empty realm)
        ((p.lexicon.tokenize true (.start file) text.toList).tokens.map Lexicon.Token.terminal) =
          some (a, store) → a.values ≠ [])
    (h : OnePass p.machine p.lexicon file text realm r) :
    (p.parse file text realm).result = r := by
  rw [result_parse]
  -- all tokens are taken, and the pieces are read to their end
  have hread : ∀ {a : Automaton} {store : Store},
      p.machine.feedAll .initial (.empty realm)
        ((p.lexicon.tokenize true (.start file) text.toList).tokens.map Lexicon.Token.terminal) =
          some (a, store) →
      ∃ moves, (p.resetTo file realm).feedPieces (p.lexicon.pieces true text.toList).2
          (p.lexicon.pieces true text.toList).1 =
        (({ p with
            automaton := a, store := store, pending := [],
            location := (Location.start file).advance
              ((p.lexicon.pieces true text.toList).1.flatMap Lexicon.Piece.text) } :
          Parser).feedPieces (p.lexicon.pieces true text.toList).2 []).after moves := by
    intro a store hall
    rw [Lexicon.tokenize_eq, Lexicon.map_terminal_tokensFrom] at hall
    exact feedPieces_of_feedAll (p.resetTo file realm) hall
  cases h with
  | refused htokens hbefore hrefused =>
    rw [Lexicon.tokenize_eq] at htokens
    exact close_of_error (result_feedPieces_of_refused (p.resetTo file realm) htokens hbefore
      hrefused)
  | lexical hall herror =>
    obtain ⟨moves, hread⟩ := hread hall
    rw [hread]
    rcases Lexicon.pieces_true_rest p.lexicon text.toList with hrest | ⟨c, rest, hrest⟩
    · simp [Lexicon.tokenize_eq, Lexicon.errorOf, hrest] at herror
    · simp only [Lexicon.tokenize_eq, Lexicon.errorOf, hrest, Lexicon.tokensFrom_snd,
        Option.some.injEq] at herror
      rw [← herror]
      refine close_of_error ?_
      simp only [feedPieces, hrest, Stepped.after]
  | accepted hall herror hend hresult =>
    obtain ⟨moves, hread⟩ := hread hall
    obtain ⟨hrest, -⟩ := Lexicon.tokenize_of_error_none herror
    rw [hread, hrest, close_after]
    simp only [feedPieces, Lexicon.Remainder.rest, close, answer, Stepped.after, hend, hresult,
      Option.getD_some]
  | nothing htokens herror hend =>
    obtain ⟨moves, hread⟩ := hread (by rw [htokens]; rfl)
    obtain ⟨hrest, -⟩ := Lexicon.tokenize_of_error_none herror
    rw [hread, hrest, close_after]
    simp only [feedPieces, Lexicon.Remainder.rest, close, answer, Stepped.after,
      Machine.feed_of_outcome_false hend]
    rfl
  | @ended a store htokens hall herror hend =>
    obtain ⟨moves, hread⟩ := hread hall
    obtain ⟨hrest, hlocation⟩ := Lexicon.tokenize_of_error_none herror
    have hempty : a.values.isEmpty = false := by
      simpa using hvalues htokens hall
    rw [hread, hrest, close_after, hlocation]
    simp only [feedPieces, Lexicon.Remainder.rest, close, answer, Stepped.after,
      Machine.feed_of_outcome_false hend, hempty]
    rfl

end Parser

/-! ## Automata of a language -/

namespace Machine

variable {m : Machine}

/-- Terminals are all taken, or there is a first that is refused. -/
theorem feedAll_or_refused
    (houtcome : ∀ a, m.Reached a → ∀ store x text, ∃ taken,
      (m.feed a store x text).outcome = .ok taken) {w : List Terminal} :
    ∀ {a : Automaton} {store : Store}, m.Reached a →
      (∃ a' store', m.feedAll a store w = some (a', store')) ∨
        ∃ before x after a' store', w = before ++ x :: after ∧
          m.feedAll a store before = some (a', store') ∧
          (m.feed a' store' x.1 x.2).outcome = .ok false := by
  induction w with
  | nil => exact fun _ => .inl ⟨_, _, rfl⟩
  | cons x w ih =>
    intro a store ha
    obtain ⟨taken, htaken⟩ := houtcome a ha store x.1 x.2
    cases taken with
    | false => exact .inr ⟨[], x, w, a, store, rfl, rfl, htaken⟩
    | true =>
      rw [feedAll_cons htaken]
      rcases ih (ha.feed htaken) with h | ⟨before, y, after, a', store', rfl, hbefore, hrefused⟩
      · exact .inl h
      · refine .inr ⟨x :: before, y, after, a', store', rfl, ?_, hrefused⟩
        rw [feedAll_cons htaken, hbefore]

section

variable {g : Lowered} {t : Table} {b : TreeBuilder} {a : Automaton} {store : Store}

/-- Feeding an automaton of a language answers yes or no. -/
theorem exists_outcome (hg : g.WellFormed) (ht : (Table.build g).result = .ok t)
    (hserves : Serves ⟨g, t, b⟩) (ha : Reached ⟨g, t, b⟩ a) (store : Store) (x : Symbol)
    (text : String) : ∃ taken, (feed ⟨g, t, b⟩ a store x text).outcome = .ok taken := by
  have hm : t.Bounded g := Table.bounded_of_build hg ht
  have hbalanced := ha.balanced hm
  have hsettles : Settles ⟨g, t, b⟩ x a.states :=
    (Table.path_of_reached hg ht ha).settles hg ht x
  obtain ⟨taken, hcheck⟩ := exists_check_of_settles hm hbalanced hsettles
  cases haccepted : a.accepted with
  | true => exact ⟨false, by simp [feed, haccepted]⟩
  | false =>
    cases taken with
    | false => exact ⟨false, by rw [feed_of_check_false store text hcheck]⟩
    | true =>
      refine ⟨true, ?_⟩
      simp only [feed, haccepted, hcheck]
      exact run_of_checkStack hserves (check_eq hbalanced.ne_nil ▸ hcheck) hbalanced.length

/-- After a terminal other than `$end` there is a value. -/
theorem values_ne_nil_of_feed (ht : (Table.build g).result = .ok t) {x : Symbol} {text : String}
    (hx : x ≠ endSymbol) (h : (feed ⟨g, t, b⟩ a store x text).outcome = .ok true) :
    (feed ⟨g, t, b⟩ a store x text).automaton.values ≠ [] := by
  obtain ⟨-, fuel, hrun⟩ := run_of_feed h
  rw [hrun] at h ⊢
  obtain ⟨-, c, last, -, -, hends⟩ := reductions_of_run h
  generalize (run ⟨g, t, b⟩ x text fuel a store).automaton = a' at hends ⊢
  cases hends with
  | shift => exact List.cons_ne_nil _ _
  | accept _ haction => exact absurd ((Table.action_accept_iff ht).1 haction).1 hx

theorem values_ne_nil_of_feedAll (ht : (Table.build g).result = .ok t) {w : List Terminal}
    (hw : ∀ x ∈ w, x.1 ≠ endSymbol) (hne : w ≠ []) {a' : Automaton} {store' : Store}
    (h : feedAll ⟨g, t, b⟩ a store w = some (a', store')) : a'.values ≠ [] := by
  rw [← List.dropLast_append_getLast hne, feedAll_append, Option.bind_eq_some_iff] at h
  obtain ⟨⟨a₁, store₁⟩, -, hlast⟩ := h
  have hout := outcome_of_feedAll hlast
  rw [feedAll_cons hout] at hlast
  cases hlast
  exact values_ne_nil_of_feed ht (hw _ (List.getLast_mem hne)) hout

/-- An automaton that takes the end of the input has its result. -/
theorem accepted_of_feed (hg : g.WellFormed) (ht : (Table.build g).result = .ok t) {text : String}
    (h : (feed ⟨g, t, b⟩ a store endSymbol text).outcome = .ok true) :
    (feed ⟨g, t, b⟩ a store endSymbol text).automaton.accepted = true := by
  obtain ⟨-, fuel, hrun⟩ := run_of_feed h
  rw [hrun] at h ⊢
  obtain ⟨-, c, last, -, -, hends⟩ := reductions_of_run h
  generalize (run ⟨g, t, b⟩ endSymbol text fuel a store).automaton = a' at hends ⊢
  cases hends with
  | accept => rfl
  | shift _ haction =>
    exact absurd rfl (Collection.ne_of_target? hg ((Table.action_shift_iff hg ht).1 haction).2)

/-- An automaton that takes terminals and the end of the input has a tree. -/
theorem exists_result_of_end (hg : g.WellFormed) (ht : (Table.build g).result = .ok t)
    {w : List Terminal} (hw : ∀ x ∈ w, x.1 ≠ endSymbol) {store₀ : Store}
    (hall : feedAll ⟨g, t, b⟩ .initial store₀ w = some (a, store)) {text : String}
    (hend : (feed ⟨g, t, b⟩ a store endSymbol text).outcome = .ok true) :
    ∃ value, (feed ⟨g, t, b⟩ a store endSymbol text).automaton.result? = some value := by
  have hwhole : feedAll ⟨g, t, b⟩ .initial store₀ (w ++ [(endSymbol, text)]) =
      some ((feed ⟨g, t, b⟩ a store endSymbol text).automaton,
        (feed ⟨g, t, b⟩ a store endSymbol text).store) := by
    rw [feedAll_append, hall, Option.bind_some, feedAll_cons hend]
    rfl
  obtain ⟨-, -, value, -, -, -, hvalues⟩ := grows_of_feedAll hg ht hw hwhole
  exact ⟨value, by simp [Automaton.result?, accepted_of_feed hg ht hend, hvalues]⟩

end

end Machine

namespace Parser

variable {g : Lowered} {t : Table} {b : TreeBuilder}

/-- The tokens of a text that are no `$end` have an outcome over a built table. -/
theorem exists_onePass (hg : g.WellFormed) (ht : (Table.build g).result = .ok t)
    (hserves : Machine.Serves ⟨g, t, b⟩) (l : Lexicon) (file text : String) (realm : Nat)
    (htokens : ∀ x ∈ (l.tokenize true (.start file) text.toList).tokens.map
      Lexicon.Token.terminal, x.1 ≠ endSymbol) :
    ∃ r, OnePass ⟨g, t, b⟩ l file text realm r := by
  have houtcome := fun a (ha : Machine.Reached ⟨g, t, b⟩ a) => Machine.exists_outcome hg ht hserves ha
  rcases Machine.feedAll_or_refused houtcome Machine.reached_initial with
    ⟨a, store, hall⟩ | ⟨before, x, after, a, store, heq, hbefore, hrefused⟩
  · cases herror : (l.tokenize true (.start file) text.toList).error with
    | some e => exact ⟨_, .lexical hall herror⟩
    | none =>
      obtain ⟨taken, hend⟩ := houtcome a (Machine.reached_initial.feedAll hall) store endSymbol ""
      cases taken with
      | true =>
        obtain ⟨value, hvalue⟩ := Machine.exists_result_of_end hg ht htokens hall hend
        exact ⟨_, .accepted hall herror hend hvalue⟩
      | false =>
        by_cases hnone : (l.tokenize true (.start file) text.toList).tokens = []
        · rw [hnone] at hall
          obtain ⟨rfl, rfl⟩ := Prod.mk.inj (Option.some.inj hall)
          exact ⟨_, .nothing hnone herror hend⟩
        · exact ⟨_, .ended hnone hall herror hend⟩
  · obtain ⟨before, rest, htokens, rfl, hrest⟩ := List.map_eq_append_iff.1 heq
    obtain ⟨token, after, rfl, rfl, -⟩ := List.map_eq_cons_iff.1 hrest
    exact ⟨_, .refused htokens hbefore hrefused⟩

end Parser

/-! ## The main result -/

/-- The tokens of a text are no `$end`. -/
theorem Grammar.LowersTo.ne_end_of_token {engine : RegexEngine} {g : Grammar}
    {symbols : SymbolMap} {l : Lowered} {lexicon : Lexicon} (h : g.LowersTo symbols l)
    (hlexicon : (Lexicon.ofGrammarWith engine g l).result = .ok lexicon) (location : Location)
    (text : List Char) :
    ∀ x ∈ (lexicon.tokenize true location text).tokens.map Lexicon.Token.terminal,
      x.1 ≠ endSymbol := by
  have hwhole := lexicon.agrees_singleton text
  rw [Lexicon.Agrees, List.flatten_singleton] at hwhole
  rw [Lexicon.tokenize_eq, Lexicon.map_terminal_tokensFrom, ← hwhole]
  exact fun x hx => h.ne_end_of_cutParts hlexicon hx

namespace Language

variable {engine : RegexEngine} {source : String} {l : Language}

/-- A text has an outcome by its tokens, and a parser of a language, in whatever state it
    is, answers it. -/
theorem onePass_spec (hl : (compileWith engine source).result = .ok l) {p : Parser}
    (hmachine : p.machine = l.parser.machine) (hlexicon : p.lexicon = l.parser.lexicon)
    (file text : String) (realm : Nat) :
    (∃ r, Parser.OnePass p.machine p.lexicon file text realm r) ∧
      ∀ r, Parser.OnePass p.machine p.lexicon file text realm r →
        (p.parse file text realm).result = r := by
  obtain ⟨hload, hlowered, htable, hschema, lexicon, hlexicon', hparser⟩ := madeOf_of_compile hl
  obtain ⟨symbols, h⟩ := Grammar.lowersTo_of_ofGrammar hlowered
  have hwell := h.wellFormed
  have hserves := Machine.serves_of_ready hwell htable
    (h.ready (Grammar.sound_of_load hload) (Grammar.check_of_load hload))
  have htokens := h.ne_end_of_token hlexicon' (.start file) text.toList
  rw [hparser, hschema] at hmachine
  rw [hparser] at hlexicon
  simp only [Parser.new] at hmachine hlexicon
  rw [hmachine, hlexicon]
  refine ⟨Parser.exists_onePass hwell htable hserves lexicon file text realm htokens, fun r hr => ?_⟩
  rw [← hmachine, ← hlexicon] at hr
  refine hr.result_eq fun hne hall => ?_
  rw [hlexicon] at hne hall
  rw [hmachine] at hall
  exact Machine.values_ne_nil_of_feedAll htable htokens (by simpa using hne) hall

/-- A parser of a language, in whatever state it is, parses a text to the outcome of its
    tokens. So there is exactly one, and nothing that was held back changes it. -/
theorem parse_iff_onePass (hl : (compileWith engine source).result = .ok l) {p : Parser}
    (hmachine : p.machine = l.parser.machine) (hlexicon : p.lexicon = l.parser.lexicon)
    (file text : String) (realm : Nat) (r : Except Failure Node) :
    (p.parse file text realm).result = r ↔
      Parser.OnePass p.machine p.lexicon file text realm r := by
  obtain ⟨⟨r', hr'⟩, hresult⟩ := onePass_spec hl hmachine hlexicon file text realm
  refine ⟨?_, hresult r⟩
  rintro rfl
  rwa [hresult r' hr']

/-- After `x; y` of the grammar of steps, whose last step has no end, a parser that holds
    back the `y` has read it in the end. -/
theorem parse_iff_onePass_steps : ∃ l, (compile steps).result = .ok l ∧
    ((l.parser.feed "x;").parser.parse "in" "x;y" 1).result =
      .error (.error (.unexpected ⟨"in", 1, 4⟩ "$end" "")) ∧
    Parser.OnePass l.parser.machine l.parser.lexicon "in" "x;y" 1
      (.error (.error (.unexpected ⟨"in", 1, 4⟩ "$end" ""))) := by
  have hok : ((compile steps).result.toOption.map fun l =>
      match ((l.parser.feed "x;").parser.parse "in" "x;y" 1).result with
      | .ok _ => none
      | .error f => some f) =
      some (some (.error (.unexpected ⟨"in", 1, 4⟩ "$end" ""))) := by
    decide +kernel
  cases hl : (compile steps).result with
  | error f =>
    rw [hl] at hok
    cases hok
  | ok l =>
    rw [hl] at hok
    have hparse : ((l.parser.feed "x;").parser.parse "in" "x;y" 1).result =
        .error (.error (.unexpected ⟨"in", 1, 4⟩ "$end" "")) := by
      have hfailure := Option.some.inj hok
      simp only at hfailure
      split at hfailure
      · cases hfailure
      · rename_i f hf
        rw [hf, Option.some.inj hfailure]
    have hkeeps := Parser.feedPieces_keeps l.parser
      (.held (l.parser.lexicon.pieces false (l.parser.pending ++ "x;".toList)).2.rest)
      (l.parser.lexicon.pieces false (l.parser.pending ++ "x;".toList)).1
    rw [← Parser.feed_eq] at hkeeps
    have honce := (parse_iff_onePass hl hkeeps.1 hkeeps.2.1 "in" "x;y" 1 _).1 hparse
    rw [hkeeps.1, hkeeps.2.1] at honce
    exact ⟨l, rfl, hparse, honce⟩

end Language

end LanguageWorkbench
