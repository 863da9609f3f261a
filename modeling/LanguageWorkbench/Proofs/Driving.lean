import LanguageWorkbench.Parser
import LanguageWorkbench.Proofs.Cutting
import LanguageWorkbench.Proofs.Acceptance

/-!
# What a parser feeds

A parser that gets a text in parts feeds its automaton the pieces of the cut parts, and
ends the input after the last of them.

Results:
* `Parser.parseParts`: a text in parts, up to the first error.
* `Parser.parseParts_unread`: the pieces of the parts decide the outcome.
* `Parser.feedAll_of_parseParts`: the automaton takes the terminals of the pieces.
-/

namespace LanguageWorkbench

/-- The terminals among pieces. -/
def Lexicon.terminals (pieces : List Lexicon.Piece) : List Terminal :=
  pieces.filterMap fun piece => piece.symbol.map fun s => (s, String.ofList piece.text)

namespace Parser

/-- Adds the parts of a text one after the other, up to the first error. -/
def feedParts (p : Parser) : List String → Stepped Unit
  | [] => ⟨p, [], .ok ()⟩
  | part :: rest =>
    let fed := p.feed part
    match fed.result with
    | .error f => ⟨fed.parser, fed.moves, .error f⟩
    | .ok () => (feedParts fed.parser rest).after fed.moves

/-- Adds the parts of a text, ends the input and answers the tree. -/
def parseParts (p : Parser) (parts : List String) : Stepped Node :=
  let fed := p.feedParts parts
  match fed.result with
  | .error f => ⟨fed.parser, fed.moves, .error f⟩
  | .ok () => fed.parser.finish.after fed.moves

/-- The answer after `$end` was fed, where `moves` were made before. -/
def answer (p : Parser) (moves : List Move) (fed : Machine.Fed) : Stepped Node :=
  let p := { p with automaton := fed.automaton, store := fed.store }
  let moves := moves ++ fed.moves
  match fed.outcome with
  | .error f => ⟨p, moves, .error (.fault f)⟩
  | .ok true => ⟨p, moves, .ok (p.automaton.result?.getD .nothing)⟩
  | .ok false =>
    if p.automaton.values.isEmpty then ⟨p, moves, .ok .nothing⟩
    else ⟨p, moves, .error (.error (.unexpected p.location "$end" ""))⟩

/-- Ends the input after the waiting text went through the automaton. -/
def close (drained : Stepped Unit) : Stepped Node :=
  let p := drained.parser
  match drained.result with
  | .error f => ⟨p, drained.moves, .error f⟩
  | .ok () => p.answer drained.moves (p.machine.feed p.automaton p.store endSymbol "")

/-- A step without the characters that wait after it. -/
def Stepped.unread {α : Type} (s : Stepped α) : Stepped α :=
  { s with parser := { s.parser with pending := [] } }

variable {p : Parser} {remainder : Lexicon.Remainder} {pieces : List Lexicon.Piece}

theorem parse_eq (p : Parser) (file text : String) (realm : Nat) :
    p.parse file text realm = (p.resetTo file realm).parseParts [text] := by
  simp only [parse, parseParts, feedParts]
  cases hfed : ((p.resetTo file realm).feed text).result with
  | error f => rfl
  | ok u => simp [Stepped.after]

/-! ## Steps one after the other -/

@[simp] theorem Stepped.after_nil {α : Type} (s : Stepped α) : s.after [] = s := rfl

theorem Stepped.after_after {α : Type} (s : Stepped α) (moves moves' : List Move) :
    (s.after moves').after moves = s.after (moves ++ moves') := by
  simp [Stepped.after]

theorem Stepped.unread_after {α : Type} (s : Stepped α) (moves : List Move) :
    (s.after moves).unread = s.unread.after moves := rfl

theorem answer_after (p : Parser) (moves moves' : List Move) (fed : Machine.Fed) :
    p.answer (moves ++ moves') fed = (p.answer moves' fed).after moves := by
  obtain ⟨⟨states, values, accepted⟩, store, fedMoves, outcome⟩ := fed
  rcases outcome with f | _ | _
  · simp [answer, Stepped.after]
  · cases values <;> simp [answer, Stepped.after]
  · simp [answer, Stepped.after]

theorem unread_answer (p : Parser) (moves : List Move) (fed : Machine.Fed) :
    (p.answer moves fed).unread = (({ p with pending := [] } : Parser).answer moves fed).unread := by
  obtain ⟨⟨states, values, accepted⟩, store, fedMoves, outcome⟩ := fed
  rcases outcome with f | _ | _
  · rfl
  · cases values <;> rfl
  · rfl

theorem close_after (drained : Stepped Unit) (moves : List Move) :
    close (drained.after moves) = (close drained).after moves := by
  obtain ⟨p, moves', result⟩ := drained
  cases result with
  | error f => rfl
  | ok u => exact answer_after ..

theorem unread_close (drained : Stepped Unit) :
    (close drained).unread = (close drained.unread).unread := by
  obtain ⟨p, moves, result⟩ := drained
  cases result with
  | error f => rfl
  | ok u => exact unread_answer ..

/-! ## Feeding pieces -/

/-- A parser that goes on after a piece, as another parser, whatever waits and follows. -/
structure GoesOn (p : Parser) (piece : Lexicon.Piece) (q : Parser) (moves : List Move) : Prop where
  machine : q.machine = p.machine
  lexicon : q.lexicon = p.lexicon
  terminals : p.machine.feedAll p.automaton p.store (Lexicon.terminals [piece]) =
    some (q.automaton, q.store)
  feedPieces_eq : ∀ waiting remainder rest,
    ({ p with pending := waiting } : Parser).feedPieces remainder (piece :: rest) =
      (({ q with pending := waiting } : Parser).feedPieces remainder rest).after moves

/-- A parser that a piece stops, whatever waits and follows: only what waits afterwards
    depends on what follows. -/
structure Stops (p : Parser) (piece : Lexicon.Piece) (q : Parser) (moves : List Move)
    (f : Failure) (left : Lexicon.Remainder → List Lexicon.Piece → List Char) : Prop where
  machine : q.machine = p.machine
  lexicon : q.lexicon = p.lexicon
  feedPieces_eq : ∀ waiting remainder rest,
    ({ p with pending := waiting } : Parser).feedPieces remainder (piece :: rest) =
      ⟨{ q with pending := left remainder rest }, moves, .error f⟩

/-- A parser goes on after a piece or stops. -/
theorem goesOn_or_stops (p : Parser) (piece : Lexicon.Piece) :
    (∃ q moves, p.GoesOn piece q moves) ∨ ∃ q moves f left, p.Stops piece q moves f left := by
  cases hsymbol : piece.symbol with
  | none =>
    refine .inl ⟨{ p with location := p.location.advance piece.text }, [], rfl, rfl, ?_, ?_⟩
    · simp [Lexicon.terminals, hsymbol, Machine.feedAll]
    · intro waiting remainder rest
      simp only [feedPieces, hsymbol, Stepped.after_nil]
  | some symbol =>
    have hterminals : Lexicon.terminals [piece] = [(symbol, String.ofList piece.text)] := by
      simp [Lexicon.terminals, hsymbol]
    obtain ⟨fed, hfed⟩ :
        ∃ fed, p.machine.feed p.automaton p.store symbol (String.ofList piece.text) = fed := ⟨_, rfl⟩
    cases houtcome : fed.outcome with
    | error f =>
      refine .inr ⟨{ p with automaton := fed.automaton, store := fed.store, location := .start "" },
        fed.moves, .fault f, fun _ _ => [], rfl, rfl, ?_⟩
      intro waiting remainder rest
      simp only [feedPieces, hsymbol, hfed, houtcome]
      rfl
    | ok taken =>
      cases taken with
      | false =>
        refine .inr ⟨{ p with automaton := fed.automaton, store := fed.store,
                              location := p.location.advance piece.text },
          fed.moves, .error (.unexpected p.location (p.machine.grammar.nameOf symbol)
            (String.ofList piece.text)),
          fun remainder rest => rest.flatMap (·.text) ++ remainder.rest, rfl, rfl, ?_⟩
        intro waiting remainder rest
        simp only [feedPieces, hsymbol, hfed, houtcome]
      | true =>
        refine .inl ⟨{ p with automaton := fed.automaton, store := fed.store,
                              location := p.location.advance piece.text },
          fed.moves, rfl, rfl, ?_, ?_⟩
        · simp only [hterminals, Machine.feedAll, hfed, houtcome]
        · intro waiting remainder rest
          simp only [feedPieces, hsymbol, hfed, houtcome]

/-- What waited before does not matter. -/
theorem feedPieces_pending (p : Parser) (waiting : List Char) :
    ({ p with pending := waiting } : Parser).feedPieces remainder pieces =
      p.feedPieces remainder pieces := by
  induction pieces generalizing p with
  | nil => rfl
  | cons piece rest ih =>
    rcases goesOn_or_stops p piece with ⟨q, moves, h⟩ | ⟨q, moves, f, left, h⟩
    · rw [h.feedPieces_eq, h.feedPieces_eq p.pending]
      exact congrArg _ (ih { q with pending := p.pending })
    · rw [h.feedPieces_eq, h.feedPieces_eq p.pending]

theorem GoesOn.eq {piece : Lexicon.Piece} {q : Parser} {moves : List Move}
    (h : p.GoesOn piece q moves) :
    p.feedPieces remainder (piece :: pieces) = (q.feedPieces remainder pieces).after moves := by
  rw [← feedPieces_pending p [], h.feedPieces_eq, feedPieces_pending]

theorem Stops.eq {piece : Lexicon.Piece} {q : Parser} {moves : List Move} {f : Failure}
    {left : Lexicon.Remainder → List Lexicon.Piece → List Char}
    (h : p.Stops piece q moves f left) : p.feedPieces remainder (piece :: pieces) =
      ⟨{ q with pending := left remainder pieces }, moves, .error f⟩ := by
  rw [← feedPieces_pending p [], h.feedPieces_eq]

/-- A parser keeps its parts, and without an error what is left of the text waits. -/
theorem feedPieces_keeps (p : Parser) (remainder : Lexicon.Remainder)
    (pieces : List Lexicon.Piece) :
    (p.feedPieces remainder pieces).parser.machine = p.machine ∧
      (p.feedPieces remainder pieces).parser.lexicon = p.lexicon ∧
      ((p.feedPieces remainder pieces).result = .ok () →
        (p.feedPieces remainder pieces).parser.pending = remainder.rest) := by
  induction pieces generalizing p with
  | nil =>
    simp only [feedPieces]
    split <;> simp
  | cons piece rest ih =>
    rcases goesOn_or_stops p piece with ⟨q, moves, h⟩ | ⟨q, moves, f, left, h⟩
    · rw [h.eq, ← h.machine, ← h.lexicon]
      exact ih q
    · rw [h.eq]
      exact ⟨h.machine, h.lexicon, fun hok => nomatch hok⟩

/-- Pieces can be fed in two steps, if the first goes well. -/
theorem feedPieces_append {waiting : List Char} {more : List Lexicon.Piece} (p : Parser)
    (hok : (p.feedPieces (.held waiting) pieces).result = .ok ()) :
    p.feedPieces remainder (pieces ++ more) =
      ((p.feedPieces (.held waiting) pieces).parser.feedPieces remainder more).after
        (p.feedPieces (.held waiting) pieces).moves := by
  induction pieces generalizing p with
  | nil => exact (feedPieces_pending p waiting).symm
  | cons piece rest ih =>
    rcases goesOn_or_stops p piece with ⟨q, moves, h⟩ | ⟨q, moves, f, left, h⟩
    · rw [h.eq] at hok ⊢
      rw [List.cons_append, h.eq, ih q hok, Stepped.after_after]
      rfl
    · rw [h.eq] at hok
      cases hok

/-- An error in the first of two steps is the outcome of both. -/
theorem feedPieces_append_error {waiting : List Char} {more : List Lexicon.Piece} {f : Failure}
    (p : Parser) (herror : (p.feedPieces (.held waiting) pieces).result = .error f) :
    (p.feedPieces remainder (pieces ++ more)).unread =
      (p.feedPieces (.held waiting) pieces).unread := by
  induction pieces generalizing p with
  | nil => cases herror
  | cons piece rest ih =>
    rcases goesOn_or_stops p piece with ⟨q, moves, h⟩ | ⟨q, moves, f, left, h⟩
    · rw [h.eq] at herror ⊢
      rw [List.cons_append, h.eq, Stepped.unread_after, ih q herror]
      rfl
    · rw [List.cons_append, h.eq, h.eq]
      rfl

/-- A part adds to the waiting text, whose pieces are fed. -/
theorem feed_eq (p : Parser) (part : String) : p.feed part =
    p.feedPieces (.held (p.lexicon.pieces false (p.pending ++ part.toList)).2.rest)
      (p.lexicon.pieces false (p.pending ++ part.toList)).1 := by
  rw [← Lexicon.pieces_false_held]
  exact feedPieces_pending p _

/-! ## Texts in parts -/

theorem parseParts_cons_error {part : String} {rest : List String} {f : Failure}
    (h : (p.feed part).result = .error f) :
    p.parseParts (part :: rest) = ⟨(p.feed part).parser, (p.feed part).moves, .error f⟩ := by
  simp [parseParts, feedParts, h]

theorem parseParts_cons_ok {part : String} {rest : List String}
    (h : (p.feed part).result = .ok ()) :
    p.parseParts (part :: rest) =
      ((p.feed part).parser.parseParts rest).after (p.feed part).moves := by
  simp only [parseParts, feedParts, h, Stepped.after]
  cases ((p.feed part).parser.feedParts rest).result with
  | error f => rfl
  | ok u => simp

/-- All that a parser does with a text in parts is to feed the pieces of the parts and to
    end the input, up to what waits after an error. -/
theorem parseParts_unread (p : Parser) (parts : List String) : (p.parseParts parts).unread =
    (close (p.feedPieces (p.lexicon.cutParts p.pending (parts.map String.toList)).2
      (p.lexicon.cutParts p.pending (parts.map String.toList)).1)).unread := by
  induction parts generalizing p with
  | nil => rfl
  | cons part rest ih =>
    have hfeed := feed_eq p part
    rw [List.map_cons, Lexicon.cutParts]
    simp only
    cases hresult : (p.feed part).result with
    | error f =>
      have herror := hresult
      rw [hfeed] at herror
      rw [parseParts_cons_error hresult, unread_close, feedPieces_append_error p herror, ← hfeed,
        ← unread_close, close, hresult]
    | ok u =>
      have hok := hresult
      rw [hfeed] at hok
      have hkeeps := feedPieces_keeps p
        (.held (p.lexicon.pieces false (p.pending ++ part.toList)).2.rest)
        (p.lexicon.pieces false (p.pending ++ part.toList)).1
      rw [parseParts_cons_ok hresult, Stepped.unread_after, ih, feedPieces_append p hok, close_after,
        Stepped.unread_after, hfeed, hkeeps.2.1, hkeeps.2.2 hok]
      rfl

/-- The outcome of a text in parts is that of the whole, if the pieces are the same. -/
theorem parseParts_congr {parts parts' : List String}
    (h : p.lexicon.cutParts p.pending (parts.map String.toList) =
      p.lexicon.cutParts p.pending (parts'.map String.toList)) :
    (p.parseParts parts).unread = (p.parseParts parts').unread := by
  rw [parseParts_unread, parseParts_unread, h]

/-! ## Terminals -/

/-- Without an error the automaton takes the terminals of all pieces. -/
theorem feedAll_of_feedPieces (p : Parser) (remainder : Lexicon.Remainder)
    (pieces : List Lexicon.Piece) (hok : (p.feedPieces remainder pieces).result = .ok ()) :
    p.machine.feedAll p.automaton p.store (Lexicon.terminals pieces) =
      some ((p.feedPieces remainder pieces).parser.automaton,
        (p.feedPieces remainder pieces).parser.store) := by
  induction pieces generalizing p with
  | nil =>
    simp only [feedPieces]
    split <;> rfl
  | cons piece rest ih =>
    rcases goesOn_or_stops p piece with ⟨q, moves, h⟩ | ⟨q, moves, f, left, h⟩
    · rw [h.eq] at hok ⊢
      have hsplit : Lexicon.terminals (piece :: rest) =
          Lexicon.terminals [piece] ++ Lexicon.terminals rest := by
        rw [Lexicon.terminals, Lexicon.terminals, Lexicon.terminals, ← List.filterMap_append]
        rfl
      rw [hsplit, Machine.feedAll_append, h.terminals, ← h.machine]
      exact ih q hok
    · rw [h.eq] at hok
      cases hok

/-- A tree other than nothing is what the automaton leaves after the terminals and the end
    of the input. -/
theorem feedAll_of_close {t : Node} (h : (close (p.feedPieces remainder pieces)).result = .ok t)
    (hne : t ≠ .nothing) : ∃ a,
      p.machine.feedAll p.automaton p.store (Lexicon.terminals pieces ++ [(endSymbol, "")]) =
        some (a, (close (p.feedPieces remainder pieces)).parser.store) ∧ a.result? = some t := by
  have hmachine := (feedPieces_keeps p remainder pieces).1
  have hpieces := feedAll_of_feedPieces p remainder pieces
  generalize p.feedPieces remainder pieces = drained at h hmachine hpieces ⊢
  obtain ⟨q, moves, result⟩ := drained
  cases result with
  | error f => cases h
  | ok u =>
    rw [Machine.feedAll_append, hpieces rfl, Option.bind_some]
    simp only [close] at h hmachine ⊢
    rw [← hmachine, Machine.feedAll]
    generalize q.machine.feed q.automaton q.store endSymbol "" = fed at h ⊢
    obtain ⟨⟨states, values, accepted⟩, store, fedMoves, outcome⟩ := fed
    rcases outcome with f | _ | _
    · cases h
    · cases values with
      | nil => exact absurd (Except.ok.inj h).symm hne
      | cons _ _ => cases h
    · refine ⟨_, rfl, ?_⟩
      have ht := Except.ok.inj h
      cases hresult : (Automaton.mk states values accepted).result? with
      | none =>
        rw [hresult] at ht
        exact absurd ht.symm hne
      | some t' =>
        rw [hresult] at ht
        exact congrArg some ht

/-- A parser that answers a tree other than nothing for a text in parts has fed the
    terminals of the pieces and the end of the input. -/
theorem feedAll_of_parseParts {parts : List String} {t : Node}
    (h : (p.parseParts parts).result = .ok t) (hne : t ≠ .nothing) : ∃ a,
      p.machine.feedAll p.automaton p.store
          (Lexicon.terminals (p.lexicon.cutParts p.pending (parts.map String.toList)).1 ++
            [(endSymbol, "")]) = some (a, (p.parseParts parts).parser.store) ∧
        a.result? = some t := by
  have hunread := parseParts_unread p parts
  have hstore := congrArg (fun s : Stepped Node => s.parser.store) hunread
  have hresult := congrArg Stepped.result hunread
  simp only [Stepped.unread] at hstore hresult
  rw [hresult] at h
  rw [hstore]
  exact feedAll_of_close h hne

end Parser

end LanguageWorkbench
