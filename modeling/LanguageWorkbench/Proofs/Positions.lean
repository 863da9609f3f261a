import LanguageWorkbench.Proofs.Driving
import LanguageWorkbench.Proofs.Rebuilding

/-!
# What a parser reads, and where

A parser gets its input in parts, and a call may stop in the middle: at a match that may
still grow, at a character that starts no token, or at a token that the automaton refuses.
Wherever it stops, what was read and what waits are all that was fed, in this order, and
every place it reports or keeps is that of a character of the whole text.

Results:
* `Parser.Reading`, `Parser.readings`: what a step reads.
* `Parser.Session`: calls since a reset, with all that they read and report.
* `Parser.accounts_step`, `Parser.accounts_of_calls`: one call and any number of calls read
  every character once, at its place.
-/

namespace LanguageWorkbench

/-! ## Places by counting -/

/-- The place of the character that follows a text from the start of a file: a line for each
    line feed, and a column for each character after the last of them, both from 1. -/
def Location.past (file : String) (text : List Char) : Location :=
  ⟨file, text.count '\n' + 1, (text.reverse.takeWhile (· ≠ '\n')).length + 1⟩

theorem Location.past_append_singleton (file : String) (text : List Char) (c : Char) :
    past file (text ++ [c]) = (past file text).step c := by
  by_cases hc : c = '\n'
  · subst hc
    simp [past, step]
  · simp [past, step, hc, List.count_eq_zero_of_not_mem]

theorem Location.advance_start (file : String) (text : List Char) :
    (start file).advance text = past file text := by
  induction text using List.reverseRecOn with
  | nil => rfl
  | append_singleton text c ih =>
    rw [advance_append, ih, past_append_singleton]
    rfl

namespace Parser

/-! ## Matches -/

/-- A match that a parser reads. -/
structure Reading where
  /-- Nothing for what is skipped. -/
  symbol : Option Symbol
  text : List Char
  /-- The place that the parser was at. -/
  location : Location
  /-- Whether the automaton took it. What is skipped is not refused. -/
  taken : Bool
deriving DecidableEq, Repr

/-- What is read of pieces: they are read up to the first token that the automaton refuses,
    with this token. -/
def readings (p : Parser) : List Lexicon.Piece → List Reading
  | [] => []
  | piece :: rest =>
    let next := p.location.advance piece.text
    match piece.symbol with
    | none => ⟨none, piece.text, p.location, true⟩ :: readings { p with location := next } rest
    | some symbol =>
      let fed := p.machine.feed p.automaton p.store symbol (String.ofList piece.text)
      match fed.outcome with
      | .error _ => []
      | .ok false => [⟨some symbol, piece.text, p.location, false⟩]
      | .ok true =>
        ⟨some symbol, piece.text, p.location, true⟩ ::
          readings { p with automaton := fed.automaton, store := fed.store, location := next } rest

/-- What is read of the waiting text. -/
def drainReadings (p : Parser) (atEnd : Bool) : List Reading :=
  p.readings (p.lexicon.pieces atEnd p.pending).1

/-- What is read at the end of the input: the waiting text and, unless that fails, `$end`. -/
def finishReadings (p : Parser) : List Reading :=
  let drained := p.drain true
  let q := drained.parser
  p.drainReadings true ++
    match drained.result, (q.machine.feed q.automaton q.store endSymbol "").outcome with
    | .ok (), .ok taken => [⟨some endSymbol, [], q.location, taken⟩]
    | _, _ => []

/-- The characters of matches. -/
def consumed (ms : List Reading) : List Char := ms.flatMap Reading.text

/-- The error that a step answers, if it does. -/
def Stepped.errors {α : Type} (s : Stepped α) : List Error :=
  match s.result with
  | .error (.error e) => [e]
  | _ => []

/-! ## Sessions -/

/-- A call that goes on with an input. -/
inductive Call where
  | feed (part : String)
  | finish
  /-- A copy goes on instead. -/
  | fork (realm : Nat)

/-- The text that a call adds. -/
def Call.text : Call → List Char
  | .feed part => part.toList
  | .finish | .fork _ => []

/-- A parser with what happened since it was reset. -/
structure Session where
  parser : Parser
  readings : List Reading
  /-- The errors that calls answered. -/
  errors : List Error

namespace Session

/-- Nothing happened. -/
def start (p : Parser) : Session := ⟨p, [], []⟩

/-- What a step adds, unless it is broken off. -/
def add {α : Type} (s : Session) (read : List Reading) (stepped : Stepped α) : Option Session :=
  match stepped.result with
  | .error (.fault _) => none
  | _ => some ⟨stepped.parser, s.readings ++ read, s.errors ++ stepped.errors⟩

/-- The session after a call, unless the call is broken off. -/
def call (s : Session) : Call → Option Session
  | .feed part =>
    let waiting := { s.parser with pending := s.parser.pending ++ part.toList }
    s.add (waiting.drainReadings false) (s.parser.feed part)
  | .finish => s.add s.parser.finishReadings s.parser.finish
  | .fork realm => some { s with parser := s.parser.fork realm }

end Session

/-! ## What a session comes to -/

/-- The automaton is handed the tokens of matches one after the other, refused ones too. In
    between it may be copied. -/
inductive Hands (m : Machine) :
    Automaton → Store → List Reading → Automaton → Store → Prop
  | done {a : Automaton} {store : Store} : Hands m a store [] a store
  | fork {a a' : Automaton} {store store' : Store} {realm : Nat} {rest : List Reading}
      (h : Hands m a (store.fork realm) rest a' store') : Hands m a store rest a' store'
  | skip {a a' : Automaton} {store store' : Store} {x : Reading} {rest : List Reading}
      (hskip : x.symbol = none) (h : Hands m a store rest a' store') :
      Hands m a store (x :: rest) a' store'
  | token {a a' : Automaton} {store store' : Store} {x : Reading} {symbol : Symbol}
      {rest : List Reading} (htoken : x.symbol = some symbol)
      (htaken : (m.feed a store symbol (String.ofList x.text)).outcome = .ok x.taken)
      (h : Hands m (m.feed a store symbol (String.ofList x.text)).automaton
        (m.feed a store symbol (String.ofList x.text)).store rest a' store') :
      Hands m a store (x :: rest) a' store'

/-- An error that names a place of the text that was fed, with what stands there. -/
inductive Placed (m : Machine) (file : String) (fed : List Char) (ms : List Reading) : Error → Prop
  | lexical {before after : List Char} {c : Char} (hfed : fed = before ++ c :: after) :
      Placed m file fed ms (.lexical (.past file before) c)
  | refused {before after : List Reading} {x : Reading} {symbol : Symbol}
      (hms : ms = before ++ x :: after) (htoken : x.symbol = some symbol)
      (hrefused : x.taken = false) :
      Placed m file fed ms (.unexpected (.past file (consumed before))
        (m.grammar.nameOf symbol) (String.ofList x.text))
  | ended {before after : List Reading} {x : Reading} (hms : ms = before ++ x :: after)
      (hend : x.symbol = some endSymbol) (htext : x.text = []) (hrefused : x.taken = false) :
      Placed m file fed ms (.unexpected (.past file (consumed before)) "$end" "")

/-- Every match is at the place of its first character, from a place on. -/
def Located : Location → List Reading → Prop
  | _, [] => True
  | l, x :: rest => x.location = l ∧ Located (l.advance x.text) rest

/-- A session over a text that began in a file, with an empty automaton and an empty store
    of a realm. -/
structure Accounts (p : Parser) (file : String) (realm : Nat) (fed : List Char) (s : Session) :
    Prop where
  machine : s.parser.machine = p.machine
  lexicon : s.parser.lexicon = p.lexicon
  fed_eq : fed = consumed s.readings ++ s.parser.pending
  hands : Hands p.machine .initial (.empty realm) s.readings s.parser.automaton s.parser.store
  located : Located (.start file) s.readings
  location : s.parser.location = (Location.start file).advance (consumed s.readings)
  longest : ∀ x ∈ s.readings, x.text ≠ [] →
    ∃ rest, p.lexicon.longest (x.text ++ rest) = some (x.symbol, x.text.length)
  placed : ∀ e ∈ s.errors, Placed p.machine file fed s.readings e

/-! ## One step -/

@[simp] theorem consumed_nil : consumed [] = [] := rfl

@[simp] theorem consumed_cons (x : Reading) (ms : List Reading) :
    consumed (x :: ms) = x.text ++ consumed ms := rfl

@[simp] theorem consumed_append (ms ms' : List Reading) :
    consumed (ms ++ ms') = consumed ms ++ consumed ms' := List.flatMap_append

theorem Hands.trans {m : Machine} {a a' a'' : Automaton} {store store' store'' : Store}
    {ms ms' : List Reading} (h : Hands m a store ms a' store')
    (h' : Hands m a' store' ms' a'' store'') : Hands m a store (ms ++ ms') a'' store'' := by
  induction h with
  | done => exact h'
  | fork _ ih => exact .fork (ih h')
  | skip hskip _ ih => exact .skip hskip (ih h')
  | token htoken htaken _ ih => exact .token htoken htaken (ih h')

theorem Located.append {l : Location} {ms ms' : List Reading} (h : Located l ms)
    (h' : Located (l.advance (consumed ms)) ms') : Located l (ms ++ ms') := by
  induction ms generalizing l with
  | nil => exact h'
  | cons x ms ih =>
    rw [consumed_cons, Location.advance_append] at h'
    exact ⟨h.1, ih h.2 h'⟩

theorem Located.location_eq {l : Location} {before after : List Reading} {x : Reading}
    (h : Located l (before ++ x :: after)) : x.location = l.advance (consumed before) := by
  induction before generalizing l with
  | nil => exact h.1
  | cons y before ih =>
    rw [consumed_cons, Location.advance_append]
    exact ih h.2

/-- More text and more matches change nothing about a place. -/
theorem Placed.mono {m : Machine} {file : String} {fed more : List Char} {ms ms' : List Reading}
    {e : Error} (h : Placed m file fed ms e) : Placed m file (fed ++ more) (ms ++ ms') e := by
  cases h with
  | lexical hfed => exact .lexical (by rw [hfed, List.append_assoc]; rfl)
  | refused hms htoken hrefused =>
    exact .refused (by rw [hms, List.append_assoc]; rfl) htoken hrefused
  | ended hms hend htext hrefused =>
    exact .ended (by rw [hms, List.append_assoc]; rfl) hend htext hrefused

/-- What a step that is not broken off does with pieces. -/
structure Reads (p : Parser) (remainder : Lexicon.Remainder) (pieces : List Lexicon.Piece)
    (ms : List Reading) (s : Stepped Unit) : Prop where
  machine : s.parser.machine = p.machine
  lexicon : s.parser.lexicon = p.lexicon
  text : pieces.flatMap Lexicon.Piece.text ++ remainder.rest = consumed ms ++ s.parser.pending
  hands : Hands p.machine p.automaton p.store ms s.parser.automaton s.parser.store
  located : Located p.location ms
  location : s.parser.location = p.location.advance (consumed ms)
  mem : ∀ x ∈ ms, ⟨x.symbol, x.text⟩ ∈ pieces
  /-- A lexical error is about the first character that waits, and one about a token is
      about the last match. -/
  error : ∀ e, s.result = .error (.error e) →
    (∃ c rest, s.parser.pending = c :: rest ∧ e = .lexical s.parser.location c) ∨
      ∃ before x symbol, ms = before ++ [x] ∧ x.symbol = some symbol ∧ x.taken = false ∧
        e = .unexpected (p.location.advance (consumed before)) (p.machine.grammar.nameOf symbol)
          (String.ofList x.text)

theorem reads_nil (p : Parser) (remainder : Lexicon.Remainder) :
    Reads p remainder [] [] (p.feedPieces remainder []) := by
  have herror : ∀ e, (p.feedPieces remainder []).result = .error (.error e) →
      ∃ c rest, remainder = .unmatched (c :: rest) ∧ e = .lexical p.location c := by
    intro e h
    simp only [feedPieces] at h
    split at h
    · rename_i c rest
      cases h
      exact ⟨c, rest, rfl, rfl⟩
    · cases h
  have hparser : (p.feedPieces remainder []).parser = { p with pending := remainder.rest } := by
    simp only [feedPieces]
    split <;> rfl
  refine ⟨by rw [hparser], by rw [hparser], by rw [hparser]; rfl, ?_, trivial,
    by rw [hparser]; rfl, by simp, ?_⟩
  · rw [hparser]
    exact .done
  · intro e h
    obtain ⟨c, rest, rfl, he⟩ := herror e h
    rw [hparser]
    exact .inl ⟨c, rest, rfl, he⟩

/-- A step reads one more match before the others. -/
theorem Reads.cons {p q : Parser} {remainder : Lexicon.Remainder} {pieces : List Lexicon.Piece}
    {piece : Lexicon.Piece} {ms : List Reading} {s : Stepped Unit} {moves : List Move} {x : Reading}
    (h : Reads q remainder pieces ms s) (hmachine : q.machine = p.machine)
    (hlexicon : q.lexicon = p.lexicon) (hx : x = ⟨piece.symbol, piece.text, p.location, true⟩)
    (hlocation : q.location = p.location.advance piece.text)
    (hands : ∀ {a' : Automaton} {store' : Store} {rest : List Reading},
      Hands p.machine q.automaton q.store rest a' store' →
        Hands p.machine p.automaton p.store (x :: rest) a' store') :
    Reads p remainder (piece :: pieces) (x :: ms) (s.after moves) where
  machine := h.machine.trans hmachine
  lexicon := h.lexicon.trans hlexicon
  text := by
    rw [List.flatMap_cons, List.append_assoc, h.text, consumed_cons, List.append_assoc, hx]
    rfl
  hands := hands (hmachine ▸ h.hands)
  located := ⟨by rw [hx], by rw [hx]; exact hlocation ▸ h.located⟩
  location := by
    rw [consumed_cons, Location.advance_append, hx]
    exact h.location.trans (by rw [hlocation])
  mem y hy := by
    rcases List.mem_cons.1 hy with rfl | hy
    · rw [hx]
      exact List.mem_cons_self
    · exact List.mem_cons_of_mem _ (h.mem y hy)
  error e he := by
    rcases h.error e he with hlexical | ⟨before, y, symbol, rfl, hsymbol, htaken, rfl⟩
    · exact .inl hlexical
    · refine .inr ⟨x :: before, y, symbol, rfl, hsymbol, htaken, ?_⟩
      rw [consumed_cons, Location.advance_append, hx, hlocation, hmachine]

/-- A step that is not broken off reads its matches. -/
theorem reads_feedPieces (remainder : Lexicon.Remainder) (pieces : List Lexicon.Piece) :
    ∀ p : Parser, (∀ f, (p.feedPieces remainder pieces).result ≠ .error (.fault f)) →
      Reads p remainder pieces (p.readings pieces) (p.feedPieces remainder pieces) := by
  induction pieces with
  | nil => exact fun p _ => reads_nil p remainder
  | cons piece rest ih =>
    intro p hfault
    cases hsymbol : piece.symbol with
    | none =>
      simp only [feedPieces, readings, hsymbol] at hfault ⊢
      have hrest := ih { p with location := p.location.advance piece.text } hfault
      rw [← Stepped.after_nil (feedPieces _ _ _)]
      exact hrest.cons rfl rfl (by rw [hsymbol]) rfl (fun h => .skip rfl h)
    | some symbol =>
      cases houtcome :
          (p.machine.feed p.automaton p.store symbol (String.ofList piece.text)).outcome with
      | error f =>
        simp only [feedPieces, hsymbol, houtcome] at hfault
        exact absurd rfl (hfault f)
      | ok taken =>
        cases taken with
        | true =>
          simp only [feedPieces, readings, hsymbol, houtcome] at hfault ⊢
          refine (ih _ hfault).cons rfl rfl (by rw [hsymbol]) rfl (fun h => ?_)
          exact .token rfl houtcome h
        | false =>
          simp only [feedPieces, readings, hsymbol, houtcome]
          refine ⟨rfl, rfl, ?_, .token rfl houtcome .done, ⟨rfl, trivial⟩, ?_, ?_, ?_⟩
          · simp
          · simp
          · intro x hx
            rw [List.mem_singleton.1 hx, ← hsymbol]
            exact List.mem_cons_self
          · intro e he
            cases he
            exact .inr ⟨[], _, symbol, rfl, rfl, rfl, rfl⟩

/-! ## One call -/

theorem Stepped.result_of_mem_errors {α : Type} {s : Stepped α} {e : Error} (h : e ∈ s.errors) :
    s.result = .error (.error e) := by
  unfold Stepped.errors at h
  split at h
  · rename_i hresult
    rw [hresult, List.mem_singleton.1 h]
  · cases h

theorem Session.eq_of_add {α : Type} {s s' : Session} {read : List Reading} {stepped : Stepped α}
    (h : s.add read stepped = some s') :
    (∀ f, stepped.result ≠ .error (.fault f)) ∧
      s' = ⟨stepped.parser, s.readings ++ read, s.errors ++ stepped.errors⟩ := by
  unfold Session.add at h
  split at h
  · cases h
  · rename_i hfault
    exact ⟨hfault, (Option.some.inj h).symm⟩

theorem parser_answer (p : Parser) (moves : List Move) (fed : Machine.Fed) :
    (p.answer moves fed).parser = { p with automaton := fed.automaton, store := fed.store } := by
  obtain ⟨⟨states, values, accepted⟩, store, fedMoves, outcome⟩ := fed
  rcases outcome with f | _ | _
  · rfl
  · cases values <;> rfl
  · rfl

/-- An error at the end of the input is about `$end`, which is refused. -/
theorem eq_of_answer_error {p : Parser} {moves : List Move} {fed : Machine.Fed} {taken : Bool}
    {e : Error} (htaken : fed.outcome = .ok taken)
    (h : (p.answer moves fed).result = .error (.error e)) :
    taken = false ∧ e = .unexpected p.location "$end" "" := by
  rw [answer, htaken] at h
  cases taken with
  | true => cases h
  | false =>
    simp only at h
    split at h
    · cases h
    · cases h
      exact ⟨rfl, rfl⟩

section

variable {p : Parser} {file : String} {realm : Nat} {fed : List Char} {s s' : Session}

theorem accounts_start (p : Parser) (file : String) (realm : Nat) :
    Accounts p file realm [] (.start (p.resetTo file realm)) where
  machine := rfl
  lexicon := rfl
  fed_eq := rfl
  hands := .done
  located := trivial
  location := rfl
  longest _ hx := nomatch hx
  placed _ he := nomatch he

/-- More text is added and drained. -/
theorem Accounts.drain (h : Accounts p file realm fed s) (more : List Char) (atEnd : Bool)
    {w : Parser} (hw : w = { s.parser with pending := s.parser.pending ++ more })
    (hfault : ∀ f, (w.drain atEnd).result ≠ .error (.fault f)) :
    Accounts p file realm (fed ++ more)
      ⟨(w.drain atEnd).parser, s.readings ++ w.drainReadings atEnd,
        s.errors ++ (w.drain atEnd).errors⟩ := by
  -- what is drained follows what was read before, so each part is put together from two
  have hread : w.Reads (w.lexicon.pieces atEnd w.pending).2 (w.lexicon.pieces atEnd w.pending).1
      (w.drainReadings atEnd) (w.drain atEnd) := reads_feedPieces _ _ w hfault
  have hmachine : w.machine = p.machine := by rw [hw]; exact h.machine
  have hlexicon : w.lexicon = p.lexicon := by rw [hw]; exact h.lexicon
  have hlocation : w.location = (Location.start file).advance (consumed s.readings) := by
    rw [hw]
    exact h.location
  have hfed : fed ++ more =
      consumed (s.readings ++ w.drainReadings atEnd) ++ (w.drain atEnd).parser.pending := by
    have htext := hread.text
    rw [Lexicon.flatMap_pieces] at htext
    rw [consumed_append, List.append_assoc, ← htext, h.fed_eq, hw, List.append_assoc]
  have hplace : (w.drain atEnd).parser.location =
      (Location.start file).advance (consumed (s.readings ++ w.drainReadings atEnd)) := by
    rw [consumed_append, Location.advance_append, ← hlocation]
    exact hread.location
  constructor
  case machine => exact hread.machine.trans hmachine
  case lexicon => exact hread.lexicon.trans hlexicon
  case fed_eq => exact hfed
  case hands =>
    have hhands := hread.hands
    rw [hmachine, show w.automaton = s.parser.automaton by rw [hw],
      show w.store = s.parser.store by rw [hw]] at hhands
    exact h.hands.trans hhands
  case located => exact h.located.append (hlocation ▸ hread.located)
  case location => exact hplace
  case longest =>
    intro x hx hne
    rcases List.mem_append.1 hx with hx | hx
    · exact h.longest x hx hne
    · obtain ⟨rest, hlongest⟩ := Lexicon.exists_longest_of_mem_pieces (hread.mem x hx)
      exact ⟨rest, hlexicon ▸ hlongest⟩
  case placed =>
    intro e he
    rcases List.mem_append.1 he with he | he
    · exact (h.placed e he).mono
    · rcases hread.error e (Stepped.result_of_mem_errors he) with ⟨c, rest, hpending, rfl⟩ |
        ⟨before, x, symbol, hlast, hsymbol, htaken, rfl⟩
      · rw [hplace, Location.advance_start]
        exact .lexical (hpending ▸ hfed)
      · rw [hlocation, ← Location.advance_append, ← consumed_append, Location.advance_start,
          hmachine]
        have hsplit : s.readings ++ w.drainReadings atEnd = s.readings ++ before ++ x :: [] := by
          rw [hlast, List.append_assoc]
        exact .refused hsplit hsymbol htaken

/-- The end of the input is handed to the automaton. -/
theorem Accounts.close (h : Accounts p file realm fed s) {moves : List Move} {taken : Bool}
    (hend : (s.parser.machine.feed s.parser.automaton s.parser.store endSymbol "").outcome =
      .ok taken) {answered : Stepped Node}
    (hanswer : answered = s.parser.answer moves
      (s.parser.machine.feed s.parser.automaton s.parser.store endSymbol "")) :
    Accounts p file realm fed
      ⟨answered.parser, s.readings ++ [⟨some endSymbol, [], s.parser.location, taken⟩],
        s.errors ++ answered.errors⟩ := by
  have hparser : answered.parser = { s.parser with
      automaton :=
        (s.parser.machine.feed s.parser.automaton s.parser.store endSymbol "").automaton,
      store := (s.parser.machine.feed s.parser.automaton s.parser.store endSymbol "").store } := by
    rw [hanswer, parser_answer]
  constructor
  case machine =>
    rw [hparser]
    exact h.machine
  case lexicon =>
    rw [hparser]
    exact h.lexicon
  case fed_eq =>
    rw [hparser, consumed_append, h.fed_eq]
    simp
  case hands =>
    refine h.hands.trans ?_
    rw [hparser, ← h.machine]
    exact .token rfl hend .done
  case located => exact h.located.append ⟨h.location, trivial⟩
  case location =>
    rw [hparser, consumed_append]
    simpa using h.location
  case longest =>
    intro x hx hne
    rcases List.mem_append.1 hx with hx | hx
    · exact h.longest x hx hne
    · rw [List.mem_singleton.1 hx] at hne
      exact absurd rfl hne
  case placed =>
    intro e he
    rcases List.mem_append.1 he with he | he
    · rw [← List.append_nil fed]
      exact (h.placed e he).mono
    · obtain ⟨rfl, rfl⟩ := eq_of_answer_error hend
        (hanswer ▸ Stepped.result_of_mem_errors he)
      have hsplit : s.readings ++ [⟨some endSymbol, [], s.parser.location, false⟩] =
          s.readings ++ ⟨some endSymbol, [], s.parser.location, false⟩ :: [] := rfl
      rw [h.location, Location.advance_start] at hsplit ⊢
      exact .ended hsplit rfl rfl rfl

/-- A copy stands where the parser does. -/
theorem Accounts.fork (h : Accounts p file realm fed s) (realm' : Nat) :
    Accounts p file realm fed { s with parser := s.parser.fork realm' } where
  machine := h.machine
  lexicon := h.lexicon
  fed_eq := h.fed_eq
  hands := by
    have hfork : Hands p.machine s.parser.automaton s.parser.store [] s.parser.automaton
        (s.parser.store.fork realm') := .fork .done
    rw [← List.append_nil s.readings]
    exact h.hands.trans hfork
  located := h.located
  location := h.location
  longest := h.longest
  placed := h.placed

/-- A call that is not broken off reads on where the last one stopped. -/
theorem accounts_step (h : Accounts p file realm fed s) {c : Call} (hcall : s.call c = some s') :
    Accounts p file realm (fed ++ c.text) s' := by
  cases c with
  | fork realm' =>
    cases hcall
    rw [Call.text, List.append_nil]
    exact h.fork realm'
  | feed part =>
    obtain ⟨hfault, rfl⟩ := Session.eq_of_add hcall
    exact h.drain part.toList false rfl hfault
  | finish =>
    obtain ⟨hfault, rfl⟩ := Session.eq_of_add hcall
    have hw : s.parser = { s.parser with pending := s.parser.pending ++ [] } := by simp
    rw [show s.parser.finish = Parser.close (s.parser.drain true) from rfl] at hfault ⊢
    -- what waits is cut first, and then the end of the input is handed over
    cases hdrained : (s.parser.drain true).result with
    | error f =>
      have hclose : Parser.close (s.parser.drain true) =
          ⟨(s.parser.drain true).parser, (s.parser.drain true).moves, .error f⟩ := by
        simp only [Parser.close, hdrained]
      rw [hclose] at hfault ⊢
      cases f with
      | fault f => exact absurd rfl (hfault f)
      | error e =>
        have hdrain := h.drain [] true hw (by simp [hdrained])
        simpa only [finishReadings, hdrained, List.append_nil, Stepped.errors, Call.text]
          using hdrain
    | ok u =>
      have hdrain := h.drain [] true hw (by simp [hdrained])
      have hclose : Parser.close (s.parser.drain true) = (s.parser.drain true).parser.answer
          (s.parser.drain true).moves ((s.parser.drain true).parser.machine.feed
            (s.parser.drain true).parser.automaton (s.parser.drain true).parser.store endSymbol
              "") := by
        simp only [Parser.close, hdrained]
      cases hend : ((s.parser.drain true).parser.machine.feed
          (s.parser.drain true).parser.automaton (s.parser.drain true).parser.store endSymbol
            "").outcome with
      | error f =>
        rw [hclose, answer, hend] at hfault
        exact absurd rfl (hfault f)
      | ok taken =>
        have hclosed := hdrain.close hend hclose
        simpa only [finishReadings, hdrained, hend, List.append_assoc, List.append_nil,
          Stepped.errors, Call.text] using hclosed

/-! ## Any number of calls -/

/-- Calls that are not broken off read on, one after the other. -/
theorem accounts_foldlM : ∀ {calls : List Call} {fed : List Char} {s : Session},
    Accounts p file realm fed s → List.foldlM Session.call s calls = some s' →
      Accounts p file realm (fed ++ calls.flatMap Call.text) s' := by
  intro calls
  induction calls with
  | nil =>
    intro fed s h hs'
    cases hs'
    simpa using h
  | cons c calls ih =>
    intro fed s h hs'
    rw [List.foldlM_cons] at hs'
    obtain ⟨next, hnext, hs'⟩ := Option.bind_eq_some_iff.1 hs'
    rw [List.flatMap_cons, ← List.append_assoc]
    exact ih (accounts_step h hnext) hs'

/-- A new parser is one that was reset to the input without a name. -/
@[simp] theorem resetTo_new (m : Machine) (l : Lexicon) (realm : Nat) :
    (new m l realm).resetTo unnamedInput realm = new m l realm := rfl

/-- However the text of a file is split into calls, and whatever errors they answer: what
    was fed is what was read and then what waits, the parser stands right after what was
    read, and every token that was handed to the automaton and every error is placed where
    its first character stands in the whole text. -/
theorem accounts_of_calls {calls : List Call}
    (h : List.foldlM Session.call (.start (p.resetTo file realm)) calls = some s) :
    calls.flatMap Call.text = consumed s.readings ++ s.parser.pending ∧
      Hands p.machine .initial (.empty realm) s.readings s.parser.automaton s.parser.store ∧
      (∀ x ∈ s.readings, x.text ≠ [] →
        ∃ rest, p.lexicon.longest (x.text ++ rest) = some (x.symbol, x.text.length)) ∧
      s.parser.location = .past file (consumed s.readings) ∧
      (∀ before x after, s.readings = before ++ x :: after →
        x.location = .past file (consumed before)) ∧
      ∀ e ∈ s.errors, Placed p.machine file (calls.flatMap Call.text) s.readings e := by
  have haccounts := accounts_foldlM (accounts_start p file realm) h
  rw [List.nil_append] at haccounts
  refine ⟨haccounts.fed_eq, haccounts.hands, haccounts.longest, ?_, ?_, haccounts.placed⟩
  · rw [haccounts.location, Location.advance_start]
  · intro before x after hsplit
    have hlocated := haccounts.located
    rw [hsplit] at hlocated
    rw [hlocated.location_eq, Location.advance_start]

end

/-- A grammar of sums, whose words may stand on several lines. -/
def sums : String :=
  "language sums\nwhitespace \\x20+|\\n+\nkeyword a\nsymbol '+' plus\nstart sum\n" ++
    "sum:\n    a '+' a\n"

/-- A token is refused, later a character starts no token, and the calls go on after both. -/
theorem accounts_of_calls_sums : ∃ l s calls, (Language.compile sums).result = .ok l ∧
    calls.flatMap Call.text = "a\n + +a?".toList ∧
    List.foldlM Session.call (.start (l.parser.resetTo "in" 0)) calls = some s ∧
    s.errors = [.unexpected ⟨"in", 2, 4⟩ "+" "+", .lexical ⟨"in", 2, 6⟩ '?'] ∧
    calls.flatMap Call.text = consumed s.readings ++ s.parser.pending ∧
    s.parser.location = .past "in" (consumed s.readings) ∧
    (∀ before x after, s.readings = before ++ x :: after →
      x.location = .past "in" (consumed before)) ∧
    ∀ e ∈ s.errors, Placed l.parser.machine "in" (calls.flatMap Call.text) s.readings e := by
  have hok : ((Language.compile sums).result.toOption.bind fun l =>
      (List.foldlM Session.call (.start (l.parser.resetTo "in" 0))
        [.feed "a\n ", .feed "+ +a", .finish, .feed "?", .finish]).map Session.errors) =
      some [.unexpected ⟨"in", 2, 4⟩ "+" "+", .lexical ⟨"in", 2, 6⟩ '?'] := by
    decide +kernel
  cases hl : (Language.compile sums).result with
  | error f =>
    rw [hl] at hok
    cases hok
  | ok l =>
    rw [hl] at hok
    obtain ⟨s, hs, herrors⟩ := Option.map_eq_some_iff.1 hok
    obtain ⟨htext, -, -, hplace, hplaces, hplaced⟩ := accounts_of_calls hs
    exact ⟨l, s, _, rfl, rfl, hs, herrors, htext, hplace, hplaces, hplaced⟩

end Parser

end LanguageWorkbench
