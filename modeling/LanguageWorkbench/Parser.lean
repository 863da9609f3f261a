import LanguageWorkbench.Automaton
import LanguageWorkbench.Lexicon

/-!
# Parsers

A parser feeds the tokens of one input to an automaton. The text may come in parts,
cut anywhere: the end of a part that may still grow into a longer token waits for
the next part or for the end of the input.

* `Parser.feed` adds a part, `Parser.finish` ends the input and answers the tree.
* `Parser.parse` does both on a fresh copy.

Every step leaves the parser as the tokens before an error or fault left it.
-/

namespace LanguageWorkbench

/-- A parser in the middle of an input. -/
structure Parser where
  machine : Machine
  lexicon : Lexicon
  automaton : Automaton
  store : Store
  /-- The place of the first character that waits. -/
  location : Location
  /-- The characters that wait. -/
  pending : List Char

namespace Parser

/-- The name of the input while no file is given. -/
def unnamedInput : String := "<input>"

/-- A parser before any input, with a store of the given realm. -/
def new (machine : Machine) (lexicon : Lexicon) (realm : Nat) : Parser :=
  ⟨machine, lexicon, .initial, .empty realm, .start unnamedInput, []⟩

/-- Starts over at the beginning of a file, with a new store of the given realm. -/
def resetTo (p : Parser) (file : String) (realm : Nat) : Parser :=
  { p with automaton := .initial, store := .empty realm, location := .start file, pending := [] }

/-- Starts over at the beginning of the same file. -/
def reset (p : Parser) (realm : Nat) : Parser := p.resetTo p.location.file realm

/-- A copy that goes its own way, whose new nodes are of the given realm. -/
def fork (p : Parser) (realm : Nat) : Parser := { p with store := p.store.fork realm }

/-- A parser after a step, with the moves of its automaton and the result. -/
structure Stepped (α : Type) where
  parser : Parser
  moves : List Move
  result : Except Failure α

/-- Puts moves before those of a step. -/
def Stepped.after {α : Type} (moves : List Move) (s : Stepped α) : Stepped α :=
  { s with moves := moves ++ s.moves }

/-- What a fault leaves of a parser: the text that waited and its place are lost. -/
def lose (p : Parser) : Parser := { p with location := .start "", pending := [] }

/-- Feeds pieces to the automaton and then what is left of the text to `rest`. A
    token that the automaton rejects counts as read. -/
def feedPieces (p : Parser) (remainder : Lexicon.Remainder) :
    List Lexicon.Piece → Stepped Unit
  | [] =>
    let p := { p with pending := remainder.rest }
    match remainder with
    | .unmatched (c :: _) => ⟨p, [], .error (.error (.lexical p.location c))⟩
    | _ => ⟨p, [], .ok ()⟩
  | piece :: rest =>
    let next := p.location.advance piece.text
    match piece.symbol with
    | none => feedPieces { p with location := next } remainder rest
    | some symbol =>
      let text := String.ofList piece.text
      let fed := p.machine.feed p.automaton p.store symbol text
      let stepped := { p with automaton := fed.automaton, store := fed.store }
      match fed.outcome with
      | .error f => ⟨stepped.lose, fed.moves, .error (.fault f)⟩
      | .ok false =>
        let unread := rest.flatMap (·.text) ++ remainder.rest
        ⟨{ stepped with location := next, pending := unread }, fed.moves,
          .error (.error (.unexpected p.location (p.machine.grammar.nameOf symbol) text))⟩
      | .ok true =>
        .after fed.moves (feedPieces { stepped with location := next } remainder rest)

/-- Runs the waiting text through the automaton. At the end of the input nothing is
    held back. -/
def drain (p : Parser) (atEnd : Bool) : Stepped Unit :=
  let (pieces, remainder) := p.lexicon.pieces atEnd p.pending
  p.feedPieces remainder pieces

/-- Adds a part of the text. -/
def feed (p : Parser) (text : String) : Stepped Unit :=
  { p with pending := p.pending ++ text.toList }.drain false

/-- Ends the input and answers the tree. An input that ends before anything was
    stacked is nothing, if the grammar does not derive the empty string. -/
def finish (p : Parser) : Stepped Node :=
  let drained := p.drain true
  let p := drained.parser
  match drained.result with
  | .error f => ⟨p, drained.moves, .error f⟩
  | .ok () =>
    let fed := p.machine.feed p.automaton p.store endSymbol ""
    let p := { p with automaton := fed.automaton, store := fed.store }
    let moves := drained.moves ++ fed.moves
    match fed.outcome with
    | .error f => ⟨p, moves, .error (.fault f)⟩
    | .ok true => ⟨p, moves, .ok (p.automaton.result?.getD .nothing)⟩
    | .ok false =>
      if p.automaton.values.isEmpty then ⟨p, moves, .ok .nothing⟩
      else ⟨p, moves, .error (.error (.unexpected p.location "$end" ""))⟩

/-- Parses a whole text on a fresh copy, whose store is of the given realm. -/
def parse (p : Parser) (file text : String) (realm : Nat) : Stepped Node :=
  let fed := (p.resetTo file realm).feed text
  match fed.result with
  | .error f => ⟨fed.parser, fed.moves, .error f⟩
  | .ok () => fed.parser.finish.after fed.moves

end Parser

end LanguageWorkbench
