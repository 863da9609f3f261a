import LanguageWorkbench.Proofs.Cutting

/-!
# Tokens one after the other

A tokenizer cuts a text one token at a time and passes over what is skipped. So the calls of
one tokenizer answer the tokens among the pieces of its text, then the error, if some
character starts no token, and then nothing, however often it is asked.

Results:
* `Lexicon.Tokenizer.Runs`: all answers of a tokenizer, and what it ends as.
* `Lexicon.Tokenizer.exists_cuts`: the answers are the tokens of the pieces.
* `Lexicon.tokenize_eq`: the tokens of a text by its pieces.
-/

namespace LanguageWorkbench.Lexicon

/-! ## Tokens of pieces -/

/-- The tokens among pieces that start at a location, and the location after them. -/
def tokensFrom (location : Location) : List Piece → List Token × Location
  | [] => ([], location)
  | p :: rest =>
    let (tokens, last) := tokensFrom (location.advance p.text) rest
    match p.symbol with
    | some symbol => (⟨symbol, String.ofList p.text, location⟩ :: tokens, last)
    | none => (tokens, last)

theorem tokensFrom_snd (location : Location) (pieces : List Piece) :
    (tokensFrom location pieces).2 = location.advance (pieces.flatMap Piece.text) := by
  induction pieces generalizing location with
  | nil => rfl
  | cons piece rest ih =>
    rw [List.flatMap_cons, Location.advance_append, ← ih]
    cases hsymbol : piece.symbol <;> simp [tokensFrom, hsymbol]

/-- The error at the first character that is left, where some character starts no token. -/
def errorOf (location : Location) : Remainder → Option Error
  | .unmatched (c :: _) => some (.lexical location c)
  | _ => none

namespace Tokenizer

variable {t t' : Tokenizer} {symbol : Option Symbol} {n : Nat}

/-! ## One call -/

/-- A call in a text that goes on: the first match is passed over if it is skipped, and else
    it is the answer. -/
theorem nextWithin_of_longest {fuel : Nat} (hfailed : t.failed = false)
    (h : t.lexicon.longest t.rest = some (symbol, n))
    (hmore : t.atEnd = true ∨ n < t.rest.length) : t.nextWithin (fuel + 1) =
      match symbol with
      | none => (t.skip n).nextWithin fuel
      | some symbol =>
        (some (.ok ⟨symbol, String.ofList (t.rest.take n), t.location⟩), t.skip n) := by
  obtain ⟨hpos, hle, -⟩ := longest_spec h
  have hgoes : ¬ ((!t.atEnd && decide (n = t.rest.length)) = true) := by
    rcases hmore with hend | hlt
    · simp [hend]
    · simp [Nat.ne_of_lt hlt]
  obtain ⟨c, cs, hrest⟩ := List.exists_cons_of_length_pos (Nat.lt_of_lt_of_le hpos hle)
  rw [hrest] at h hgoes
  cases symbol <;> simp only [nextWithin, hfailed, hrest, h, hgoes, if_false, Bool.false_eq_true]

/-- More fuel than characters is as good as any more. -/
theorem nextWithin_eq_next : ∀ {fuel : Nat} {t : Tokenizer}, t.rest.length < fuel →
    t.nextWithin fuel = t.next := by
  have hsame : ∀ {fuel : Nat} (fuel' : Nat) {t : Tokenizer}, t.rest.length < fuel →
      t.rest.length < fuel' → t.nextWithin fuel = t.nextWithin fuel' := by
    intro fuel
    induction fuel with
    | zero => intro fuel' t h; omega
    | succ fuel ih =>
      intro fuel' t h h'
      obtain ⟨fuel', rfl⟩ := Nat.exists_eq_add_one.2 (Nat.zero_lt_of_lt h')
      simp only [nextWithin]
      split
      · rfl
      · split
        · rfl
        · split
          · rfl
          · rename_i symbol n hlongest
            split
            · rfl
            · split
              · have hpos := longest_spec hlongest
                have hlt : (t.skip n).rest.length < t.rest.length := by
                  rw [skip, List.length_drop]
                  omega
                exact ih fuel' (by omega) (by omega)
              · rfl
  exact fun {_ _} h => hsame _ h (Nat.lt_succ_self _)

theorem next_of_failed (h : t.failed = true) : t.next = (none, t) := by
  simp [next, nextWithin, h]

theorem next_of_nil (h : t.rest = []) : t.next = (none, t) := by
  rw [next, nextWithin]
  split
  · rfl
  · simp [h]

theorem next_of_unmatched {c : Char} {cs : List Char} (hfailed : t.failed = false)
    (hrest : t.rest = c :: cs) (h : t.lexicon.longest t.rest = none) : t.next =
      if t.atEnd then (some (.error (.lexical t.location c)), { t with failed := true })
      else (none, t) := by
  rw [hrest] at h
  simp [next, nextWithin, hfailed, hrest, h]

/-- A match that reaches the end of a part waits. -/
theorem next_of_waits (hend : t.atEnd = false)
    (h : t.lexicon.longest t.rest = some (symbol, t.rest.length)) : t.next = (none, t) := by
  rw [next, nextWithin]
  split
  · rfl
  · split
    · rfl
    · rw [h]
      simp [hend]

theorem next_of_token {symbol : Symbol} (hfailed : t.failed = false)
    (h : t.lexicon.longest t.rest = some (some symbol, n))
    (hmore : t.atEnd = true ∨ n < t.rest.length) : t.next =
      (some (.ok ⟨symbol, String.ofList (t.rest.take n), t.location⟩), t.skip n) :=
  nextWithin_of_longest hfailed h hmore

theorem next_of_skipped (hfailed : t.failed = false)
    (h : t.lexicon.longest t.rest = some (none, n))
    (hmore : t.atEnd = true ∨ n < t.rest.length) : t.next = (t.skip n).next := by
  have hpos := longest_spec h
  rw [next, nextWithin_of_longest hfailed h hmore]
  refine nextWithin_eq_next ?_
  rw [skip, List.length_drop]
  omega

/-! ## All calls -/

/-- The tokenizer after a number of calls. -/
def after : Nat → Tokenizer → Tokenizer
  | 0, t => t
  | count + 1, t => t.next.2.after count

/-- The answer of a call that comes after a number of calls. -/
def answer (t : Tokenizer) (count : Nat) : Option (Except Error Token) := (t.after count).next.1

/-- `Runs t items t'`: the calls answer `items`, one after the other, and then nothing more,
    which leaves `t'`. -/
inductive Runs : Tokenizer → List (Except Error Token) → Tokenizer → Prop
  | stops {t t' : Tokenizer} (hnext : t.next = (none, t')) (hidle : t'.next = (none, t')) :
    Runs t [] t'
  | yields {t t' last : Tokenizer} {item : Except Error Token} {items : List (Except Error Token)}
    (hnext : t.next = (some item, t')) (hruns : Runs t' items last) : Runs t (item :: items) last

variable {items : List (Except Error Token)} {count : Nat}

theorem after_of_idle (h : t.next = (none, t)) : ∀ count, t.after count = t
  | 0 => rfl
  | count + 1 => by rw [after, h, after_of_idle h count]

theorem Runs.answer_eq (h : Runs t items t') : t.answer count = items[count]? := by
  induction h generalizing count with
  | stops hnext hidle =>
    cases count with
    | zero => rw [answer, after, hnext]; rfl
    | succ count => rw [answer, after, hnext, after_of_idle hidle, hidle]; rfl
  | yields hnext _ ih =>
    cases count with
    | zero => rw [answer, after, hnext]; rfl
    | succ count => rw [answer, after, hnext, List.getElem?_cons_succ]; exact ih

theorem Runs.after_eq (h : Runs t items t') (hcount : items.length < count) :
    t.after count = t' := by
  induction h generalizing count with
  | stops hnext hidle =>
    obtain ⟨count, rfl⟩ := Nat.exists_eq_add_one.2 hcount
    rw [after, hnext, after_of_idle hidle]
  | yields hnext _ ih =>
    obtain ⟨count, rfl⟩ := Nat.exists_eq_add_one.2 (Nat.zero_lt_of_lt hcount)
    rw [after, hnext]
    exact ih (Nat.lt_of_succ_lt_succ hcount)

/-- What is collected of tokens and an error after them. -/
theorem Runs.collect_eq {tokens : List Token} {error : Option Error} {fuel : Nat}
    (h : Runs t (tokens.map .ok ++ error.toList.map .error) t')
    (hfuel : tokens.length + error.toList.length < fuel) :
    t.collect fuel = ⟨tokens, error, t'.location, t'.rest⟩ := by
  obtain ⟨fuel, rfl⟩ := Nat.exists_eq_add_one.2 (Nat.zero_lt_of_lt hfuel)
  induction tokens generalizing t fuel with
  | nil =>
    cases error with
    | none =>
      cases h with
      | stops hnext _ => rw [collect, hnext]
    | some e =>
      cases h with
      | yields hnext hruns =>
        cases hruns with
        | stops hnext' _ =>
          obtain ⟨fuel, rfl⟩ : ∃ n, fuel = n + 1 :=
            Nat.exists_eq_succ_of_ne_zero (Nat.ne_of_gt (Nat.lt_of_succ_lt_succ hfuel))
          rw [collect, hnext]
          simp only [collect, hnext']
  | cons token tokens ih =>
    cases h with
    | yields hnext hruns =>
      rw [List.length_cons] at hfuel
      obtain ⟨fuel, rfl⟩ : ∃ n, fuel = n + 1 :=
        Nat.exists_eq_succ_of_ne_zero (by omega)
      rw [collect, hnext]
      simp only [ih hruns fuel (by omega)]

/-! ## Calls and pieces -/

/-- The tokens of pieces, and the error if some character starts no token. -/
def itemsOf (location : Location) (pieces : List Piece) (remainder : Remainder) :
    List (Except Error Token) :=
  (tokensFrom location pieces).1.map .ok ++
    (errorOf (tokensFrom location pieces).2 remainder).toList.map .error

/-- The calls of a tokenizer cut its text into pieces and stop at what remains. -/
structure Cuts (t : Tokenizer) (pieces : List Piece) (remainder : Remainder) (last : Tokenizer) :
    Prop where
  runs : Runs t (itemsOf t.location pieces remainder) last
  rest : last.rest = remainder.rest
  location : last.location = t.location.advance (pieces.flatMap Piece.text)
  consumed : last.consumed =
    t.consumed + (String.ofList (pieces.flatMap Piece.text)).utf8ByteSize

theorem Cuts.stop (h : t.next = (none, t)) : Cuts t [] (.held t.rest) t :=
  ⟨.stops h h, rfl, rfl, rfl⟩

theorem Runs.of_next_eq (h : t.next = t'.next) {last : Tokenizer} (hruns : Runs t' items last) :
    Runs t items last := by
  cases hruns with
  | stops hnext hidle => exact .stops (h.trans hnext) hidle
  | yields hnext hruns => exact .yields (h.trans hnext) hruns

/-- The first match is cut off before the others are. -/
theorem Cuts.cons {pieces : List Piece} {remainder : Remainder} {last : Tokenizer}
    (hfailed : t.failed = false) (hlongest : t.lexicon.longest t.rest = some (symbol, n))
    (hmore : t.atEnd = true ∨ n < t.rest.length) (h : Cuts (t.skip n) pieces remainder last) :
    Cuts t (⟨symbol, t.rest.take n⟩ :: pieces) remainder last := by
  obtain ⟨hruns, hrest, hlocation, hconsumed⟩ := h
  refine ⟨?_, hrest, ?_, ?_⟩
  · cases symbol with
    | none => exact .of_next_eq (next_of_skipped hfailed hlongest hmore) hruns
    | some symbol => exact .yields (next_of_token hfailed hlongest hmore) hruns
  · rw [hlocation, List.flatMap_cons, Location.advance_append]
    rfl
  · rw [hconsumed, List.flatMap_cons, String.ofList_append, String.utf8ByteSize_append,
      ← Nat.add_assoc]
    rfl

/-- A tokenizer cuts its text into the pieces of the text. -/
theorem exists_cuts (hfailed : t.failed = false) : ∃ last,
    Cuts t (t.lexicon.pieces t.atEnd t.rest).1 (t.lexicon.pieces t.atEnd t.rest).2 last := by
  obtain ⟨l, atEnd, text, location, consumed, failed⟩ := t
  obtain rfl : failed = false := hfailed
  induction text using pieces_induction atEnd l generalizing location consumed with
  | nil => exact ⟨_, .stop (next_of_nil rfl)⟩
  | unmatched text hne hnone =>
    obtain ⟨c, cs, rfl⟩ := List.exists_cons_of_ne_nil hne
    have hnext := next_of_unmatched (t := ⟨l, atEnd, c :: cs, location, consumed, false⟩) rfl rfl hnone
    simp only [pieces_of_longest_none hne hnone]
    cases atEnd with
    | false => exact ⟨_, .stop hnext⟩
    | true =>
      exact ⟨_, .yields hnext (.stops (next_of_failed rfl) (next_of_failed rfl)), rfl, rfl, rfl⟩
  | waits text symbol hend hlongest =>
    subst hend
    simp only [pieces_of_longest_all hlongest]
    exact ⟨_, .stop (next_of_waits rfl hlongest)⟩
  | cutOff text symbol n hlongest hmore ih =>
    obtain ⟨last, h⟩ := ih (location.advance (text.take n))
      (consumed + (String.ofList (text.take n)).utf8ByteSize)
    simp only [pieces_of_longest hlongest hmore]
    exact ⟨last, .cons rfl hlongest hmore h⟩

theorem exists_cuts_new (l : Lexicon) (atEnd : Bool) (location : Location) (text : List Char) :
    ∃ last, Cuts (new l atEnd location text) (l.pieces atEnd text).1 (l.pieces atEnd text).2 last :=
  exists_cuts rfl

end Tokenizer

/-- There are no more tokens than characters. -/
theorem length_tokensFrom_le (l : Lexicon) (atEnd : Bool) (location : Location)
    (text : List Char) : (tokensFrom location (l.pieces atEnd text).1).1.length +
      (l.pieces atEnd text).2.rest.length ≤ text.length := by
  induction text using pieces_induction atEnd l generalizing location with
  | nil => exact Nat.le_refl _
  | unmatched text hne hnone =>
    rw [pieces_of_longest_none hne hnone]
    cases atEnd <;> exact Nat.le_of_eq (Nat.zero_add _)
  | waits text symbol hend hlongest =>
    subst hend
    rw [pieces_of_longest_all hlongest]
    exact Nat.le_of_eq (Nat.zero_add _)
  | cutOff text symbol n hlongest hmore ih =>
    obtain ⟨hpos, hle, -⟩ := longest_spec hlongest
    have hrest := ih (location.advance (text.take n))
    rw [List.length_drop] at hrest
    rw [pieces_of_longest hlongest hmore]
    cases symbol <;> simp only [tokensFrom, List.length_cons] <;> omega

/-- The tokens of a text by its pieces. -/
theorem tokenize_eq (l : Lexicon) (atEnd : Bool) (location : Location) (text : List Char) :
    l.tokenize atEnd location text =
      ⟨(tokensFrom location (l.pieces atEnd text).1).1,
        errorOf (tokensFrom location (l.pieces atEnd text).1).2 (l.pieces atEnd text).2,
        (tokensFrom location (l.pieces atEnd text).1).2, (l.pieces atEnd text).2.rest⟩ := by
  obtain ⟨last, hruns, hrest, hlocation, -⟩ := Tokenizer.exists_cuts_new l atEnd location text
  have herror : (errorOf (tokensFrom location (l.pieces atEnd text).1).2
      (l.pieces atEnd text).2).toList.length ≤ (l.pieces atEnd text).2.rest.length := by
    unfold errorOf
    split <;> simp_all [Remainder.rest]
  have hlength := length_tokensFrom_le l atEnd location text
  have hcollect := hruns.collect_eq (Nat.lt_succ_of_le
    (Nat.le_trans (Nat.add_le_add_left herror _) hlength))
  rw [tokenize, hcollect, hrest, hlocation, ← tokensFrom_snd]
  rfl

end LanguageWorkbench.Lexicon
