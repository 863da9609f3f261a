import LanguageWorkbench.Lexicon
import Mathlib.Tactic.SplitIfs

/-!
# Cutting texts into pieces

A text is cut by its longest matches, one after the other. A text that comes in parts is
cut part by part, and the end of each part waits. Both ways give the same pieces for all
texts exactly if more text never changes a match that ends before the end of the text.

Results:
* `Lexicon.longest_spec`: the longest match is one of some entry, within the text.
* `Lexicon.mem_pieces`: every piece is a longest match.
* `Lexicon.agrees_singleton`: what waits is cut at the end of the input.
* `Lexicon.Stable`, `Lexicon.agrees_iff_stable`: when parts do not matter.
-/

namespace LanguageWorkbench

/-! ## Matches -/

namespace Lexicon

variable {l : Lexicon} {text : List Char} {symbol : Option Symbol} {n : Nat} {atEnd : Bool}

theorem exists_find_of_matchLength {e : LexiconEntry} (h : matchLength e text = n) (hn : 0 < n) :
    ∃ p ∈ e.branches, p.find text = some n := by
  have hmax : ∀ (found : List Nat) (best : Nat), found.foldl max best = n →
      best = n ∨ n ∈ found := by
    intro found
    induction found with
    | nil => exact fun best h => .inl h
    | cons m found ih =>
      intro best h
      rcases ih _ h with h | h
      · rcases Nat.le_total best m with hle | hle
        · exact .inr (by rw [← h, Nat.max_eq_right hle]; exact List.mem_cons_self)
        · exact .inl (by rw [← h, Nat.max_eq_left hle])
      · exact .inr (List.mem_cons_of_mem m h)
  rcases hmax _ _ h with h | h
  · omega
  · exact List.mem_filterMap.1 h

/-- The longest match takes a character and is one of some entry. -/
theorem longest_spec (h : l.longest text = some (symbol, n)) : 0 < n ∧ n ≤ text.length ∧
    ∃ e ∈ l.entries, e.symbol = symbol ∧ ∃ p ∈ e.branches, p.find text = some n := by
  have hbetter : ∀ (es : List LexiconEntry) (best : Option (Option Symbol × Nat)),
      es.foldl (fun best e => better best e.symbol (matchLength e text)) best = some (symbol, n) →
      best = some (symbol, n) ∨
        ∃ e ∈ es, e.symbol = symbol ∧ matchLength e text = n ∧ 0 < n := by
    intro es
    induction es with
    | nil => exact fun best h => .inl h
    | cons e es ih =>
      intro best h
      rcases ih _ h with h | ⟨e', he', h⟩
      · change better best e.symbol (matchLength e text) = some (symbol, n) at h
        unfold better at h
        split at h
        · split_ifs at h with hlt
          · cases h
            exact .inr ⟨e, List.mem_cons_self, rfl, rfl, Nat.zero_lt_of_lt hlt⟩
          · exact .inl h
        · split_ifs at h with hpos
          cases h
          exact .inr ⟨e, List.mem_cons_self, rfl, rfl, hpos⟩
      · exact .inr ⟨e', List.mem_cons_of_mem e he', h⟩
  rcases hbetter _ _ h with h | ⟨e, he, hsymbol, hlen, hpos⟩
  · cases h
  · obtain ⟨p, hp, hfind⟩ := exists_find_of_matchLength hlen hpos
    exact ⟨hpos, p.find_le hfind, e, he, hsymbol, p, hp, hfind⟩

/-! ## Pieces -/

/-- More fuel than characters is as good as any more. -/
theorem cut_eq_pieces : ∀ {fuel : Nat} {text : List Char}, text.length < fuel →
    l.cut atEnd fuel text = l.pieces atEnd text := by
  have hsame : ∀ {fuel : Nat} (fuel' : Nat) {text : List Char}, text.length < fuel → text.length < fuel' →
      l.cut atEnd fuel text = l.cut atEnd fuel' text := by
    intro fuel
    induction fuel with
    | zero => intro fuel' text h; omega
    | succ fuel ih =>
      intro fuel' text h h'
      obtain ⟨fuel', rfl⟩ := Nat.exists_eq_succ_of_ne_zero (Nat.ne_of_gt (Nat.zero_lt_of_lt h'))
      simp only [cut]
      cases hlongest : l.longest text with
      | none => rfl
      | some found =>
        obtain ⟨symbol, n⟩ := found
        have hpos := longest_spec hlongest
        simp only
        rw [ih fuel' (by rw [List.length_drop]; omega) (by rw [List.length_drop]; omega)]
  exact fun {_ _} h => hsame _ h (Nat.lt_succ_self _)

theorem pieces_of_longest_none (hne : text ≠ []) (h : l.longest text = none) :
    l.pieces atEnd text = ([], if atEnd then .unmatched text else .held text) := by
  simp [pieces, cut, h, hne]

/-- A match that reaches the end of a part waits. -/
theorem pieces_of_longest_all (h : l.longest text = some (symbol, text.length)) :
    l.pieces false text = ([], .held text) := by
  have hpos := (longest_spec h).1
  have hne : text ≠ [] := List.ne_nil_of_length_pos hpos
  simp [pieces, cut, h, hne]

/-- A match is cut off if the text goes on after it, or at the end of the input. -/
theorem pieces_of_longest (h : l.longest text = some (symbol, n))
    (hmore : atEnd = true ∨ n < text.length) : l.pieces atEnd text =
      (⟨symbol, text.take n⟩ :: (l.pieces atEnd (text.drop n)).1,
        (l.pieces atEnd (text.drop n)).2) := by
  obtain ⟨hpos, hle, -⟩ := longest_spec h
  have hne : text ≠ [] := List.ne_nil_of_length_pos (Nat.lt_of_lt_of_le hpos hle)
  have hcut : (!atEnd && decide (n = text.length)) = false := by
    rcases hmore with rfl | hlt
    · rfl
    · simp [Nat.ne_of_lt hlt]
  have hrest : l.cut atEnd text.length (text.drop n) = l.pieces atEnd (text.drop n) :=
    cut_eq_pieces (by rw [List.length_drop]; omega)
  rw [← hrest, pieces, cut]
  simp [h, hne, hcut]

/-- The ways to cut a text: it is empty, nothing matches, the match waits, or the match is
    cut off and the rest is cut. -/
theorem pieces_induction {P : List Char → Prop} (atEnd : Bool) (l : Lexicon) (nil : P [])
    (unmatched : ∀ text, text ≠ [] → l.longest text = none → P text)
    (waits : ∀ text symbol, atEnd = false → l.longest text = some (symbol, text.length) → P text)
    (cutOff : ∀ text symbol n, l.longest text = some (symbol, n) →
      atEnd = true ∨ n < text.length → P (text.drop n) → P text) (text : List Char) : P text := by
  induction hlen : text.length using Nat.strongRecOn generalizing text with
  | ind length ih =>
    by_cases hne : text = []
    · rw [hne]
      exact nil
    · cases hlongest : l.longest text with
      | none => exact unmatched text hne hlongest
      | some found =>
        obtain ⟨symbol, n⟩ := found
        obtain ⟨hpos, hle, -⟩ := longest_spec hlongest
        have hrest := fun hmore => cutOff text symbol n hlongest hmore
          (ih (text.drop n).length (by rw [List.length_drop]; omega) _ rfl)
        rcases Nat.lt_or_eq_of_le hle with hlt | rfl
        · exact hrest (.inr hlt)
        · cases atEnd with
          | true => exact hrest (.inl rfl)
          | false => exact waits text symbol rfl hlongest

/-- Every piece is the longest match of some text. -/
theorem mem_pieces {piece : Piece} (h : piece ∈ (l.pieces atEnd text).1) :
    ∃ rest n, l.longest rest = some (piece.symbol, n) ∧ piece.text = rest.take n := by
  induction text using pieces_induction atEnd l with
  | nil => cases h
  | unmatched text hne hnone =>
    rw [pieces_of_longest_none hne hnone] at h
    cases h
  | waits text symbol hend hlongest =>
    subst hend
    rw [pieces_of_longest_all hlongest] at h
    cases h
  | cutOff text symbol n hlongest hmore ih =>
    rw [pieces_of_longest hlongest hmore] at h
    rcases List.mem_cons.1 h with rfl | h
    · exact ⟨text, n, hlongest, rfl⟩
    · exact ih h

/-- A piece is a longest match of its own text with what may follow it. -/
theorem exists_longest_of_mem_pieces {piece : Piece} (h : piece ∈ (l.pieces atEnd text).1) :
    ∃ rest, l.longest (piece.text ++ rest) = some (piece.symbol, piece.text.length) := by
  obtain ⟨text, n, hlongest, htext⟩ := mem_pieces h
  have hle := (longest_spec hlongest).2.1
  refine ⟨text.drop n, ?_⟩
  rw [htext, List.take_append_drop, List.length_take, Nat.min_eq_left hle]
  exact hlongest

/-- The pieces of a text and what is left make up the text. -/
theorem flatMap_pieces (l : Lexicon) (atEnd : Bool) (text : List Char) :
    (l.pieces atEnd text).1.flatMap Piece.text ++ (l.pieces atEnd text).2.rest = text := by
  induction text using pieces_induction atEnd l with
  | nil => rfl
  | unmatched text hne hnone =>
    rw [pieces_of_longest_none hne hnone]
    cases atEnd <;> rfl
  | waits text symbol hend hlongest =>
    subst hend
    rw [pieces_of_longest_all hlongest]
    rfl
  | cutOff text symbol n hlongest hmore ih =>
    rw [pieces_of_longest hlongest hmore, List.flatMap_cons, List.append_assoc, ih,
      List.take_append_drop]

/-- At the end of the input nothing is left, but for what nothing matches. -/
theorem pieces_true_rest (l : Lexicon) (text : List Char) : (l.pieces true text).2 = .held [] ∨
    ∃ c rest, (l.pieces true text).2 = .unmatched (c :: rest) := by
  induction text using pieces_induction true l with
  | nil => exact .inl rfl
  | unmatched text hne hnone =>
    obtain ⟨c, rest, rfl⟩ := List.exists_cons_of_ne_nil hne
    exact .inr ⟨c, rest, by rw [pieces_of_longest_none hne hnone]; rfl⟩
  | waits text symbol hend _ => cases hend
  | cutOff text symbol n hlongest hmore ih =>
    rw [pieces_of_longest hlongest hmore]
    exact ih

/-- Before the end of the input nothing counts as unmatched. -/
theorem pieces_false_held : (l.pieces false text).2 = .held (l.pieces false text).2.rest := by
  induction text using pieces_induction false l with
  | nil => rfl
  | unmatched text hne hnone =>
    rw [pieces_of_longest_none hne hnone]
    rfl
  | waits text symbol _ hlongest =>
    rw [pieces_of_longest_all hlongest]
    rfl
  | cutOff text symbol n hlongest hmore ih =>
    rw [pieces_of_longest hlongest hmore]
    exact ih

/-! ## Parts -/

/-- The pieces of a text in parts, where the first characters wait, and what is left at
    the end of the input. -/
def cutParts (l : Lexicon) : List Char → List (List Char) → List Piece × Remainder
  | waiting, [] => l.pieces true waiting
  | waiting, part :: rest =>
    let (pieces, remainder) := l.pieces false (waiting ++ part)
    let (more, last) := l.cutParts remainder.rest rest
    (pieces ++ more, last)

/-- The parts of a text are cut into the pieces of the whole text. -/
def Agrees (l : Lexicon) (parts : List (List Char)) : Prop :=
  l.cutParts [] parts = l.pieces true parts.flatten

/-- A match that ends before the end of a text stays the longest when the text goes on. -/
def Stable (l : Lexicon) : Prop :=
  ∀ (v u : List Char) (symbol : Option Symbol) (n : Nat), l.longest u = some (symbol, n) →
    n < u.length → l.longest (u ++ v) = some (symbol, n)

/-- A part of a text can be cut on its own, if its matches stay the longest. -/
theorem pieces_append {v : List Char} (h : ∀ (u : List Char) (symbol : Option Symbol) (n : Nat),
      l.longest u = some (symbol, n) → n < u.length → l.longest (u ++ v) = some (symbol, n))
    (u : List Char) : l.pieces true (u ++ v) =
      ((l.pieces false u).1 ++ (l.pieces true ((l.pieces false u).2.rest ++ v)).1,
        (l.pieces true ((l.pieces false u).2.rest ++ v)).2) := by
  induction u using pieces_induction false l with
  | nil => rfl
  | unmatched u hne hnone =>
    have hwaits : l.pieces false u = ([], .held u) := pieces_of_longest_none hne hnone
    rw [hwaits]
    rfl
  | waits u symbol _ hlongest =>
    rw [pieces_of_longest_all hlongest]
    rfl
  | cutOff u symbol n hlongest hmore ih =>
    have hlt : n < u.length := hmore.resolve_left Bool.false_ne_true
    rw [pieces_of_longest hlongest hmore, pieces_of_longest (h u symbol n hlongest hlt) (.inl rfl),
      List.take_append_of_le_length (Nat.le_of_lt hlt),
      List.drop_append_of_le_length (Nat.le_of_lt hlt), ih]
    rfl

/-- What waits is cut at the end of the input, so the only part of a text is cut as the
    text is. -/
theorem agrees_singleton (l : Lexicon) (text : List Char) : l.Agrees [text] := by
  have hheld := pieces_append (l := l) (v := []) (fun u symbol n h _ => by rwa [List.append_nil]) text
  rw [List.append_nil, List.append_nil] at hheld
  rw [Agrees, List.flatten_singleton, hheld]
  rfl

/-- The parts of a text do not matter, for all texts, exactly if the lexicon is stable. -/
theorem agrees_iff_stable : (∀ parts, l.Agrees parts) ↔ l.Stable := by
  constructor
  · intro h v u symbol n hlongest hlt
    have hparts := h [u, v]
    rw [Agrees, cutParts, List.nil_append, pieces_of_longest hlongest (.inr hlt)] at hparts
    have hfirst := congrArg (fun r => r.1.head?) hparts
    simp only [List.cons_append, List.head?_cons, List.flatten_cons, List.flatten_nil,
      List.append_nil] at hfirst
    have hne : u ++ v ≠ [] := by
      intro he
      rw [(List.append_eq_nil_iff.1 he).1] at hlt
      exact Nat.not_lt_zero _ hlt
    cases hwhole : l.longest (u ++ v) with
    | none =>
      rw [pieces_of_longest_none hne hwhole] at hfirst
      cases hfirst
    | some found =>
      obtain ⟨symbol', n'⟩ := found
      have hle := (longest_spec hwhole).2.1
      rw [pieces_of_longest hwhole (.inl rfl), List.head?_cons, Option.some.injEq,
        Piece.mk.injEq] at hfirst
      have hlen := congrArg List.length hfirst.2
      rw [List.length_take, List.length_take, Nat.min_eq_left (Nat.le_of_lt hlt),
        Nat.min_eq_left hle] at hlen
      rw [hfirst.1, hlen]
  · intro h parts
    have hwaiting : ∀ waiting, l.cutParts waiting parts = l.pieces true (waiting ++ parts.flatten) := by
      induction parts with
      | nil =>
        intro waiting
        rw [List.flatten_nil, List.append_nil]
        rfl
      | cons part rest ih =>
        intro waiting
        rw [List.flatten_cons, ← List.append_assoc, pieces_append (h rest.flatten), ← ih]
        rfl
    exact hwaiting []

end Lexicon

end LanguageWorkbench
