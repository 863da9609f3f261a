import LanguageWorkbench.Proofs.Tokenizing
import Mathlib.Data.List.Induction

/-!
# The longest match, and of equals the first

At every place of a text the longest match of any entry is cut off, and it belongs to the
first entry that reaches as far. The tokens are the pieces that have a terminal. A text that
ends is cut up to its end, or up to the first character at which nothing matches, which is
an error. Before that a piece that reaches the end of the text waits, for it might grow.

Results:
* `LexiconEntry.Reaches`: how far an entry matches.
* `Lexicon.isBest_longest`: the first entry that matches most.
* `Lexicon.Takes`, `Lexicon.Unmatched`: what is cut off at the start of a text.
* `Lexicon.Munches`: a text cut piece by piece.
* `Lexicon.Tokenizer.exists_munches`: all answers of a tokenizer, for texts that end and
  for texts that go on.
-/

namespace LanguageWorkbench

/-- The search for some branch of an entry takes this many characters of a text. Where the
    branch is anchored, they are a match at the start of the text. -/
def LexiconEntry.Reaches (e : LexiconEntry) (text : List Char) (n : Nat) : Prop :=
  ∃ p ∈ e.branches, p.find text = some n

namespace Lexicon

variable {l : Lexicon} {text : List Char} {symbol : Option Symbol} {n : Nat}

/-! ## The best entry -/

theorem le_foldl_max (found : List Nat) (best : Nat) :
    best ≤ found.foldl max best ∧ ∀ n ∈ found, n ≤ found.foldl max best := by
  induction found generalizing best with
  | nil => exact ⟨Nat.le_refl _, fun n hn => nomatch hn⟩
  | cons m found ih =>
    obtain ⟨hbest, hfound⟩ := ih (max best m)
    refine ⟨Nat.le_trans (Nat.le_max_left ..) hbest, fun n hn => ?_⟩
    rcases List.mem_cons.1 hn with rfl | hn
    · exact Nat.le_trans (Nat.le_max_right ..) hbest
    · exact hfound n hn

/-- No branch of an entry matches more than its match length. -/
theorem le_matchLength {e : LexiconEntry} (h : e.Reaches text n) : n ≤ matchLength e text := by
  obtain ⟨p, hp, hfind⟩ := h
  exact (le_foldl_max _ 0).2 n (List.mem_filterMap.2 ⟨p, hp, hfind⟩)

theorem reaches_matchLength {e : LexiconEntry} (h : 0 < matchLength e text) :
    e.Reaches text (matchLength e text) := exists_find_of_matchLength rfl h

/-- The best of some entries: none if no entry matches a character, and else the first one that
    matches most, by its symbol and its match length. -/
def IsBest (text : List Char) (es : List LexiconEntry) : Option (Option Symbol × Nat) → Prop
  | none => ∀ e ∈ es, matchLength e text = 0
  | some (symbol, n) => 0 < n ∧ ∃ before e after, es = before ++ e :: after ∧ e.symbol = symbol ∧
    matchLength e text = n ∧ (∀ e' ∈ before, matchLength e' text < n) ∧
    ∀ e' ∈ after, matchLength e' text ≤ n

variable {es : List LexiconEntry} {e : LexiconEntry}

theorem isBest_snoc_of_none (h : IsBest text es none) :
    IsBest text (es ++ [e]) (better none e.symbol (matchLength e text)) := by
  by_cases hpos : 0 < matchLength e text
  · simp only [better, if_pos hpos]
    refine ⟨hpos, es, e, [], rfl, rfl, rfl, fun e' he' => ?_, fun e' he' => nomatch he'⟩
    rw [h e' he']
    exact hpos
  · simp only [better, if_neg hpos]
    intro e' he'
    rcases List.mem_append.1 he' with he' | he'
    · exact h e' he'
    · rw [List.mem_singleton.1 he']
      omega

theorem isBest_snoc_of_some (h : IsBest text es (some (symbol, n))) :
    IsBest text (es ++ [e]) (better (some (symbol, n)) e.symbol (matchLength e text)) := by
  obtain ⟨hpos, before, best, after, rfl, hsymbol, hlen, hbefore, hafter⟩ := h
  by_cases hlt : n < matchLength e text
  · simp only [better, if_pos hlt]
    refine ⟨by omega, before ++ best :: after, e, [], rfl, rfl, rfl, fun e' he' => ?_,
      fun e' he' => nomatch he'⟩
    rcases List.mem_append.1 he' with he' | he'
    · exact Nat.lt_trans (hbefore e' he') hlt
    · rcases List.mem_cons.1 he' with rfl | he'
      · rw [hlen]
        exact hlt
      · exact Nat.lt_of_le_of_lt (hafter e' he') hlt
  · simp only [better, if_neg hlt]
    refine ⟨hpos, before, best, after ++ [e], by simp, hsymbol, hlen, hbefore, fun e' he' => ?_⟩
    rcases List.mem_append.1 he' with he' | he'
    · exact hafter e' he'
    · rw [List.mem_singleton.1 he']
      omega

/-- One entry after the other is compared with the best so far. -/
theorem isBest_longest (l : Lexicon) (text : List Char) : IsBest text l.entries (l.longest text) := by
  unfold Lexicon.longest
  -- the last entry is compared last, so the induction takes it off
  induction l.entries using List.reverseRecOn with
  | nil => exact fun e he => nomatch he
  | append_singleton es e ih =>
    rw [List.foldl_append]
    show IsBest text (es ++ [e]) (better (es.foldl _ none) e.symbol (matchLength e text))
    generalize es.foldl (fun best e => better best e.symbol (matchLength e text)) none = best at ih ⊢
    cases best with
    | none => exact isBest_snoc_of_none ih
    | some found => exact isBest_snoc_of_some ih

/-! ## What is cut off -/

/-- The piece at the start of a text: it takes a character, no entry matches more, and the
    first entry that matches as much has its terminal. -/
structure Takes (l : Lexicon) (text : List Char) (piece : Piece) : Prop where
  nonempty : piece.text ≠ []
  longest : ∀ e ∈ l.entries, ∀ n, e.Reaches text n → n ≤ piece.text.length
  earliest : ∃ before e after, l.entries = before ++ e :: after ∧ e.symbol = piece.symbol ∧
    e.Reaches text piece.text.length ∧ ∀ e' ∈ before, ¬ e'.Reaches text piece.text.length

/-- No entry matches a character at the start of a text. -/
def Unmatched (l : Lexicon) (text : List Char) : Prop :=
  ∀ e ∈ l.entries, ∀ n, e.Reaches text n → n = 0

theorem unmatched_of_longest (h : l.longest text = none) : l.Unmatched text := by
  have hspec := isBest_longest l text
  rw [h] at hspec
  intro e he n hn
  have hle := le_matchLength hn
  rw [hspec e he] at hle
  exact Nat.le_zero.1 hle

theorem takes_of_longest (h : l.longest text = some (symbol, n)) :
    l.Takes text ⟨symbol, text.take n⟩ := by
  have hspec := isBest_longest l text
  rw [h] at hspec
  obtain ⟨hpos, before, e, after, hentries, hsymbol, hlen, hbefore, hafter⟩ := hspec
  have htake : (text.take n).length = n := by
    rw [List.length_take, Nat.min_eq_left (longest_spec h).2.1]
  refine ⟨List.ne_nil_of_length_pos (by rw [htake]; exact hpos), fun e' he' m hm => ?_, ?_⟩
  · show m ≤ (text.take n).length
    rw [htake]
    rw [hentries] at he'
    rcases List.mem_append.1 he' with he' | he'
    · exact Nat.le_trans (le_matchLength hm) (Nat.le_of_lt (hbefore e' he'))
    · rcases List.mem_cons.1 he' with rfl | he'
      · exact Nat.le_trans (le_matchLength hm) (Nat.le_of_eq hlen)
      · exact Nat.le_trans (le_matchLength hm) (hafter e' he')
  · show ∃ before e after, _ ∧ _ ∧ LexiconEntry.Reaches e text (text.take n).length ∧ _
    rw [htake]
    refine ⟨before, e, after, hentries, hsymbol, ?_, fun e' he' hreaches => ?_⟩
    · rw [← hlen]
      exact reaches_matchLength (by rw [hlen]; exact hpos)
    · exact absurd (le_matchLength hreaches) (Nat.not_le_of_lt (hbefore e' he'))

/-! ## Piece by piece -/

/-- `Munches l text pieces rest`: from a text the pieces are cut off, one after the other,
    and `rest` is left. -/
inductive Munches (l : Lexicon) : List Char → List Piece → List Char → Prop
  | stop (text : List Char) : Munches l text [] text
  | cut {piece : Piece} {text rest : List Char} {pieces : List Piece}
    (htakes : l.Takes (piece.text ++ text) piece) (h : Munches l text pieces rest) :
    Munches l (piece.text ++ text) (piece :: pieces) rest

/-- A text that ends is cut up to its end or to a place where nothing matches. -/
theorem munches_pieces (l : Lexicon) (text : List Char) : ∃ rest,
    (l.pieces true text).2.rest = rest ∧ l.Munches text (l.pieces true text).1 rest ∧
      (rest = [] ∨ (l.pieces true text).2 = .unmatched rest ∧ rest ≠ [] ∧ l.Unmatched rest) := by
  induction text using pieces_induction true l with
  | nil => exact ⟨[], rfl, .stop [], .inl rfl⟩
  | unmatched text hne hnone =>
    rw [pieces_of_longest_none hne hnone]
    exact ⟨text, rfl, .stop text, .inr ⟨rfl, hne, unmatched_of_longest hnone⟩⟩
  | waits text symbol hend => cases hend
  | cutOff text symbol n hlongest hmore ih =>
    obtain ⟨rest, hrest, hmunches, hends⟩ := ih
    rw [pieces_of_longest hlongest hmore]
    refine ⟨rest, hrest, ?_, hends⟩
    have hcut : l.Munches (text.take n ++ text.drop n)
        (⟨symbol, text.take n⟩ :: (l.pieces true (text.drop n)).1) rest := by
      refine @Munches.cut l ⟨symbol, text.take n⟩ _ _ _ ?_ hmunches
      show l.Takes (text.take n ++ text.drop n) _
      rw [List.take_append_drop]
      exact takes_of_longest hlongest
    rwa [List.take_append_drop] at hcut

/-- The pieces that do not wait when more text may follow: all but one that reaches the end
    of the text. -/
def settled (pieces : List Piece) (rest : List Char) : List Piece :=
  if rest = [] then pieces.dropLast else pieces

/-- Before the end of the input the same pieces are cut off, except for one that reaches the
    end of the text. -/
theorem pieces_false_eq (l : Lexicon) (text : List Char) : (l.pieces false text).1 =
    settled (l.pieces true text).1 (l.pieces true text).2.rest := by
  induction text using pieces_induction false l with
  | nil => rfl
  | unmatched text hne hnone =>
    rw [pieces_of_longest_none hne hnone, pieces_of_longest_none hne hnone]
    exact (if_neg hne).symm
  | waits text symbol _ hlongest =>
    rw [pieces_of_longest_all hlongest, pieces_of_longest hlongest (.inl rfl), List.drop_length]
    rfl
  | cutOff text symbol n hlongest hmore ih =>
    have hlt : n < text.length := hmore.resolve_left Bool.false_ne_true
    rw [pieces_of_longest hlongest hmore, pieces_of_longest hlongest (.inl rfl), ih]
    have hwhole := flatMap_pieces l true (text.drop n)
    unfold settled
    by_cases hrest : (l.pieces true (text.drop n)).2.rest = []
    · have hmore : (l.pieces true (text.drop n)).1 ≠ [] := by
        intro hnil
        rw [hnil, hrest] at hwhole
        have hlen := congrArg List.length hwhole
        rw [List.length_drop] at hlen
        exact absurd hlen (by simp; omega)
      rw [if_pos hrest, if_pos hrest, List.dropLast_cons_of_ne_nil hmore]
    · rw [if_neg hrest, if_neg hrest]

/-- What is left before the end of the input begins where the last settled piece ends. -/
theorem rest_pieces_false_eq (l : Lexicon) (text : List Char) :
    (l.pieces false text).2 = .held (text.drop ((l.pieces false text).1.flatMap Piece.text).length) := by
  induction text using pieces_induction false l with
  | nil => rfl
  | unmatched text hne hnone => rw [pieces_of_longest_none hne hnone]; rfl
  | waits text symbol _ hlongest => rw [pieces_of_longest_all hlongest]; rfl
  | cutOff text symbol n hlongest hmore ih =>
    have hle := (longest_spec hlongest).2.1
    rw [pieces_of_longest hlongest hmore]
    show (l.pieces false (text.drop n)).2 = _
    rw [ih, List.flatMap_cons, List.length_append, List.length_take, Nat.min_eq_left hle,
      List.drop_drop]

/-! ## Tokens -/

/-- The tokens of pieces: those with a terminal, each at the location that all text before it
    leads to. -/
def tokensOf (location : Location) (pieces : List Piece) : List Token :=
  pieces.zipIdx.filterMap fun (piece, i) => piece.symbol.map fun symbol =>
    ⟨symbol, String.ofList piece.text, location.advance ((pieces.take i).flatMap Piece.text)⟩

theorem tokensOf_eq (location : Location) (pieces : List Piece) :
    tokensOf location pieces = (tokensFrom location pieces).1 := by
  induction pieces generalizing location with
  | nil => rfl
  | cons piece pieces ih =>
    have hstep : ∀ x : Piece × Nat, (x.1.symbol.map fun symbol => (⟨symbol, String.ofList x.1.text,
          location.advance (((piece :: pieces).take (x.2 + 1)).flatMap Piece.text)⟩ : Token)) =
        x.1.symbol.map fun symbol => ⟨symbol, String.ofList x.1.text,
          (location.advance piece.text).advance ((pieces.take x.2).flatMap Piece.text)⟩ := by
      intro x
      rw [List.take_succ_cons, List.flatMap_cons, Location.advance_append]
    rw [tokensOf, List.zipIdx_cons, List.zipIdx_succ, List.filterMap_cons, List.filterMap_map]
    simp only [Function.comp_def, hstep]
    cases hsymbol : piece.symbol <;> simp [tokensFrom, hsymbol, ← ih, tokensOf]

namespace Tokenizer

/-! ## Answers -/

/-- At the end of the input the answers are the tokens and, if text is left, an error. -/
theorem itemsOf_true {rest : List Char} (hrest : (l.pieces true text).2.rest = rest)
    (hends : rest = [] ∨ (l.pieces true text).2 = .unmatched rest ∧ rest ≠ [])
    (location : Location) : itemsOf location (l.pieces true text).1 (l.pieces true text).2 =
      (tokensOf location (l.pieces true text).1).map .ok ++ (rest.head?.map fun c =>
        .error (.lexical (location.advance ((l.pieces true text).1.flatMap Piece.text)) c)).toList := by
  rw [itemsOf, tokensOf_eq, tokensFrom_snd]
  rcases hends with rfl | ⟨hunmatched, hne⟩
  · cases hkind : (l.pieces true text).2 with
    | held rest => rfl
    | unmatched rest =>
      rw [hkind] at hrest
      obtain rfl : rest = [] := hrest
      rfl
  · obtain ⟨c, cs, rfl⟩ := List.exists_cons_of_ne_nil hne
    rw [hunmatched]
    rfl

/-- Before the end of the input the answers are the tokens among the pieces that do not wait. -/
theorem itemsOf_false (l : Lexicon) (location : Location) (text : List Char) :
    itemsOf location (l.pieces false text).1 (l.pieces false text).2 =
      (tokensOf location (settled (l.pieces true text).1 (l.pieces true text).2.rest)).map .ok := by
  rw [itemsOf, rest_pieces_false_eq, tokensOf_eq, pieces_false_eq]
  exact List.append_nil _

/-- The text of a lexicon is cut by the longest matches, of equals by that of the first entry.
    At the end of the input the calls answer the tokens among the pieces and then, if text is
    left, the error at its first character, and then nothing. Before the end of the input they
    answer the tokens among the pieces that do not wait, and no error, and they leave the text
    after these pieces. -/
theorem exists_munches (l : Lexicon) (location : Location) (text : List Char) :
    ∃ pieces rest, l.Munches text pieces rest ∧ (rest = [] ∨ l.Unmatched rest) ∧
      (∀ count, (new l true location text).answer count =
        ((tokensOf location pieces).map .ok ++ (rest.head?.map fun c =>
          .error (.lexical (location.advance (pieces.flatMap Piece.text)) c)).toList)[count]?) ∧
      (∀ count, (new l false location text).answer count =
        ((tokensOf location (settled pieces rest)).map .ok)[count]?) ∧
      ∀ count, (tokensOf location (settled pieces rest)).length < count →
        ((new l false location text).after count).consumed =
            (String.ofList ((settled pieces rest).flatMap Piece.text)).utf8ByteSize ∧
          ((new l false location text).after count).location =
            location.advance ((settled pieces rest).flatMap Piece.text) ∧
          (settled pieces rest).flatMap Piece.text ++
            ((new l false location text).after count).rest = text := by
  obtain ⟨rest, hrest, hmunches, hends⟩ := munches_pieces l text
  obtain ⟨last, hwhole⟩ := exists_cuts_new l true location text
  obtain ⟨held, hpart⟩ := exists_cuts_new l false location text
  have hsettled := pieces_false_eq l text
  have hitems := itemsOf_false l location text
  rw [hrest] at hsettled hitems
  refine ⟨(l.pieces true text).1, rest, hmunches, hends.imp_right fun h => h.2.2, fun count => ?_,
    fun count => ?_, fun count hcount => ?_⟩
  · rw [hwhole.runs.answer_eq]
    show (itemsOf location _ _)[count]? = _
    rw [itemsOf_true hrest (hends.imp_right fun h => ⟨h.1, h.2.1⟩)]
  · rw [hpart.runs.answer_eq, ← hitems]
    rfl
  · have hlast : (new l false location text).after count = held := by
      refine hpart.runs.after_eq ?_
      show (itemsOf location _ _).length < count
      rw [hitems, List.length_map]
      exact hcount
    rw [hlast, hpart.consumed, hpart.location, hpart.rest, ← hsettled]
    exact ⟨Nat.zero_add _, rfl, flatMap_pieces l false text⟩

end Tokenizer

end Lexicon

end LanguageWorkbench
