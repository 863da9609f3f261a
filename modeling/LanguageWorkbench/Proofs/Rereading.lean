import LanguageWorkbench.Proofs.Locality
import LanguageWorkbench.Proofs.OnePass
import Mathlib.Data.List.TakeWhile

/-!
# Texts that are read back

Some terminals are read from their texts, whatever follows, as long as nothing follows or a
blank does. Then no match that is skipped can swallow them: what it takes would depend on
characters that are not there yet. So the terminals are the first matches, and what follows
is cut as if it stood alone.

Results:
* `Lexicon.SkipsBlanks`: spaces and line feeds are skipped up to the next other character.
* `Lexicon.Rereads`: terminals that are read from their texts.
* `Lexicon.Rereads.longest_eq`: the first of them is the longest match.
* `Lexicon.Rereads.terminals_append`: what follows is cut on its own.
-/

namespace LanguageWorkbench

namespace Lexicon

variable {word : Char → Bool} {l : Lexicon} {rest text : List Char} {t : Terminal}
variable {ts : List Terminal}

/-! ## Words -/

/-- Before another character of a word assertions hold alike. -/
theorem IsLocal.exists_alike (hlocal : l.IsLocal word) {d : Char} (hd : word d = true)
    (text : List Char) : ∃ e, [e] ≠ text ∧ Regex.Alike word d e := by
  have hother : ∀ a b : Char, a ≠ b → Regex.Alike word d a → Regex.Alike word d b →
      ∃ e, [e] ≠ text ∧ Regex.Alike word d e := by
    intro a b hne ha hb
    by_cases htext : [a] = text
    · refine ⟨b, ?_, hb⟩
      rintro rfl
      exact hne (List.singleton_inj.1 htext)
    · exact ⟨a, htext, ha⟩
  have halike : ∀ e ∈ ['a', 'b', 'é', 'è'], (d.toNat < 128 ↔ e.toNat < 128) →
      Regex.Alike word d e := fun e he hascii => .inr ⟨hd, hlocal.letters e he, hascii⟩
  by_cases hascii : d.toNat < 128
  · exact hother 'a' 'b' (by decide) (halike 'a' (by decide) (iff_of_true hascii (by decide)))
      (halike 'b' (by decide) (iff_of_true hascii (by decide)))
  · exact hother 'é' 'è' (by decide) (halike 'é' (by decide) (iff_of_false hascii (by decide)))
      (halike 'è' (by decide) (iff_of_false hascii (by decide)))

/-! ## Blanks -/

/-- Spaces and line feeds. -/
def Blank (c : Char) : Prop := c = ' ' ∨ c = '\n'

instance : DecidablePred Blank := fun c => inferInstanceAs (Decidable (c = ' ' ∨ c = '\n'))

/-- Nothing follows, or a blank does. -/
def Parted (rest : List Char) : Prop := ∀ c ∈ rest.head?, Blank c

/-- Blanks are skipped up to the next other character or to the end. -/
def SkipsBlanks (l : Lexicon) : Prop :=
  ∀ blanks rest : List Char, blanks ≠ [] → (∀ c ∈ blanks, Blank c) →
    (∀ c ∈ rest.head?, ¬ Blank c) → l.longest (blanks ++ rest) = some (none, blanks.length)

/-- The text of terminals one after the other. -/
def spelling (ts : List Terminal) : List Char := ts.flatMap fun t => t.2.toList

/-- The terminals are the first that are read from their text, whatever blanks and more
    follow. -/
def Rereads (l : Lexicon) (ts : List Terminal) : Prop :=
  ∀ rest, Parted rest → ts <+: terminals (l.pieces true (spelling ts ++ rest)).1

/-! ## The first match -/

@[simp] theorem spelling_cons (t : Terminal) (ts : List Terminal) :
    spelling (t :: ts) = t.2.toList ++ spelling ts := rfl

theorem terminals_token (t : Terminal) (pieces : List Piece) :
    terminals (⟨some t.1, t.2.toList⟩ :: pieces) = t :: terminals pieces := by
  simp [terminals]

theorem spelling_terminals_sublist (pieces : List Piece) :
    (spelling (terminals pieces)).Sublist (pieces.flatMap Piece.text) := by
  induction pieces with
  | nil => exact .slnil
  | cons piece pieces ih =>
    rw [List.flatMap_cons]
    cases hsymbol : piece.symbol with
    | none =>
      have hskip : terminals (piece :: pieces) = terminals pieces := by simp [terminals, hsymbol]
      rw [hskip]
      exact ih.trans (List.sublist_append_right ..)
    | some symbol =>
      have htoken : terminals (piece :: pieces) =
          (symbol, String.ofList piece.text) :: terminals pieces := by simp [terminals, hsymbol]
      rw [htoken, spelling_cons, String.toList_ofList]
      exact (List.Sublist.refl _).append ih

/-- What is read first is the longest match, or a match that is skipped and leaves enough
    characters for all that is read. -/
theorem longest_of_prefix (h : t :: ts <+: terminals (l.pieces true text).1) :
    l.longest text = some (some t.1, t.2.toList.length) ∨
      ∃ k, l.longest text = some (none, k) ∧ (spelling (t :: ts)).Sublist (text.drop k) := by
  have hne : text ≠ [] := by
    rintro rfl
    exact absurd h.length_le (Nat.not_succ_le_zero _)
  cases hlongest : l.longest text with
  | none =>
    rw [pieces_of_longest_none hne hlongest] at h
    exact absurd h.length_le (Nat.not_succ_le_zero _)
  | some found =>
    obtain ⟨symbol, n⟩ := found
    have hle := (longest_spec hlongest).2.1
    rw [pieces_of_longest hlongest (.inl rfl)] at h
    cases symbol with
    | none =>
      refine .inr ⟨n, rfl, ?_⟩
      have hrest : t :: ts <+: terminals (l.pieces true (text.drop n)).1 := h
      obtain ⟨more, hmore⟩ := hrest
      have hspelling : spelling (t :: ts) <+: spelling (terminals (l.pieces true (text.drop n)).1) :=
        ⟨spelling more, by rw [← hmore]; exact (List.flatMap_append ..).symm⟩
      have htext : (l.pieces true (text.drop n)).1.flatMap Piece.text <+: text.drop n :=
        ⟨_, flatMap_pieces l true (text.drop n)⟩
      exact (hspelling.sublist.trans (spelling_terminals_sublist _)).trans htext.sublist
    | some symbol =>
      have hfirst : t :: ts <+: (symbol, String.ofList (text.take n)) ::
          terminals (l.pieces true (text.drop n)).1 := h
      obtain ⟨rfl, -⟩ := List.cons_prefix_cons.1 hfirst
      rw [String.toList_ofList, List.length_take, Nat.min_eq_left hle]
      exact .inl rfl

/-! ## No match is skipped -/

theorem Rereads.longest_cases (hreads : l.Rereads (t :: ts)) (hrest : Parted rest) :
    l.longest (spelling (t :: ts) ++ rest) = some (some t.1, t.2.toList.length) ∨
      ∃ k, l.longest (spelling (t :: ts) ++ rest) = some (none, k) ∧
        (spelling (t :: ts)).Sublist ((spelling (t :: ts) ++ rest).drop k) :=
  longest_of_prefix (hreads rest hrest)

/-- On its own the text of the terminals starts with the first of them. -/
theorem Rereads.longest_self (hreads : l.Rereads (t :: ts)) :
    l.longest (spelling (t :: ts)) = some (some t.1, t.2.toList.length) := by
  rcases hreads.longest_cases (nofun : Parted []) with h | ⟨k, hk, hsub⟩
  · rwa [List.append_nil] at h
  · rw [List.append_nil] at hk hsub
    have hpos := longest_spec hk
    have hlen := hsub.length_le
    rw [List.length_drop] at hlen
    omega

theorem Rereads.spelling_ne_nil (hreads : l.Rereads (t :: ts)) : spelling (t :: ts) ≠ [] := by
  intro h
  have hself := longest_spec hreads.longest_self
  rw [h] at hself
  exact absurd hself.2.1 (Nat.not_le_of_lt hself.1)

/-- A longest match that goes beyond the text of the terminals is skipped and leaves enough
    characters for all of them. -/
theorem Rereads.sublist_of_longest (hreads : l.Rereads (t :: ts)) (hrest : Parted rest)
    {symbol : Option Symbol} {n : Nat}
    (h : l.longest (spelling (t :: ts) ++ rest) = some (symbol, n))
    (hn : (spelling (t :: ts)).length < n) :
    (spelling (t :: ts)).Sublist ((spelling (t :: ts) ++ rest).drop n) := by
  rcases hreads.longest_cases hrest with ht | ⟨k, hk, hsub⟩
  · rw [ht] at h
    cases h
    have hself := (longest_spec hreads.longest_self).2.1
    omega
  · rw [hk] at h
    cases h
    exact hsub

theorem Parted.append {v : List Char} (hv : Parted v) (hne : v ≠ []) (x : List Char) :
    Parted (v ++ x) := by
  cases v with
  | nil => exact absurd rfl hne
  | cons b v => exact hv

/-- No longest match ends after the first blank behind the terminals: how the text goes on
    after the match can be changed, so that not enough characters are left. -/
theorem Rereads.longest_ne (hlocal : l.IsLocal word) (hreads : l.Rereads (t :: ts))
    {v : List Char} (hne : v ≠ [])
    (hv : Parted v) (x : List Char) (symbol : Option Symbol) :
    l.longest (spelling (t :: ts) ++ v ++ x) ≠ some (symbol, (spelling (t :: ts) ++ v).length) := by
  intro hlongest
  have hself := longest_spec hreads.longest_self
  have hbeyond : (spelling (t :: ts)).length < (spelling (t :: ts) ++ v).length := by
    have := List.length_pos_iff.2 hne
    rw [List.length_append]
    omega
  -- if a single character follows at most, then it is all the terminals
  have hall : ∀ (e : List Char) {symbol : Option Symbol} {n : Nat}, e.length ≤ 1 →
      l.longest (spelling (t :: ts) ++ v ++ e) = some (symbol, n) →
      (spelling (t :: ts) ++ v).length ≤ n → spelling (t :: ts) = e := by
    intro e symbol n he hlongest hn
    rw [List.append_assoc] at hlongest
    have hsub := hreads.sublist_of_longest (hv.append hne e) hlongest
      (Nat.lt_of_lt_of_le hbeyond hn)
    rw [← List.append_assoc, List.drop_append, List.drop_eq_nil_of_le hn, List.nil_append] at hsub
    exact (hsub.trans (List.drop_sublist ..)).eq_of_length_le (by omega)
  have hnil : ∀ symbol, l.longest (spelling (t :: ts) ++ v) ≠
      some (symbol, (spelling (t :: ts) ++ v).length) := by
    intro symbol h
    exact hreads.spelling_ne_nil (hall [] (Nat.zero_le 1) (by rwa [List.append_nil]) (Nat.le_refl _))
  cases x with
  | nil => exact hnil symbol (by rwa [List.append_nil] at hlongest)
  | cons d x =>
    cases hword : word d with
    | false =>
      obtain ⟨symbol', hcut⟩ := longest_cut hlocal hword hlongest
      exact hnil symbol' hcut
    | true =>
      obtain ⟨e, he, halike⟩ := hlocal.exists_alike hword (spelling (t :: ts))
      rcases longest_agree hlocal halike (spelling (t :: ts) ++ v) x [] with
        h | ⟨symbol', n, hn, h | h⟩
      · rw [hlongest] at h
        exact he (hall [e] (Nat.le_refl 1) h.symm (Nat.le_refl _)).symm
      · rw [hlongest] at h
        cases h
        exact Nat.lt_irrefl _ hn
      · exact he (hall [e] (Nat.le_refl 1) h (Nat.le_of_lt hn)).symm

section

variable (hspaces : l.SkipsBlanks) (hreads : l.Rereads (t :: ts))

section

include hspaces hreads

theorem Rereads.head_not_blank : ∀ c ∈ (spelling (t :: ts)).head?, ¬ Blank c := by
  intro c hc hblank
  have hself := hreads.longest_self
  obtain ⟨s, hs⟩ : ∃ s, spelling (t :: ts) = c :: s := List.head?_eq_some_iff.1 hc
  have hskip := hspaces ((c :: s).takeWhile (Blank ·)) ((c :: s).dropWhile (Blank ·))
    (by simp [hblank])
    (fun b hb => by simpa using List.mem_takeWhile_imp hb)
    (fun b hb => by
      have := List.head?_dropWhile_not (Blank ·) (c :: s)
      rw [hb] at this
      simpa using this)
  rw [List.takeWhile_append_dropWhile, ← hs, hself] at hskip
  cases hskip

/-- Before a single blank the text of the terminals starts with the first of them. -/
theorem Rereads.longest_blank {b : Char} (hb : Blank b) :
    l.longest (spelling (t :: ts) ++ [b]) = some (some t.1, t.2.toList.length) := by
  have hparted : Parted [b] := fun c hc => Option.some.inj hc ▸ hb
  rcases hreads.longest_cases hparted with h | ⟨k, hk, hsub⟩
  · exact h
  · exfalso
    have hpos := (longest_spec hk).1
    have hlen := hsub.length_le
    have hself := longest_spec hreads.longest_self
    rw [List.length_drop, List.length_append, List.length_singleton] at hlen
    obtain rfl : k = 1 := by omega
    cases hs : spelling (t :: ts) with
    | nil => exact hreads.spelling_ne_nil hs
    | cons c s =>
      rw [hs] at hsub
      have hshift : c :: s = s ++ [b] := hsub.eq_of_length (by simp)
      have hcount := congrArg (List.count c) hshift
      rw [List.count_cons_self, List.count_append, Nat.add_left_cancel_iff] at hcount
      have hc : b = c := by
        by_contra hne
        rw [List.count_singleton] at hcount
        simp [hne] at hcount
      exact hreads.head_not_blank hspaces c (by rw [hs]; rfl) (hc ▸ hb)

end

variable (hlocal : l.IsLocal word)

include hspaces hreads hlocal

/-- The first of the terminals is the longest match, whatever blanks and more follow. -/
theorem Rereads.longest_eq (hrest : Parted rest) :
    l.longest (spelling (t :: ts) ++ rest) = some (some t.1, t.2.toList.length) := by
  rcases hreads.longest_cases hrest with h | ⟨k, hk, hsub⟩
  · exact h
  exfalso
  obtain ⟨hpos, hle, -⟩ := longest_spec hk
  have hself := longest_spec hreads.longest_self
  have hlen := hsub.length_le
  rw [List.length_drop, List.length_append] at hlen
  rw [List.length_append] at hle
  cases rest with
  | nil => rw [List.length_nil] at hlen; omega
  | cons b c =>
    have hb : Blank b := hrest b rfl
    by_cases hshort : k ≤ (spelling (t :: ts)).length
    · -- the match depends on no more than the first blank
      rcases longest_agree hlocal (.inl rfl) (spelling (t :: ts)) c [] with
        h | ⟨symbol, n, hn, h | h⟩
      · rw [hk, hreads.longest_blank hspaces hb] at h
        cases h
      · rw [hk] at h
        cases h
        omega
      · rw [hreads.longest_blank hspaces hb] at h
        cases h
        omega
    · -- the match takes some more, and depends on no more than the sort of what follows
      obtain ⟨j, rfl⟩ : ∃ j, k = (spelling (t :: ts)).length + (j + 1) :=
        ⟨k - (spelling (t :: ts)).length - 1, by omega⟩
      have hj : ((b :: c).take (j + 1)).length = j + 1 := by rw [List.length_take]; omega
      refine hreads.longest_ne hlocal (v := (b :: c).take (j + 1)) (by simp) (by simpa [Parted] using hb)
        ((b :: c).drop (j + 1)) none ?_
      rw [List.append_assoc, List.take_append_drop, List.length_append, hj]
      exact hk

/-- The first of the terminals is the first piece, and the others and what follows are cut
    as they would be on their own. -/
theorem Rereads.pieces_eq (hrest : Parted rest) :
    l.pieces true (spelling (t :: ts) ++ rest) =
      (⟨some t.1, t.2.toList⟩ :: (l.pieces true (spelling ts ++ rest)).1,
        (l.pieces true (spelling ts ++ rest)).2) := by
  rw [pieces_of_longest (hreads.longest_eq hspaces hlocal hrest) (.inl rfl), spelling_cons,
    List.append_assoc, List.take_left, List.drop_left]

end

/-! ## What follows -/

theorem Rereads.tail (hlocal : l.IsLocal word) (hspaces : l.SkipsBlanks)
    (hreads : l.Rereads (t :: ts)) : l.Rereads ts := by
  intro rest hrest
  have hprefix := hreads rest hrest
  rw [hreads.pieces_eq hspaces hlocal hrest] at hprefix
  exact (List.cons_prefix_cons.1 hprefix).2

/-- Terminals that are read from their texts are read first, and what follows is cut as if
    it stood alone. -/
theorem Rereads.terminals_append (hlocal : l.IsLocal word) (hspaces : l.SkipsBlanks)
    (hreads : l.Rereads ts)
    (hrest : Parted rest) :
    terminals (l.pieces true (spelling ts ++ rest)).1 = ts ++ terminals (l.pieces true rest).1 ∧
      (l.pieces true (spelling ts ++ rest)).2 = (l.pieces true rest).2 := by
  induction ts with
  | nil => exact ⟨rfl, rfl⟩
  | cons t ts ih =>
    obtain ⟨hterminals, hrest'⟩ := ih (hreads.tail hlocal hspaces)
    rw [hreads.pieces_eq hspaces hlocal hrest]
    refine ⟨?_, hrest'⟩
    rw [terminals_token, hterminals]
    rfl

end Lexicon

end LanguageWorkbench
