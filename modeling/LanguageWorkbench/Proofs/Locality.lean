import LanguageWorkbench.Proofs.Spelling

/-!
# What the longest match depends on

The longest match depends on the characters it takes and on what assertions tell of the one after
them. This is known of each compiled pattern of a lexicon, if it is known of the engine.

Results:
* `Lexicon.isLocal_of_ofGrammar`: the lexicon of a grammar.
* `Lexicon.longest_agree`: the longest matches in two texts with a common start.
* `Lexicon.longest_cut`: the longest match in a text that is cut off.
-/

namespace LanguageWorkbench.Lexicon

variable {engine : RegexEngine} {word : Char → Bool} {g : Grammar} {lowered : Lowered}
variable {l : Lexicon} {text : List Char} {symbol : Option Symbol} {n : Nat} {d e : Char}

/-! ## Lexicons of grammars -/

/-- What the longest match of a lexicon depends on, where `word` tells the characters that words
    are made of. -/
structure IsLocal (word : Char → Bool) (l : Lexicon) : Prop where
  letters : ∀ c ∈ ['a', 'b', 'é', 'è'], word c = true
  regexes : ∀ entry ∈ l.entries, ∀ r ∈ entry.branches, r.IsLocal word

/-- What is compiled for a pattern comes from the engine. -/
theorem exists_pattern_of_compile {line : Nat} {pattern : String} {branches : List Regex}
    (h : compile engine line pattern = .ok branches) {r : Regex} (hr : r ∈ branches) :
    ∃ part, engine.compile (Regex.atStart part) = .ok r := by
  unfold compile at h
  rw [mapError_eq_ok_iff] at h
  obtain ⟨whole, hwhole, h⟩ := bind_eq_ok_iff.1 h
  split at h
  · rename_i parts _
    obtain ⟨part, -, hpart⟩ := exists_of_forall₂ (mapM_eq_ok_iff.1 h).flip hr
    exact ⟨part, hpart⟩
  · cases h
    obtain rfl := List.mem_singleton.1 hr
    exact ⟨_, hwhole⟩

theorem isLocal_of_ofGrammar (hengine : engine.IsLocal word)
    (h : (ofGrammarWith engine g lowered).result = .ok l) : l.IsLocal word where
  letters := hengine.letters
  regexes entry hentry r hr := by
    obtain ⟨source, -, -, hcompile⟩ := exists_source_of_mem h hentry
    obtain ⟨part, hpart⟩ := exists_pattern_of_compile hcompile hr
    exact hengine.regexes _ r hpart

/-! ## Longest matches in texts with a common start -/

/-- How many characters a match takes. -/
def taken (found : Option (Option Symbol × Nat)) : Nat := found.elim 0 Prod.snd

theorem le_taken_better (best : Option (Option Symbol × Nat)) (symbol : Option Symbol)
    (length : Nat) : taken best ≤ taken (better best symbol length) ∧
      length ≤ taken (better best symbol length) := by
  unfold better
  cases best with
  | none =>
    simp only
    split_ifs with h
    · exact ⟨Nat.zero_le _, Nat.le_refl _⟩
    · exact ⟨Nat.le_refl _, Nat.le_of_not_lt h⟩
  | some found =>
    simp only
    split_ifs with h
    · exact ⟨Nat.le_of_lt h, Nat.le_refl _⟩
    · exact ⟨Nat.le_refl _, Nat.le_of_not_lt h⟩

/-- The longest match is as long as any. -/
theorem exists_longest {entry : LexiconEntry} {r : Regex} (hentry : entry ∈ l.entries)
    (hr : r ∈ entry.branches) (hfind : r.find text = some n) (hn : 0 < n) :
    ∃ symbol longest, l.longest text = some (symbol, longest) ∧ n ≤ longest := by
  have hmatch : n ≤ matchLength entry text :=
    (List.max?_le_iff rfl).1 (Nat.le_refl _) n
      (List.mem_cons_of_mem 0 (List.mem_filterMap.2 ⟨r, hr, hfind⟩))
  have hbest : ∀ (es : List LexiconEntry) (best : Option (Option Symbol × Nat)),
      (n ≤ taken best ∨ entry ∈ es) →
      n ≤ taken (es.foldl (fun best e => better best e.symbol (matchLength e text)) best) := by
    intro es
    induction es with
    | nil => exact fun best h => h.resolve_right List.not_mem_nil
    | cons e' es ih =>
      intro best h
      refine ih _ ?_
      rcases h with h | h
      · exact .inl (Nat.le_trans h (le_taken_better ..).1)
      · rcases List.mem_cons.1 h with rfl | h
        · exact .inl (Nat.le_trans hmatch (le_taken_better ..).2)
        · exact .inr h
  have hle : n ≤ taken (l.longest text) := hbest l.entries none (.inr hentry)
  cases hlongest : l.longest text with
  | none => rw [hlongest] at hle; exact absurd hn (Nat.not_lt_of_le hle)
  | some found => exact ⟨found.1, found.2, rfl, by rwa [hlongest] at hle⟩

/-- The longest match that ends in a common start of two texts is the same, unless one text
    has a match that ends later. -/
theorem longest_agree (hl : l.IsLocal word) (h : Regex.Alike word d e) (u x y : List Char) :
    l.longest (u ++ d :: x) = l.longest (u ++ e :: y) ∨
      ∃ symbol n, u.length < n ∧
        (l.longest (u ++ d :: x) = some (symbol, n) ∨ l.longest (u ++ e :: y) = some (symbol, n)) := by
  by_cases hsame : ∀ entry ∈ l.entries, ∀ r ∈ entry.branches,
      r.find (u ++ d :: x) = r.find (u ++ e :: y)
  · have hlength : ∀ entry ∈ l.entries,
        matchLength entry (u ++ d :: x) = matchLength entry (u ++ e :: y) := by
      intro entry hentry
      unfold matchLength
      rw [List.filterMap_congr (hsame entry hentry)]
    left
    unfold longest
    apply List.foldl_ext
    intro best entry hentry
    rw [hlength entry hentry]
  · right
    push Not at hsame
    obtain ⟨entry, hentry, r, hr, hne⟩ := hsame
    obtain ⟨n, hn, hfind⟩ := ((hl.regexes entry hentry r hr).agree h u x y).resolve_left hne
    have hpos := Nat.zero_lt_of_lt hn
    rcases hfind with hfind | hfind
    · obtain ⟨symbol, longest, hlongest, hle⟩ := exists_longest hentry hr hfind hpos
      exact ⟨symbol, longest, Nat.lt_of_lt_of_le hn hle, .inl hlongest⟩
    · obtain ⟨symbol, longest, hlongest, hle⟩ := exists_longest hentry hr hfind hpos
      exact ⟨symbol, longest, Nat.lt_of_lt_of_le hn hle, .inr hlongest⟩

/-- A longest match that ends where a text is cut off, before no character of a word, stays
    as long. -/
theorem longest_cut (hl : l.IsLocal word) (hd : word d = false) {u x : List Char}
    (hlongest : l.longest (u ++ d :: x) = some (symbol, u.length)) :
    ∃ symbol', l.longest u = some (symbol', u.length) := by
  obtain ⟨hpos, -, entry, hentry, -, r, hr, hfind⟩ := longest_spec hlongest
  have hcut := (hl.regexes entry hentry r hr).cut hd u x hfind
  obtain ⟨symbol', n, hn, hle⟩ := exists_longest hentry hr hcut hpos
  exact ⟨symbol', by rw [hn, Nat.le_antisymm (longest_spec hn).2.1 hle]⟩

end LanguageWorkbench.Lexicon
