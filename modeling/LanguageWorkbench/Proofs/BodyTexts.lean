import LanguageWorkbench.Proofs.Outcome
import LanguageWorkbench.Source.Element
import Mathlib.Tactic.Common

/-!
# Body lines are read back

The elements of a body line can be written back: each name as it was, in quotes exactly if it
was quoted, with its suffix, and single blanks between. No element loses anything on the way
through a reading, since a word is nothing but its name, its quotes and its suffix. What blanks
stand between the words makes no difference.

Results:
* `Source.Element.written_of_parse`: an element is written as the word it was read from.
* `Source.Line.parse_append`: reading a line, word by word.
* `Source.Line.parse_written_of_parse`: a line that was read is read back.
-/

namespace LanguageWorkbench.Source

open Text (isBlank isSolid trimLeft trim)

/-! ## Words -/

/-- A word of a body line: a name in quotes with what is attached to it, or a run without blanks
    that does not begin with a quote. -/
inductive Word : List Char → Prop
  | quoted {name attached : List Char} (hname : '\'' ∉ name) (hattached : isSolid attached = true) :
      Word ('\'' :: (name ++ '\'' :: attached))
  | bare {c : Char} {cs : List Char} (hc : c ≠ '\'') (hsolid : isSolid (c :: cs) = true) :
      Word (c :: cs)

variable {word rest cs : List Char} {c : Char} {e : Element}

theorem Word.exists_cons (h : Word word) : ∃ c cs, word = c :: cs ∧ isBlank c = false := by
  cases h with
  | quoted => exact ⟨_, _, rfl, rfl⟩
  | bare _ hsolid =>
    exact ⟨_, _, rfl, Text.isBlank_of_mem_of_isSolid hsolid List.mem_cons_self⟩

theorem span_quote {name : List Char} (h : '\'' ∉ name) (cs : List Char) :
    (name ++ '\'' :: cs).takeWhile (· != '\'') = name ∧
      (name ++ '\'' :: cs).dropWhile (· != '\'') = '\'' :: cs := by
  refine Text.span_append (fun c hc => ?_) (by simp)
  rw [bne_iff_ne]
  rintro rfl
  exact h hc

/-- A run without blanks ends where a blank follows or nothing. -/
theorem span_solid (h : isSolid cs = true) (hrest : ∀ c ∈ rest.head?, isBlank c = true) :
    (cs ++ rest).takeWhile (!isBlank ·) = cs ∧ (cs ++ rest).dropWhile (!isBlank ·) = rest :=
  Text.span_append (List.all_eq_true.1 h) fun c hc => by rw [hrest c hc, Bool.not_true]

theorem isSolid_takeWhile (cs : List Char) : isSolid (cs.takeWhile (!isBlank ·)) = true :=
  List.all_takeWhile

namespace Line

/-- The first word of a line is cut off where a blank follows or nothing. -/
theorem cut_append (h : Word word) (hrest : ∀ c ∈ rest.head?, isBlank c = true) :
    cut (word ++ rest) = .ok (word, rest) := by
  cases h with
  | @quoted name attached hname hattached =>
    obtain ⟨htake, hdrop⟩ := span_quote hname (attached ++ rest)
    obtain ⟨htake', hdrop'⟩ := span_solid hattached hrest
    simp only [List.cons_append, List.append_assoc, cut, htake, hdrop, htake', hdrop']
  | @bare c cs hc hsolid =>
    obtain ⟨htake, hdrop⟩ := span_solid hsolid hrest
    rw [List.cons_append] at htake hdrop ⊢
    unfold cut
    split
    · rename_i heq
      exact absurd (List.cons.inj heq).1 hc
    · rw [htake, hdrop]

/-- What is cut off is a word that begins as the line does. -/
theorem word_of_cut (hc : isBlank c = false) (h : cut (c :: cs) = .ok (word, rest)) :
    Word word ∧ word.head? = some c := by
  unfold cut at h
  split at h
  · rename_i cs' heq
    split at h
    · cases h
    · rename_i close tail hdrop
      cases heq
      simp only [Except.ok.injEq, Prod.mk.injEq] at h
      -- where the name ends there is a quote
      have hclose := List.head?_dropWhile_not (· != '\'') cs
      rw [hdrop] at hclose
      obtain rfl : close = '\'' := by simpa using hclose
      have hname : '\'' ∉ cs.takeWhile (· != '\'') := fun hmem => by
        simpa using List.all_eq_true.1 List.all_takeWhile _ hmem
      rw [← h.1]
      exact ⟨.quoted hname (isSolid_takeWhile tail), rfl⟩
  · rename_i hquote
    simp only [Except.ok.injEq, Prod.mk.injEq] at h
    have hword : (c :: cs).takeWhile (!isBlank ·) = c :: cs.takeWhile (!isBlank ·) := by
      simp [hc]
    have hsolid := isSolid_takeWhile (c :: cs)
    rw [hword] at h hsolid
    rw [← h.1]
    exact ⟨.bare (fun heq => hquote cs (heq ▸ rfl)) hsolid, rfl⟩

end Line

theorem Suffix.toChar_of_ofChar? {s : Suffix} (h : Suffix.ofChar? c = some s) : s.toChar = c := by
  unfold Suffix.ofChar? at h
  split at h <;> cases h <;> rfl

namespace Element

/-- An element as it stands in a line: its name, in quotes if it was quoted, and its suffix. -/
def written (e : Element) : List Char :=
  (if e.quoted then '\'' :: (e.name.toList ++ ['\'']) else e.name.toList) ++
    (e.suffix.map Suffix.toChar).toList

/-- A suffixed element looks as it is written. -/
theorem toList_visual (h : e.suffix ≠ none) : e.visual.toList = e.written := by
  obtain ⟨s, hs⟩ := Option.ne_none_iff_exists'.1 h
  simp only [visual, written, hs, String.toList_push]
  split_ifs <;> simp

/-- What follows a name is its suffix. -/
theorem eq_of_parseSuffix {suffix : Option Suffix} (h : parseSuffix word cs = .ok suffix) :
    (suffix.map Suffix.toChar).toList = cs := by
  unfold parseSuffix at h
  split at h
  · cases h
    rfl
  · split at h
    · rename_i s hs
      cases h
      simp [Suffix.toChar_of_ofChar? hs]
    · cases h
  · cases h

/-- The name of a word and what follows it. -/
theorem splitSuffix_spec (h : Word word) : word = (if word.head? = some '\'' then
    '\'' :: ((splitSuffix word).1 ++ ['\'']) else (splitSuffix word).1) ++ (splitSuffix word).2 := by
  cases h with
  | @quoted name attached hname hattached =>
    obtain ⟨htake, hdrop⟩ := span_quote hname attached
    simp [splitSuffix, htake, hdrop]
  | @bare c cs hc hsolid =>
    have hhead : (c :: cs).head? ≠ some '\'' := by simpa using hc
    rw [if_neg hhead]
    unfold splitSuffix
    split
    · rename_i heq
      exact absurd (List.cons.inj heq).1 hc
    · split
      · rename_i c' hlast
        split_ifs
        · obtain ⟨name, hname⟩ := List.getLast?_eq_some_iff.1 hlast
          rw [hname, List.dropLast_concat]
        · exact (List.append_nil _).symm
      · exact (List.append_nil _).symm

/-- An element is written as the word it was read from. -/
theorem written_of_parse (hword : Word word) (h : parse word = .ok e) : e.written = word := by
  unfold parse at h
  dsimp only at h
  split_ifs at h
  obtain ⟨suffix, hsuffix, h⟩ := bind_eq_ok_iff.1 h
  cases h
  rw [written, eq_of_parseSuffix hsuffix]
  simp only [String.toList_ofList, decide_eq_true_eq]
  exact (splitSuffix_spec hword).symm

/-- What makes an element readable in a line: it is written as one word, no tag, and read back from
    that word. -/
structure Legible (e : Element) : Prop where
  word : Word e.written
  head_ne : e.written.head? ≠ some '#'
  parse_written : parse e.written = .ok e

theorem legible_of_parse (hword : Word word) (hhead : word.head? ≠ some '#')
    (h : parse word = .ok e) : e.Legible := by
  obtain rfl := written_of_parse hword h
  exact ⟨hword, hhead, h⟩

/-- A suffixed element is read back from what messages show of it. -/
theorem Legible.parse_visual (h : e.Legible) (hs : e.suffix ≠ none) :
    parse e.visual.toList = .ok e := by
  rw [toList_visual hs]
  exact h.parse_written

end Element

/-! ## Lines -/

namespace Line

/-- A body line with the given elements and tag, blanks between. -/
def written (es : List Element) (tag : Option String) : List Char :=
  [' '].intercalate (es.map Element.written) ++ tag.elim [] (' ' :: '#' :: ·.toList)

theorem parse_congr {text text' : List Char} (h : trimLeft text = trimLeft text') :
    parse text = parse text' := by
  rw [parse.eq_def, parse.eq_def text', h]

/-- A blank before the first word makes no difference. -/
theorem parse_cons_of_isBlank (hc : isBlank c = true) : parse (c :: cs) = parse cs :=
  parse_congr (List.dropWhile_cons_of_pos hc)

/-- Reading a line, word by word. -/
theorem parse_append (hword : Word word) (hhead : word.head? ≠ some '#')
    (hrest : ∀ c ∈ rest.head?, isBlank c = true) (he : Element.parse word = .ok e) :
    parse (word ++ rest) = (do
      let (es, tag) ← parse rest
      return (e :: es, tag)) := by
  have hcut := cut_append hword hrest
  obtain ⟨c, cs, rfl, hc⟩ := hword.exists_cons
  rw [List.cons_append] at hcut ⊢
  have htrim : trimLeft (c :: (cs ++ rest)) = c :: (cs ++ rest) :=
    Text.trimLeft_eq_self fun d hd => by
      cases hd
      exact hc
  rw [parse.eq_def, htrim]
  split
  · rename_i heq
    cases heq
  · rename_i heq
    cases heq
    exact absurd rfl hhead
  · rename_i heq
    cases heq
    split
    · rename_i herror
      rw [hcut] at herror
      cases herror
    · rename_i hcut'
      rw [hcut] at hcut'
      cases hcut'
      rw [he]
      rfl

/-- A tag that is one word is read as it is. -/
theorem parse_tag {tag : List Char} (hne : tag ≠ []) (hsolid : isSolid tag = true) :
    parse ('#' :: tag) = .ok ([], some (String.ofList tag)) := by
  have htrim : trimLeft ('#' :: tag) = '#' :: tag := Text.trimLeft_eq_self fun c hc => by
    cases hc
    rfl
  rw [parse.eq_def, htrim]
  show (if ((trim tag).isEmpty || !isSolid (trim tag)) = true then _ else _) = _
  rw [Text.trim_of_isSolid hsolid, if_neg (by simp [hne, hsolid])]

/-- What is read from a line: elements and perhaps a tag, all of which can be read again. -/
theorem legible_of_parse {text : List Char} {es : List Element} {tag : Option String}
    (h : parse text = .ok (es, tag)) :
    (∀ e ∈ es, e.Legible) ∧ ∀ t ∈ tag, t.toList ≠ [] ∧ isSolid t.toList = true := by
  fun_induction parse text generalizing es tag with
  | case1 text htrim =>
    cases h
    simp
  | case2 text tag' htrim t => cases h
  | case3 text tag' htrim t =>
    rename_i hgood
    cases h
    simpa using hgood
  | case4 text c cs hc htrim e hcut => cases h
  | case5 text c cs hc htrim word rest hcut ih =>
    obtain ⟨e, he, h⟩ := bind_eq_ok_iff.1 h
    obtain ⟨⟨es', tag'⟩, hrest, h⟩ := bind_eq_ok_iff.1 h
    cases h
    obtain ⟨hword, hhead⟩ := word_of_cut (isBlank_of_trimLeft_eq_cons htrim) hcut
    -- a word that begins like a tag would have been read as one
    have hhash : word.head? ≠ some '#' := by
      rw [hhead]
      exact fun heq => hc (Option.some.inj heq)
    exact ⟨List.forall_mem_cons.2 ⟨Element.legible_of_parse hword hhash he, (ih hrest).1⟩,
      (ih hrest).2⟩

/-- After the first element a blank follows or nothing. -/
theorem written_cons (e : Element) (es : List Element) (tag : Option String) :
    ∃ rest, written (e :: es) tag = e.written ++ rest ∧ (∀ c ∈ rest.head?, isBlank c = true) ∧
      parse rest = parse (written es tag) := by
  cases es with
  | nil =>
    refine ⟨written [] tag, by simp [written], ?_, rfl⟩
    cases tag with
    | none => simp [written]
    | some t =>
      intro c hc
      cases hc
      rfl
  | cons e' es =>
    refine ⟨' ' :: written (e' :: es) tag, by simp [written, List.intercalate], ?_,
      parse_cons_of_isBlank rfl⟩
    intro c hc
    cases hc
    rfl

/-- What can be read again is read again. -/
theorem parse_written {es : List Element} {tag : Option String} (hes : ∀ e ∈ es, e.Legible)
    (htag : ∀ t ∈ tag, t.toList ≠ [] ∧ isSolid t.toList = true) :
    parse (written es tag) = .ok (es, tag) := by
  induction es with
  | nil =>
    cases tag with
    | none =>
      rw [parse.eq_def]
      rfl
    | some t =>
      obtain ⟨hne, hsolid⟩ := htag t rfl
      calc parse (written [] (some t)) = parse ('#' :: t.toList) := parse_cons_of_isBlank rfl
        _ = .ok ([], some t) := by rw [parse_tag hne hsolid, String.ofList_toList]
  | cons e es ih =>
    obtain ⟨he, hes⟩ := List.forall_mem_cons.1 hes
    obtain ⟨rest, hwritten, hblank, hrest⟩ := written_cons e es tag
    rw [hwritten, parse_append he.word he.head_ne hblank he.parse_written, hrest, ih hes]
    rfl

variable {text : List Char} {es : List Element} {tag : Option String}

/-- What a line says can be written with single blanks between, and is read back from that. An
    element with a suffix is read back from what messages show of it as well, so no two of them
    look alike. -/
theorem parse_written_of_parse (h : parse text = .ok (es, tag)) :
    parse (written es tag) = .ok (es, tag) ∧
      (∀ e ∈ es, e.suffix ≠ none → Element.parse e.visual.toList = .ok e) ∧
      ∀ {text' es' tag'}, parse text' = .ok (es', tag') → ∀ e ∈ es, ∀ e' ∈ es',
        e.suffix ≠ none → e'.suffix ≠ none → e.visual = e'.visual → e = e' := by
  obtain ⟨hes, htag⟩ := legible_of_parse h
  refine ⟨parse_written hes htag, fun e he => (hes e he).parse_visual, ?_⟩
  intro text' es' tag' h' e he e' he' hs hs' hvisual
  have hread := (hes e he).parse_visual hs
  have hread' := ((legible_of_parse h').1 e' he').parse_visual hs'
  rw [hvisual, hread'] at hread
  exact (Except.ok.inj hread).symm

/-- Names with blanks, signs and suffix characters in them, and a suffix that looks like the name it
    stands after: a quoted equals sign and a bare one stay apart. -/
theorem parse_written_of_parse_operators :
    parse "  'a #b'!\t++   '+'?  '='=  # sum ".toList =
        .ok ([⟨"a #b", some .delimiter, true⟩, ⟨"+", some .plus, false⟩,
          ⟨"+", some .optional, true⟩, ⟨"=", some .dependent, true⟩], some "sum") ∧
      parse "'a #b'! ++ '+'? '='= #sum".toList =
        .ok ([⟨"a #b", some .delimiter, true⟩, ⟨"+", some .plus, false⟩,
          ⟨"+", some .optional, true⟩, ⟨"=", some .dependent, true⟩], some "sum") ∧
      Element.parse "'='=".toList = .ok ⟨"=", some .dependent, true⟩ ∧
      Element.visual ⟨"=", some .dependent, true⟩ ≠ Element.visual ⟨"=", some .dependent, false⟩ := by
  have h : parse "  'a #b'!\t++   '+'?  '='=  # sum ".toList =
      .ok ([⟨"a #b", some .delimiter, true⟩, ⟨"+", some .plus, false⟩,
        ⟨"+", some .optional, true⟩, ⟨"=", some .dependent, true⟩], some "sum") := by
    decide +kernel
  have hbare : parse "==".toList = .ok ([⟨"=", some .dependent, false⟩], none) := by
    decide +kernel
  obtain ⟨hback, hvisual, hapart⟩ := parse_written_of_parse h
  refine ⟨h, hback, hvisual ⟨"=", some .dependent, true⟩ (by simp) (by simp), fun heq => ?_⟩
  cases hapart hbare _ (by simp) _ List.mem_cons_self (by simp) (by simp) heq

end Line

end LanguageWorkbench.Source
