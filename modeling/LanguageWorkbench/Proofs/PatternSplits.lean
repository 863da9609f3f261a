import LanguageWorkbench.Lexicon
import LanguageWorkbench.Proofs.Outlines
import Mathlib

/-!
# Splitting patterns at bars

A pattern is split by counting brackets. On a text with an outline this finds the bars outside
groups, unless it gives up at a group that looks like bare flags.

Results:
* `Lexicon.splitFrom_items`, `Lexicon.splitFrom_set`: classes.
* `Lexicon.splitFrom_inner`: what is inside a group adds to the current part.
* `Lexicon.splitFrom_outline`: the parts of a pattern.
-/

namespace LanguageWorkbench

namespace Lexicon

variable {groups classes k : Nat} {part cs rest u : List Char} {c : Char}

/-! ## Single signs -/

theorem splitFrom_escape (groups classes : Nat) (part : List Char) (c : Char) (cs : List Char) :
    splitFrom groups classes part ('\\' :: c :: cs) =
      splitFrom groups classes (c :: '\\' :: part) cs := by
  rw [splitFrom]

theorem splitFrom_cons (hc : c ∉ ['\\', '[']) : splitFrom groups classes part (c :: cs) =
    if 0 < classes then splitFrom groups (if c = ']' then classes - 1 else classes) (c :: part) cs
    else if c = '(' then
      if groups = 0 && cs.head? = some '?' && isBareFlags (cs.drop 1) then none
      else splitFrom (groups + 1) 0 (c :: part) cs
    else if c = ')' then splitFrom (groups - 1) 0 (c :: part) cs
    else if c = '|' && groups = 0 then (splitFrom 0 0 [] cs).map (part.reverse :: ·)
    else splitFrom groups 0 (c :: part) cs := by
  rw [splitFrom.eq_def]
  split
  case h_7 heq =>
    cases heq
    rw [Option.map_eq_bind]
    rfl
  case h_1 heq => cases heq
  all_goals
    rename_i heq
    cases heq
    exact absurd (by decide) hc

theorem splitFrom_inside (hc : c ∉ ['\\', '[', ']']) : splitFrom groups (k + 1) part (c :: cs) =
    splitFrom groups (k + 1) (c :: part) cs := by
  rw [splitFrom_cons fun hmem => hc (List.mem_append_left [']'] hmem), if_pos (Nat.succ_pos k),
    if_neg fun h => hc (by rw [h]; decide)]

theorem splitFrom_closing (groups k : Nat) (part cs : List Char) :
    splitFrom groups (k + 1) part (']' :: cs) = splitFrom groups k (']' :: part) cs := by
  rw [splitFrom_cons (by decide), if_pos (Nat.succ_pos k), if_pos rfl, Nat.add_sub_cancel]

/-! ## Classes -/

theorem splitFrom_opener {negated closing : Bool} (hfirst : closing = false →
    u.head? ≠ some ']' ∧ (negated = false → u.head? ≠ some '^')) :
    splitFrom groups classes part (ClassOutline.opener negated closing ++ u) =
      splitFrom groups (classes + 1) ((ClassOutline.opener negated closing).reverse ++ part) u := by
  cases negated <;> cases closing
  · obtain ⟨hbracket, hsign⟩ := hfirst rfl
    show splitFrom groups classes part ('[' :: u) = splitFrom groups (classes + 1) ('[' :: part) u
    rw [splitFrom]
    · rintro cs rfl
      exact hsign rfl rfl
    · rintro cs rfl
      exact hsign rfl rfl
    · rintro cs rfl
      exact hbracket rfl
  · show splitFrom groups classes part ('[' :: ']' :: u) = _
    rw [splitFrom]
    rfl
  · obtain ⟨hbracket, -⟩ := hfirst rfl
    show splitFrom groups classes part ('[' :: '^' :: u) = _
    rw [splitFrom]
    · rfl
    · rintro cs rfl
      exact hbracket rfl
  · show splitFrom groups classes part ('[' :: '^' :: ']' :: u) = _
    rw [splitFrom]
    rfl

/-- The first sign of a class does not belong to what opens it. -/
theorem head?_text_append {items : ClassOutline} {negated closing : Bool}
    (hitems : items.isFormed = true) (hfirst : items.mayFollow negated closing = true)
    (hclosing : closing = false) (u : List Char) :
    (items.text ++ u).head? ≠ some ']' ∧ (negated = false → (items.text ++ u).head? ≠ some '^') := by
  subst hclosing
  cases items with
  | nil => cases hfirst
  | sign c rest =>
    obtain ⟨hc, -⟩ := Bool.and_eq_true_iff.1 hitems
    refine ⟨fun h => ?_, ?_⟩
    · cases h
      cases hc
    · rintro rfl h
      cases h
      cases hfirst
  | escape c rest => exact ⟨nofun, fun _ => nofun⟩
  | bracket rest => exact ⟨nofun, fun _ => nofun⟩
  | set negated' closing' items rest => exact ⟨nofun, fun _ => nofun⟩

/-- What is inside a class adds to the current part. -/
theorem splitFrom_items {items : ClassOutline} (hformed : items.isFormed = true)
    (hplain : items.isPlain = true) (groups k : Nat) (part u : List Char) :
    splitFrom groups (k + 1) part (items.text ++ u) =
      splitFrom groups (k + 1) (items.text.reverse ++ part) u := by
  induction items generalizing k part u with
  | nil => rfl
  | sign c rest ih =>
    obtain ⟨hc, hformed⟩ := Bool.and_eq_true_iff.1 hformed
    have hc' : c ∉ ['\\', '[', ']'] := by simpa [ClassOutline.signs] using hc
    rw [ClassOutline.text, List.cons_append, splitFrom_inside hc', ih hformed hplain]
    simp
  | escape c rest ih =>
    rw [ClassOutline.text, List.cons_append, List.cons_append, splitFrom_escape, ih hformed hplain]
    simp
  | bracket rest ih => cases hplain
  | set negated closing items rest ih ihrest =>
    obtain ⟨hitems, hrest⟩ := Bool.and_eq_true_iff.1 hformed
    obtain ⟨hfirst, hitems⟩ := Bool.and_eq_true_iff.1 hitems
    obtain ⟨hplain, hplainrest⟩ := Bool.and_eq_true_iff.1 hplain
    have hhead := fun h => head?_text_append hitems hfirst h (']' :: (rest.text ++ u))
    rw [ClassOutline.text, List.append_assoc, List.append_assoc, List.cons_append,
      splitFrom_opener hhead, ih hitems hplain, splitFrom_closing, ihrest hrest hplainrest]
    simp

/-- A class adds to the current part. -/
theorem splitFrom_set {items : ClassOutline} {negated closing : Bool}
    (hfirst : items.mayFollow negated closing = true) (hformed : items.isFormed = true)
    (hplain : items.isPlain = true) (groups : Nat) (part u : List Char) :
    splitFrom groups 0 part (ClassOutline.opener negated closing ++ (items.text ++ ']' :: u)) =
      splitFrom groups 0
        ((ClassOutline.opener negated closing ++ items.text ++ [']']).reverse ++ part) u := by
  rw [splitFrom_opener fun h => head?_text_append hformed hfirst h _,
    splitFrom_items hformed hplain, splitFrom_closing]
  simp

/-! ## Groups -/

theorem splitFrom_outer (hc : c ∉ Outline.signs) :
    splitFrom groups 0 part (c :: cs) = splitFrom groups 0 (c :: part) cs := by
  have hne : ∀ d ∈ Outline.signs, c ≠ d := by
    rintro d hd rfl
    exact hc hd
  rw [splitFrom_cons (fun hmem => hc (List.mem_append_left _ hmem)), if_neg (Nat.lt_irrefl 0),
    if_neg (hne '(' (by decide)), if_neg (hne ')' (by decide)),
    if_neg (by simpa using fun h => absurd h (hne '|' (by decide)))]

theorem splitFrom_outers (h : ∀ c ∈ cs, c ∉ Outline.signs) :
    splitFrom groups 0 part (cs ++ rest) = splitFrom groups 0 (cs.reverse ++ part) rest := by
  induction cs generalizing part with
  | nil => rfl
  | cons c cs ih =>
    rw [List.cons_append, splitFrom_outer (h c List.mem_cons_self),
      ih fun d hd => h d (List.mem_cons_of_mem c hd), List.reverse_cons, List.append_assoc]
    rfl

theorem splitFrom_group (groups : Nat) (part cs : List Char) :
    splitFrom groups 0 part ('(' :: cs) =
      if groups = 0 && cs.head? = some '?' && isBareFlags (cs.drop 1) then none
      else splitFrom (groups + 1) 0 ('(' :: part) cs := by
  rw [splitFrom_cons (by decide), if_neg (Nat.lt_irrefl 0), if_pos rfl]

theorem splitFrom_groupEnd (groups : Nat) (part cs : List Char) :
    splitFrom groups 0 part (')' :: cs) = splitFrom (groups - 1) 0 (')' :: part) cs := by
  rw [splitFrom_cons (by decide), if_neg (Nat.lt_irrefl 0), if_neg (by decide), if_pos rfl]

theorem splitFrom_bar (groups : Nat) (part cs : List Char) :
    splitFrom groups 0 part ('|' :: cs) =
      if groups = 0 then (splitFrom 0 0 [] cs).map (part.reverse :: ·)
      else splitFrom groups 0 ('|' :: part) cs := by
  rw [splitFrom_cons (by decide), if_neg (Nat.lt_irrefl 0), if_neg (by decide), if_neg (by decide)]
  simp only [decide_true, Bool.true_and, decide_eq_true_eq]

theorem not_mem_signs_of_name {c : Char}
    (h : (GroupStart.nameSigns.contains c || Text.isAlphanumeric c) = true) (hc : c ≠ '[') :
    c ∉ Outline.signs := by
  intro hmem
  simp only [Outline.signs, List.mem_cons, List.not_mem_nil, or_false] at hmem
  rcases hmem with rfl | rfl | rfl | rfl | rfl
  · cases h
  · exact hc rfl
  · cases h
  · cases h
  · cases h

/-- The letters of flags and the characters of plain names have no meaning for brackets. -/
theorem not_mem_signs_of_start {start : GroupStart} (hformed : start.isFormed = true)
    (hplain : start.isPlain = true) : ∀ c ∈ start.text, c ∉ Outline.signs := by
  cases start with
  | plain => exact fun c hc => absurd hc List.not_mem_nil
  | flagged letters =>
    have hflags : ∀ c ∈ GroupStart.flagSigns, c ∉ Outline.signs := by
      simp [GroupStart.flagSigns, Outline.signs]
    intro c hc
    rcases List.mem_cons.1 hc with rfl | hc
    · decide
    · rcases List.mem_append.1 hc with hc | hc
      · exact hflags c (by simpa using List.all_eq_true.1 hformed c hc)
      · rw [List.mem_singleton.1 hc]
        decide
  | named short name =>
    have hstart : ∀ c ∈ '?' :: (if short then ['<'] else ['P', '<']), c ∉ Outline.signs := by
      cases short <;> simp [Outline.signs]
    intro c hc
    rw [GroupStart.text, ← List.cons_append, List.mem_append, List.mem_append,
      List.mem_singleton] at hc
    rcases hc with hc | hc | rfl
    · exact hstart c hc
    · refine not_mem_signs_of_name (List.all_eq_true.1 hformed c hc) ?_
      rintro rfl
      simp [GroupStart.isPlain, hc] at hplain
    · decide

/-- What the scan takes for bare flags: no colon is before the first closing bracket. -/
theorem isBareFlags_eq (h : ')' ∈ cs) :
    isBareFlags cs = !(cs.takeWhile (· ≠ ')')).contains ':' := by
  induction cs with
  | nil => cases h
  | cons c cs ih =>
    by_cases hclose : c = ')'
    · subst hclose
      unfold isBareFlags
      cases hcolon : (')' :: cs).findIdx? (· = ':') <;> simp [List.findIdx?_cons]
    · have hrest : ')' ∈ cs := (List.mem_cons.1 h).resolve_left (Ne.symm hclose)
      obtain ⟨n, hn⟩ : ∃ n, cs.findIdx? (· = ')') = some n :=
        ⟨_, List.findIdx?_eq_some_of_exists ⟨')', hrest, by simp⟩⟩
      have ih := ih hrest
      unfold isBareFlags at ih ⊢
      rw [hn] at ih
      by_cases hc : c = ':'
      · subst hc
        simp [List.findIdx?_cons, hn]
      · have hc' : ¬ ':' = c := Ne.symm hc
        cases hcolon : cs.findIdx? (· = ':') with
        | none =>
          rw [hcolon] at ih
          simpa [List.findIdx?_cons, hclose, hc, hc', hn, hcolon] using ih
        | some m =>
          rw [hcolon] at ih
          simpa [List.findIdx?_cons, hclose, hc, hc', hn, hcolon] using ih

theorem takeWhile_append_close (cs rest : List Char) :
    (cs ++ ')' :: rest).takeWhile (· ≠ ')') = cs.takeWhile (· ≠ ')') := by
  induction cs with
  | nil => rfl
  | cons c cs ih =>
    rw [List.cons_append, List.takeWhile_cons, List.takeWhile_cons, ih]

/-- A group is taken for bare flags if it has a name and no colon. -/
theorem isBare_group {start : GroupStart} {inner : Outline} (hformed : start.isFormed = true)
    (hfirst : inner.mayFollow start = true) (u : List Char) :
    ((start.text ++ (inner.text ++ ')' :: u)).head? = some '?' &&
      isBareFlags ((start.text ++ (inner.text ++ ')' :: u)).drop 1)) =
        !start.hasColon inner.text := by
  cases start with
  | plain =>
    have hhead : (inner.text ++ ')' :: u).head? ≠ some '?' := by
      cases inner with
      | sign c rest =>
        intro h
        cases h
        cases hfirst
      | _ => exact nofun
    rw [GroupStart.text, List.nil_append, decide_eq_false hhead]
    rfl
  | flagged letters =>
    have hletters : ∀ c ∈ letters, decide (c ≠ ')') = true := by
      intro c hc
      rw [decide_eq_true_eq]
      rintro rfl
      exact absurd (List.all_eq_true.1 hformed ')' hc) (by decide)
    have hdrop : ((GroupStart.flagged letters).text ++ (inner.text ++ ')' :: u)).drop 1 =
        letters ++ ':' :: (inner.text ++ ')' :: u) := by simp [GroupStart.text]
    rw [hdrop, isBareFlags_eq (by simp), List.takeWhile_append_of_pos hletters]
    simp [GroupStart.hasColon]
  | named short name =>
    obtain ⟨cs, hcs⟩ : ∃ cs, (GroupStart.named short name).text = '?' :: cs := ⟨_, rfl⟩
    rw [GroupStart.hasColon, hcs, List.cons_append, List.drop_one, List.tail_cons,
      ← List.append_assoc, isBareFlags_eq (by simp), takeWhile_append_close]
    simp

/-- The start of a group, inside another one or not taken for bare flags. -/
theorem splitFrom_start {start : GroupStart} (hformed : start.isFormed = true)
    (hplain : start.isPlain = true)
    (hseen : 0 < k ∨ ((start.text ++ u).head? = some '?' &&
      isBareFlags ((start.text ++ u).drop 1)) = false) (part : List Char) :
    splitFrom k 0 part ('(' :: (start.text ++ u)) =
      splitFrom (k + 1) 0 (('(' :: start.text).reverse ++ part) u := by
  rw [splitFrom_group, if_neg, splitFrom_outers (not_mem_signs_of_start hformed hplain)]
  · simp
  · rcases hseen with h | h
    · simp [Nat.ne_of_gt h]
    · rw [Bool.and_assoc, h]
      simp

/-! ## Outlines -/

/-- What is inside a group adds to the current part. -/
theorem splitFrom_inner {o : Outline} (hformed : o.isFormed = true) (hplain : o.isPlain = true)
    (k : Nat) (part u : List Char) :
    splitFrom (k + 1) 0 part (o.text ++ u) = splitFrom (k + 1) 0 (o.text.reverse ++ part) u := by
  induction o generalizing k part u with
  | nil => rfl
  | sign c rest ih =>
    obtain ⟨hc, hformed⟩ := Bool.and_eq_true_iff.1 hformed
    rw [Outline.text, List.cons_append, splitFrom_outer (by simpa using hc), ih hformed hplain]
    simp
  | escape c rest ih =>
    rw [Outline.text, List.cons_append, List.cons_append, splitFrom_escape, ih hformed hplain]
    simp
  | bar rest ih =>
    rw [Outline.text, List.cons_append, splitFrom_bar, if_neg (Nat.succ_ne_zero k),
      ih hformed hplain]
    simp
  | set negated closing items rest ih =>
    obtain ⟨hitems, hformed⟩ := Bool.and_eq_true_iff.1 hformed
    obtain ⟨hfirst, hitems⟩ := Bool.and_eq_true_iff.1 hitems
    obtain ⟨hplainitems, hplain⟩ := Bool.and_eq_true_iff.1 hplain
    rw [Outline.text, List.append_assoc, List.append_assoc, List.cons_append,
      splitFrom_set hfirst hitems hplainitems, ih hformed hplain]
    simp
  | flags letters rest ih =>
    obtain ⟨hletters, hformed⟩ := Bool.and_eq_true_iff.1 hformed
    -- letters without a colon after them are the start of a group less the colon
    have hstart : ∀ c ∈ (GroupStart.flagged letters).text, c ∉ Outline.signs :=
      not_mem_signs_of_start hletters rfl
    have hsigns : ∀ c ∈ '?' :: letters, c ∉ Outline.signs := fun c hc =>
      hstart c (List.mem_append_left [':'] hc)
    have htext : (Outline.flags letters rest).text ++ u =
        '(' :: ('?' :: letters ++ ')' :: (rest.text ++ u)) := by simp [Outline.text]
    rw [htext, splitFrom_group, if_neg (by simp), splitFrom_outers hsigns, splitFrom_groupEnd,
      Nat.add_sub_cancel, ih hformed hplain]
    simp [Outline.text]
  | group start inner rest ih ihrest =>
    simp only [Outline.isFormed, Outline.isPlain, Bool.and_eq_true] at hformed hplain
    obtain ⟨⟨⟨hstart, -⟩, hinner⟩, hformed⟩ := hformed
    obtain ⟨⟨hplainstart, hplaininner⟩, hplain⟩ := hplain
    have htext : (Outline.group start inner rest).text ++ u =
        '(' :: (start.text ++ (inner.text ++ ')' :: (rest.text ++ u))) := by simp [Outline.text]
    rw [htext, splitFrom_start hstart hplainstart (.inl (Nat.succ_pos k)), ih hinner hplaininner,
      splitFrom_groupEnd, Nat.add_sub_cancel, ihrest hformed hplain]
    simp [Outline.text]

/-- The scan finds the alternatives of a pattern, unless it gives up. It gives up at flags outside
    groups, and at a group outside others that has a name and no colon. -/
theorem splitFrom_outline {o : Outline} (hformed : o.isFormed = true) (hplain : o.isPlain = true)
    (part : List Char) :
    splitFrom 0 0 part o.text =
      if o.isUnflagged && o.hasColons then some (o.alternatives.modifyHead (part.reverse ++ ·))
      else none := by
  induction o generalizing part with
  | nil => simp [Outline.text, Outline.alternatives, Outline.isUnflagged, Outline.hasColons, splitFrom]
  | sign c rest ih =>
    obtain ⟨hc, hformed⟩ := Bool.and_eq_true_iff.1 hformed
    rw [Outline.text, splitFrom_outer (by simpa using hc), ih hformed hplain]
    simp [Outline.alternatives, Outline.isUnflagged, Outline.hasColons, Function.comp_def]
  | escape c rest ih =>
    rw [Outline.text, splitFrom_escape, ih hformed hplain]
    simp [Outline.alternatives, Outline.isUnflagged, Outline.hasColons, Function.comp_def]
  | bar rest ih =>
    rw [Outline.text, splitFrom_bar, if_pos rfl, ih hformed hplain]
    by_cases hseen : (rest.isUnflagged && rest.hasColons) = true
    · simp [Outline.alternatives, Outline.isUnflagged, Outline.hasColons, hseen]
      exact congrFun List.modifyHead_id rest.alternatives
    · simp [Outline.isUnflagged, Outline.hasColons, hseen]
  | set negated closing items rest ih =>
    obtain ⟨hitems, hformed⟩ := Bool.and_eq_true_iff.1 hformed
    obtain ⟨hfirst, hitems⟩ := Bool.and_eq_true_iff.1 hitems
    obtain ⟨hplainitems, hplain⟩ := Bool.and_eq_true_iff.1 hplain
    rw [Outline.text, splitFrom_set hfirst hitems hplainitems, ih hformed hplain]
    simp [Outline.alternatives, Outline.isUnflagged, Outline.hasColons, Function.comp_def]
  | flags letters rest ih =>
    obtain ⟨hletters, -⟩ := Bool.and_eq_true_iff.1 hformed
    have hcolon : ':' ∉ letters := fun h =>
      absurd (List.all_eq_true.1 hletters ':' h) (by decide)
    have hbare : isBareFlags (letters ++ ')' :: rest.text) = true := by
      rw [isBareFlags_eq (by simp), takeWhile_append_close]
      simpa using fun h => hcolon (List.takeWhile_subset _ h)
    rw [Outline.text, splitFrom_group, if_pos (by simp [hbare])]
    simp [Outline.isUnflagged]
  | group start inner rest _ ih =>
    simp only [Outline.isFormed, Outline.isPlain, Bool.and_eq_true] at hformed hplain
    obtain ⟨⟨⟨hstart, hfirst⟩, hinner⟩, hformed⟩ := hformed
    obtain ⟨⟨hplainstart, hplaininner⟩, hplain⟩ := hplain
    have hbare := isBare_group hstart hfirst rest.text
    rw [Outline.text]
    by_cases hcolon : start.hasColon inner.text = true
    · rw [hcolon, Bool.not_true] at hbare
      rw [splitFrom_start hstart hplainstart (.inr hbare), splitFrom_inner hinner hplaininner,
        splitFrom_groupEnd, Nat.zero_add, Nat.sub_self, ih hformed hplain]
      simp [Outline.alternatives, Outline.isUnflagged, Outline.hasColons, hcolon, Function.comp_def]
    · rw [splitFrom_group, Bool.and_assoc, hbare]
      simp [Outline.hasColons, hcolon]

end Lexicon

end LanguageWorkbench
