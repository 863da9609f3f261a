import LanguageWorkbench.Identifier
import Mathlib

/-!
# The form of canonical names

A canonical name is empty or consists of words of lower-case letters and digits, with a single
dash between any two. Such a text is its own canonical name, so a family and a canonical name
are joined as they are.

Results:
* `Dashed`: words joined by dashes.
* `canonical_eq_empty_or_dashed`, `canonical_of_dashed`: these are the canonical names.
* `canonical_inFamily`: the canonical name of a name in a family.
* `Identifier.lower_inj`: the spelling with underscores tells the canonical name.
-/

namespace LanguageWorkbench

/-! ## Words -/

/-- A character of a word: a lower-case letter or a digit. -/
def isWordChar (c : Char) : Bool := c.isLower || c.isDigit

/-- Words joined by single dashes. -/
inductive Dashed : List Char → Prop
  | single {c : Char} (hc : isWordChar c = true) : Dashed [c]
  | cons {c : Char} {cs : List Char} (hc : isWordChar c = true) (hcs : Dashed cs) : Dashed (c :: cs)
  | dash {c : Char} {cs : List Char} (hc : isWordChar c = true) (hcs : Dashed cs) :
      Dashed (c :: '-' :: cs)

variable {c : Char} {cs ds front done : List Char}

theorem isNameChar_of_isWordChar (h : isWordChar c = true) : isNameChar c = true := by
  simp only [isWordChar, Bool.or_eq_true] at h
  rcases h with h | h <;> simp [isNameChar, Char.isAlphanum, Char.isAlpha, h]

theorem not_isUpper_of_isWordChar (h : isWordChar c = true) : ¬ c.isUpper = true := by
  simp only [isWordChar, Bool.or_eq_true] at h
  rcases h with h | h
  · exact Char.not_isUpper_of_isLower h
  · simp [Char.isDigit, Char.isUpper, UInt32.le_iff_toNat_le] at h ⊢
    omega

theorem toLower_of_isWordChar (h : isWordChar c = true) : c.toLower = c :=
  Char.toLower_eq_of_not_isUpper (not_isUpper_of_isWordChar h)

theorem isWordChar_toLower (h : isNameChar c = true) : isWordChar c.toLower = true := by
  by_cases halpha : c.isAlpha = true
  · simp [isWordChar, halpha]
  · have hupper : ¬ c.isUpper = true := fun hupper => halpha (by simp [Char.isAlpha, hupper])
    have hdigit : c.isDigit = true := (Bool.or_eq_true_iff.1 h).resolve_left halpha
    rw [Char.toLower_eq_of_not_isUpper hupper]
    simp [isWordChar, hdigit]

theorem ne_dash_of_isWordChar (h : isWordChar c = true) : c ≠ '-' := by
  rintro rfl
  cases h

theorem ne_underscore_of_isWordChar (h : isWordChar c = true) : c ≠ '_' := by
  rintro rfl
  cases h

namespace Dashed

theorem ne_nil (h : Dashed ds) : ds ≠ [] := by
  cases h <;> exact List.cons_ne_nil _ _

theorem exists_head (h : Dashed ds) : ∃ c cs, ds = c :: cs ∧ isWordChar c = true := by
  cases h with
  | single hc | cons hc | dash hc => exact ⟨_, _, rfl, hc⟩

/-- One word. -/
theorem of_word (hne : ds ≠ []) (h : ds.all isWordChar = true) : Dashed ds := by
  induction ds with
  | nil => exact absurd rfl hne
  | cons c ds ih =>
    rw [List.all_cons, Bool.and_eq_true] at h
    obtain ⟨hc, hds⟩ := h
    cases ds with
    | nil => exact .single hc
    | cons d ds => exact .cons hc (ih (List.cons_ne_nil _ _) hds)

theorem exists_last (h : Dashed ds) : ∃ cs c, ds = cs ++ [c] ∧ isWordChar c = true := by
  induction h with
  | single hc => exact ⟨[], _, rfl, hc⟩
  | cons _ _ ih =>
    obtain ⟨cs, c, rfl, hc⟩ := ih
    exact ⟨_ :: cs, c, rfl, hc⟩
  | dash _ _ ih =>
    obtain ⟨cs, c, rfl, hc⟩ := ih
    exact ⟨_ :: '-' :: cs, c, rfl, hc⟩

theorem append (h : Dashed ds) (hcs : Dashed cs) : Dashed (ds ++ '-' :: cs) := by
  induction h with
  | single hc => exact .dash hc hcs
  | cons hc _ ih => exact .cons hc ih
  | dash hc _ ih => exact .dash hc ih

/-- All characters are those of words or dashes. -/
theorem mem_cases (h : Dashed ds) (hc : c ∈ ds) : isWordChar c = true ∨ c = '-' := by
  induction h with
  | single hfirst =>
    rcases List.mem_singleton.1 hc with rfl
    exact .inl hfirst
  | cons hfirst _ ih =>
    rcases List.mem_cons.1 hc with rfl | hc
    · exact .inl hfirst
    · exact ih hc
  | dash hfirst _ ih =>
    rcases List.mem_cons.1 hc with rfl | hc
    · exact .inl hfirst
    · rcases List.mem_cons.1 hc with rfl | hc
      · exact .inr rfl
      · exact ih hc

end Dashed

/-! ## Canonical names -/

/-- Without the dashes at the end. -/
def dropDashes (cs : List Char) : List Char := (cs.reverse.dropWhile (· == '-')).reverse

theorem canonical_eq (name : String) :
    canonical name = String.ofList (dropDashes (canonicalChars [] name.toList)) := rfl

theorem dropDashes_of_dashed (h : Dashed ds) : dropDashes ds = ds := by
  obtain ⟨cs, c, rfl, hc⟩ := h.exists_last
  simp [dropDashes, ne_dash_of_isWordChar hc]

theorem dropDashes_append_dash (h : Dashed ds) : dropDashes (ds ++ ['-']) = ds := by
  obtain ⟨cs, c, rfl, hc⟩ := h.exists_last
  simp [dropDashes, ne_dash_of_isWordChar hc]

/-- What was read before a character that is kept stays in front. -/
theorem canonicalChars_append (hfront : front ≠ []) (done cs : List Char) :
    canonicalChars (front ++ done) cs = done.reverse ++ canonicalChars front cs := by
  induction cs generalizing front with
  | nil => simp [canonicalChars]
  | cons c cs ih =>
    obtain ⟨f, front, rfl⟩ := List.exists_cons_of_ne_nil hfront
    by_cases hc : isNameChar c = true
    · simpa [canonicalChars, hc] using ih (List.cons_ne_nil c.toLower (f :: front))
    · by_cases hf : f = '-'
      · simpa [canonicalChars, hc, hf] using ih (List.cons_ne_nil f front)
      · simpa [canonicalChars, hc, hf] using ih (List.cons_ne_nil '-' (f :: front))

/-- After a dash the rest of a name is read like a name. -/
theorem canonicalChars_dash (done cs : List Char) :
    canonicalChars ('-' :: done) cs = done.reverse ++ '-' :: canonicalChars [] cs := by
  induction cs with
  | nil => simp [canonicalChars]
  | cons c cs ih =>
    by_cases hc : isNameChar c = true
    · have hrest := canonicalChars_append (List.cons_ne_nil c.toLower []) ('-' :: done) cs
      simpa [canonicalChars, hc] using hrest
    · simpa [canonicalChars, hc] using ih

/-- Words joined by dashes are read as they are. -/
theorem canonicalChars_of_dashed (h : Dashed ds) (done cs : List Char) :
    canonicalChars done (ds ++ cs) = canonicalChars (ds.reverse ++ done) cs := by
  have hword : ∀ {c : Char} {done cs : List Char}, isWordChar c = true →
      canonicalChars done (c :: cs) = canonicalChars (c :: done) cs := fun hc => by
    simp [canonicalChars, isNameChar_of_isWordChar hc, toLower_of_isWordChar hc]
  induction h generalizing done with
  | single hc => exact hword hc
  | cons hc _ ih =>
    rw [List.cons_append, hword hc, ih]
    simp
  | @dash c ds hc _ ih =>
    have hdash : canonicalChars (c :: done) ('-' :: (ds ++ cs)) =
        canonicalChars ('-' :: c :: done) (ds ++ cs) := by
      have hname : isNameChar '-' = false := rfl
      simp [canonicalChars, hname, ne_dash_of_isWordChar hc]
    rw [List.cons_append, hword hc, List.cons_append, hdash, ih]
    simp

/-- What is read of a name is nothing, or words joined by dashes with perhaps one dash more. -/
theorem canonicalChars_cases (cs : List Char) : canonicalChars [] cs = [] ∨
    ∃ ds, Dashed ds ∧ (canonicalChars [] cs = ds ∨ canonicalChars [] cs = ds ++ ['-']) := by
  suffices h : (∀ c, isWordChar c = true → ∃ ds, Dashed ds ∧
      (canonicalChars [c] cs = ds ∨ canonicalChars [c] cs = ds ++ ['-'])) ∧
      (canonicalChars [] cs = [] ∨ ∃ ds, Dashed ds ∧
        (canonicalChars [] cs = ds ∨ canonicalChars [] cs = ds ++ ['-'])) from h.2
  induction cs with
  | nil => exact ⟨fun c hc => ⟨[c], .single hc, .inl rfl⟩, .inl rfl⟩
  | cons d cs ih =>
    obtain ⟨hword, hstart⟩ := ih
    by_cases hd : isNameChar d = true
    · obtain ⟨ds, hds, heq⟩ := hword _ (isWordChar_toLower hd)
      refine ⟨fun c hc => ⟨c :: ds, .cons hc hds, ?_⟩, .inr ⟨ds, hds, ?_⟩⟩
      · have hrest := canonicalChars_append (List.cons_ne_nil d.toLower []) [c] cs
        have hread : canonicalChars [c] (d :: cs) = c :: canonicalChars [d.toLower] cs := by
          simpa [canonicalChars, hd] using hrest
        rw [hread]
        exact heq.imp (congrArg _) (congrArg _)
      · simpa [canonicalChars, hd] using heq
    · refine ⟨fun c hc => ?_, by simpa [canonicalChars, hd] using hstart⟩
      have hread : canonicalChars [c] (d :: cs) = c :: '-' :: canonicalChars [] cs := by
        simpa [canonicalChars, hd, ne_dash_of_isWordChar hc] using
          canonicalChars_dash [c] cs
      rw [hread]
      rcases hstart with hnil | ⟨ds, hds, heq⟩
      · exact ⟨[c], .single hc, .inr (by rw [hnil]; rfl)⟩
      · exact ⟨c :: '-' :: ds, .dash hc hds, heq.imp (congrArg (c :: '-' :: ·)) (congrArg (c :: '-' :: ·))⟩

/-! ## The main results -/

/-- A canonical name is empty, or words joined by dashes. -/
theorem canonical_eq_empty_or_dashed (name : String) :
    canonical name = "" ∨ Dashed (canonical name).toList := by
  rw [canonical_eq, String.toList_ofList]
  rcases canonicalChars_cases name.toList with h | ⟨ds, hds, h | h⟩
  · rw [h]
    exact .inl rfl
  · rw [h, dropDashes_of_dashed hds]
    exact .inr hds
  · rw [h, dropDashes_append_dash hds]
    exact .inr hds

/-- Words joined by dashes are a canonical name. -/
theorem canonical_of_dashed {name : String} (h : Dashed name.toList) : canonical name = name := by
  have hread := canonicalChars_of_dashed h [] []
  rw [List.append_nil, List.append_nil] at hread
  rw [canonical_eq, hread, canonicalChars, List.reverse_reverse, dropDashes_of_dashed h,
    String.ofList_toList]

/-- The canonical name of a name in a family: the family and, if the name has any words, a dash
    and its canonical name. -/
theorem canonical_inFamily {family : String} (h : Dashed family.toList) (name : String) :
    canonical (family ++ "-" ++ name) =
      if canonical name = "" then family else family ++ "-" ++ canonical name := by
  have hread : canonicalChars [] (family ++ "-" ++ name).toList =
      family.toList ++ '-' :: canonicalChars [] name.toList := by
    obtain ⟨cs, c, hlast, hc⟩ := h.exists_last
    have hdash : canonicalChars family.toList.reverse ('-' :: name.toList) =
        canonicalChars ('-' :: family.toList.reverse) name.toList := by
      have hname : isNameChar '-' = false := rfl
      simp [hlast, canonicalChars, hname, ne_dash_of_isWordChar hc]
    have hall : (family ++ "-" ++ name).toList = family.toList ++ '-' :: name.toList := by
      simp [String.toList_append]
    rw [hall, canonicalChars_of_dashed h, List.append_nil, hdash, canonicalChars_dash,
      List.reverse_reverse]
  rw [canonical_eq, hread, canonical_eq name]
  rcases canonicalChars_cases name.toList with hnil | ⟨ds, hds, heq⟩
  · have hempty : String.ofList (dropDashes []) = "" := rfl
    rw [hnil, dropDashes_append_dash h, if_pos hempty, String.ofList_toList]
  · have hdrop : dropDashes (canonicalChars [] name.toList) = ds := by
      rcases heq with heq | heq
      · rw [heq, dropDashes_of_dashed hds]
      · rw [heq, dropDashes_append_dash hds]
    have hdrop' : dropDashes (family.toList ++ '-' :: canonicalChars [] name.toList) =
        family.toList ++ '-' :: ds := by
      rcases heq with heq | heq
      · rw [heq, dropDashes_of_dashed (h.append hds)]
      · have hmove : family.toList ++ '-' :: (ds ++ ['-']) =
            (family.toList ++ '-' :: ds) ++ ['-'] := by simp
        rw [heq, hmove, dropDashes_append_dash (h.append hds)]
    have hne : String.ofList ds ≠ "" := by
      intro hempty
      exact hds.ne_nil (by simpa using congrArg String.toList hempty)
    rw [hdrop, hdrop', if_neg hne]
    apply String.toList_injective
    simp [String.toList_append]

/-- A canonical name starts with its family. -/
theorem exists_toList_canonical_inFamily {family : String} (h : Dashed family.toList) (name : String) :
    ∃ rest, (canonical (family ++ "-" ++ name)).toList = family.toList ++ rest := by
  rw [canonical_inFamily h]
  split_ifs
  · exact ⟨[], (List.append_nil _).symm⟩
  · exact ⟨'-' :: (canonical name).toList, by simp [String.toList_append]⟩

/-- A family and a canonical name are joined as they are. -/
theorem canonical_inFamily_of_dashed {family name : String} (h : Dashed family.toList)
    (hname : Dashed name.toList) : canonical (family ++ "-" ++ name) = family ++ "-" ++ name := by
  have hne : canonical name ≠ "" := by
    rw [canonical_of_dashed hname]
    rintro rfl
    exact hname.ne_nil rfl
  rw [canonical_inFamily h, if_neg hne, canonical_of_dashed hname]

/-- The canonical name of a name in a family consists of words. -/
theorem dashed_canonical_inFamily {family : String} (h : Dashed family.toList) (name : String) :
    Dashed (canonical (family ++ "-" ++ name)).toList := by
  rw [canonical_inFamily h]
  split_ifs with hempty
  · exact h
  · have hall : (family ++ "-" ++ canonical name).toList =
        family.toList ++ '-' :: (canonical name).toList := by simp [String.toList_append]
    rw [hall]
    exact h.append ((canonical_eq_empty_or_dashed name).resolve_left hempty)

namespace Identifier

variable {i j : Identifier}

theorem toList_lower (i : Identifier) :
    i.lower.toList = i.dash.toList.map fun c => if c = '-' then '_' else c := by
  rw [lower, joined, String.toList_ofList]

/-- The spelling with underscores tells the canonical name. -/
theorem lower_inj (hi : Dashed i.dash.toList) (hj : Dashed j.dash.toList) :
    i.lower = j.lower ↔ i.dash = j.dash := by
  have hback : ∀ {cs : List Char}, Dashed cs → (cs.map fun c => if c = '-' then '_' else c).map
      (fun c => if c = '_' then '-' else c) = cs := by
    intro cs hcs
    rw [List.map_map]
    refine (List.map_congr_left fun c hc => ?_).trans (List.map_id cs)
    rcases hcs.mem_cases hc with hword | rfl
    · simp [ne_dash_of_isWordChar hword, ne_underscore_of_isWordChar hword]
    · rfl
  refine ⟨fun h => String.toList_inj.1 ?_, fun h => by rw [lower, lower, joined, joined, h]⟩
  rw [← hback hi, ← toList_lower, h, toList_lower, hback hj]

end Identifier

end LanguageWorkbench
