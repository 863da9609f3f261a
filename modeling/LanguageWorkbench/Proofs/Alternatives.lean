import LanguageWorkbench.Language
import LanguageWorkbench.Proofs.Outcome
import LanguageWorkbench.Proofs.PatternSplits
import Mathlib

/-!
# Longest match among alternatives

An entry of a lexicon has a regular expression for each alternative of its pattern, if the scan for
bars does not give up. So it matches as much as any alternative does by itself.

Results:
* `Lexicon.ownLength`: what an alternative takes by itself.
* `Lexicon.compile_eq_ok_iff_of_reading`: what a pattern is compiled to.
* `Lexicon.compile_of_unseen`: a pattern at which the scan gives up.
-/

namespace LanguageWorkbench

/-! ## Texts of alternatives -/

namespace Outline

theorem alternatives_ne_nil (o : Outline) : o.alternatives ≠ [] := by
  induction o with
  | nil => exact List.cons_ne_nil _ _
  | bar rest => exact List.cons_ne_nil _ _
  | _ => simpa [alternatives]

theorem intercalate_modifyHead {sep : List Char} {parts : List (List Char)} (h : parts ≠ [])
    (u : List Char) :
    sep.intercalate (parts.modifyHead (u ++ ·)) = u ++ sep.intercalate parts := by
  obtain ⟨part, parts, rfl⟩ := List.exists_cons_of_ne_nil h
  cases parts with
  | nil => simp
  | cons next parts => simp

/-- A text is its alternatives with bars in between. -/
theorem intercalate_alternatives (o : Outline) : ['|'].intercalate o.alternatives = o.text := by
  induction o with
  | nil => rfl
  | bar rest ih =>
    obtain ⟨part, parts, hparts⟩ := List.exists_cons_of_ne_nil rest.alternatives_ne_nil
    rw [alternatives, hparts, List.intercalate_cons_cons, ← hparts, ih]
    rfl
  | sign c rest ih =>
    rw [alternatives, intercalate_modifyHead rest.alternatives_ne_nil, ih]
    rfl
  | escape c rest ih =>
    rw [alternatives, intercalate_modifyHead rest.alternatives_ne_nil, ih]
    rfl
  | set negated closing items rest ih =>
    rw [alternatives, intercalate_modifyHead rest.alternatives_ne_nil, ih]
    simp [text]
  | flags letters rest ih =>
    rw [alternatives, intercalate_modifyHead rest.alternatives_ne_nil, ih]
    simp [text]
  | group start inner rest _ ih =>
    rw [alternatives, intercalate_modifyHead rest.alternatives_ne_nil, ih]
    simp [text]

end Outline

namespace Lexicon

variable {engine : RegexEngine} {reading : List Char → Option Outline}
variable {line : Nat} {pattern : String} {o : Outline}

/-! ## Match lengths -/

/-- How many characters a pattern takes by itself at the start of a text: those of its match
    there, if there is one. -/
def ownLength (engine : RegexEngine) (pattern text : List Char) : Nat :=
  ((anchored engine pattern).toOption.bind fun r => r.find text).getD 0

theorem foldl_max_filterMap {α : Type} (f : α → Option Nat) (l : List α) (n : Nat) :
    (l.filterMap f).foldl max n = (l.map fun a => (f a).getD 0).foldl max n := by
  induction l generalizing n with
  | nil => rfl
  | cons a l ih =>
    cases h : f a with
    | none =>
      rw [List.filterMap_cons_none h, ih, List.map_cons, List.foldl_cons, h, Option.getD_none,
        Nat.max_zero]
    | some m => rw [List.filterMap_cons_some h, List.foldl_cons, ih, List.map_cons, List.foldl_cons, h,
        Option.getD_some]

/-- An entry matches as much as the best of its alternatives by itself. -/
theorem matchLength_of_forall₂ {alternatives : List (List Char)} {regexes : List Regex}
    (h : List.Forall₂ (fun a r => anchored engine a = .ok r) alternatives regexes)
    (symbol : Option Symbol) (text : List Char) :
    matchLength ⟨symbol, regexes⟩ text =
      (alternatives.map fun a => ownLength engine a text).foldl max 0 := by
  have hown : regexes.map (fun r => (r.find text).getD 0) =
      alternatives.map fun a => ownLength engine a text := by
    induction h with
    | nil => rfl
    | cons ha _ ih => rw [List.map_cons, List.map_cons, ih, ownLength, ha]; rfl
  rw [matchLength, foldl_max_filterMap, hown]

/-! ## Compiling -/

theorem branches?_of_splitFrom {text : List Char} {parts : List (List Char)}
    (h : splitFrom 0 0 [] text = some parts) :
    branches? text = if parts.length ≤ 1 then none else some parts := by
  unfold branches?
  rw [h]
  match parts with
  | [] => rfl
  | [_] => rfl
  | _ :: _ :: rest => exact (if_neg (by simp)).symm

/-- A pattern with nothing to split is compiled as a whole. -/
theorem compile_eq_ok_iff_of_none (h : branches? pattern.toList = none) {regexes : List Regex} :
    compile engine line pattern = .ok regexes ↔
      ∃ whole, anchored engine pattern.toList = .ok whole ∧ regexes = [whole] := by
  unfold compile
  rw [mapError_eq_ok_iff, bind_eq_ok_iff, h]
  simp only [pure, Except.pure, Except.ok.injEq, eq_comm]

/-- A pattern that is split is compiled part by part, if it is accepted as a whole. -/
theorem compile_eq_ok_iff_of_some {parts : List (List Char)}
    (h : branches? pattern.toList = some parts) {regexes : List Regex} :
    compile engine line pattern = .ok regexes ↔
      (∃ whole, anchored engine pattern.toList = .ok whole) ∧
        List.Forall₂ (fun a r => anchored engine a = .ok r) parts regexes := by
  unfold compile
  rw [mapError_eq_ok_iff, bind_eq_ok_iff, h]
  simp only [mapM_eq_ok_iff, exists_and_right]

/-! ## Patterns with an outline -/

section

variable (hreading : IsReading reading) (h : reading pattern.toList = some o)
variable (hplain : o.isPlain = true)
variable (hdense : o.isTerse = true ∨ Text.isDense pattern.toList = true)

include hreading h hplain hdense

theorem splitFrom_of_reading : splitFrom 0 0 [] pattern.toList =
    if o.isUnflagged && o.hasColons then some o.alternatives else none := by
  have hsplit := splitFrom_outline (hreading.isFormed h) hplain []
  have hid : o.alternatives.modifyHead ([].reverse ++ ·) = o.alternatives :=
    congrFun List.modifyHead_id o.alternatives
  rwa [hreading.text_eq h hdense, hid] at hsplit

/-- A pattern with flags outside groups is compiled as a whole, and so is one with a named group
    outside others that has no colon. -/
theorem compile_of_unseen (hseen : (o.isUnflagged && o.hasColons) = false)
    {regexes : List Regex} :
    compile engine line pattern = .ok regexes ↔
      ∃ whole, anchored engine pattern.toList = .ok whole ∧ regexes = [whole] := by
  apply compile_eq_ok_iff_of_none
  rw [branches?, splitFrom_of_reading hreading h hplain hdense, hseen]
  rfl

/-- A pattern with one alternative is compiled as a whole, which is that alternative. -/
theorem compile_of_single (hsingle : o.alternatives.length = 1) {regexes : List Regex} :
    compile engine line pattern = .ok regexes ↔
      (∃ whole, anchored engine pattern.toList = .ok whole) ∧
        List.Forall₂ (fun a r => anchored engine a = .ok r) o.alternatives regexes := by
  obtain ⟨a, ha⟩ := List.length_eq_one_iff.1 hsingle
  have htext := o.intercalate_alternatives
  rw [ha, List.intercalate_singleton, hreading.text_eq h hdense] at htext
  have hnone : branches? pattern.toList = none := by
    rw [branches?, splitFrom_of_reading hreading h hplain hdense, ha]
    split_ifs <;> rfl
  rw [compile_eq_ok_iff_of_none hnone, ha, htext]
  constructor
  · rintro ⟨whole, hwhole, rfl⟩
    exact ⟨⟨whole, hwhole⟩, .cons hwhole .nil⟩
  · rintro ⟨-, hall⟩
    rcases hall with _ | ⟨hwhole, _ | _⟩
    exact ⟨_, hwhole, rfl⟩

end

/-! ## The main result -/

/-- A pattern is compiled to a regular expression for each of its alternatives, that of the
    alternative by itself, in order, if the engine takes the whole and each of them. Then an entry
    matches as much as the best of its alternatives by itself. -/
theorem compile_eq_ok_iff_of_reading (hreading : IsReading reading)
    (h : reading pattern.toList = some o) (hflags : o.isUnflagged = true)
    (hplain : o.isPlain = true)
    (hdense : o.isTerse = true ∨ Text.isDense pattern.toList = true)
    (hcolons : o.alternatives.length = 1 ∨ o.hasColons = true) (engine : RegexEngine)
    (line : Nat) (regexes : List Regex) :
    (compile engine line pattern = .ok regexes ↔
      (∃ whole, anchored engine pattern.toList = .ok whole) ∧
        List.Forall₂ (fun a r => anchored engine a = .ok r) o.alternatives regexes) ∧
      (compile engine line pattern = .ok regexes → ∀ symbol text,
        matchLength ⟨symbol, regexes⟩ text =
          (o.alternatives.map fun a => ownLength engine a text).foldl max 0) := by
  suffices hiff : compile engine line pattern = .ok regexes ↔
      (∃ whole, anchored engine pattern.toList = .ok whole) ∧
        List.Forall₂ (fun a r => anchored engine a = .ok r) o.alternatives regexes from
    ⟨hiff, fun hcompile symbol text => matchLength_of_forall₂ (hiff.1 hcompile).2 symbol text⟩
  by_cases hsingle : o.alternatives.length = 1
  · exact compile_of_single hreading h hplain hdense hsingle
  · apply compile_eq_ok_iff_of_some
    have hpos := List.length_pos_iff.2 o.alternatives_ne_nil
    have hsplit := splitFrom_of_reading hreading h hplain hdense
    rw [hflags, hcolons.resolve_left hsingle] at hsplit
    rw [branches?_of_splitFrom hsplit, if_neg (by omega)]

/-! ## Bars that part a pattern, and others -/

/-- Bars in a group, in a class and after a backslash. -/
def barredText : String := "(?x:a|b)|[]|]c|\\|d"

/-- The outline of that text. -/
def barred : Outline :=
  .group (.flagged ['x']) (.sign 'a' (.bar (.sign 'b' .nil)))
    (.bar (.set false true (.sign '|' .nil)
      (.sign 'c' (.bar (.escape '|' (.sign 'd' .nil))))))

/-- A reading of that text and no other. -/
def readBarred (text : List Char) : Option Outline :=
  if text = barredText.toList then some barred else none

theorem isReading_readBarred : IsReading readBarred where
  isFormed h := by
    unfold readBarred at h
    split_ifs at h
    cases h
    rfl
  text_eq h _ := by
    unfold readBarred at h
    split_ifs at h with htext
    cases h
    rw [htext]
    rfl

/-- Three alternatives: the bars that do not part the pattern are left alone. -/
theorem matchLength_barred : ∃ regexes, IsReading readBarred ∧
    readBarred barredText.toList = some barred ∧ barred.isUnflagged = true ∧
    barred.isPlain = true ∧ Text.isDense barredText.toList = true ∧ barred.hasColons = true ∧
    compile Pattern.engine 1 barredText = .ok regexes ∧ regexes.length = 3 ∧
    List.Forall₂ (fun a r => anchored Pattern.engine a = .ok r) barred.alternatives regexes ∧
    ∀ symbol text, matchLength ⟨symbol, regexes⟩ text =
      (barred.alternatives.map fun a => ownLength Pattern.engine a text).foldl max 0 := by
  have hok : (compile Pattern.engine 1 barredText).toOption.any
      (fun regexes => regexes.length == 3) = true := by cbv
  obtain ⟨regexes, hregexes, hlength⟩ := any_toOption_iff.1 hok
  have hdense : Text.isDense barredText.toList = true := by decide +kernel
  obtain ⟨hiff, hmatch⟩ := compile_eq_ok_iff_of_reading isReading_readBarred rfl rfl rfl
    (.inr hdense) (.inr rfl) Pattern.engine 1 regexes
  exact ⟨regexes, isReading_readBarred, rfl, rfl, rfl, hdense, rfl, hregexes, eq_of_beq hlength,
    (hiff.1 hregexes).2, hmatch hregexes⟩

/-- The outline of `(?P<n>a)|ab`, with a named group outside all others. -/
def named : Outline :=
  .group (.named false ['n']) (.sign 'a' .nil) (.bar (.sign 'a' (.sign 'b' .nil)))

/-- Such a pattern is not split, so its first alternative wins over a longer one. -/
theorem shorter_of_named : named.text = "(?P<n>a)|ab".toList ∧ named.isFormed = true ∧
    named.isPlain = true ∧ named.isTerse = true ∧ named.isUnflagged = true ∧
    named.alternatives = ["(?P<n>a)".toList, "ab".toList] ∧
    named.alternatives.map (ownLength Pattern.engine · "ab".toList) = [1, 2] ∧
    ∃ whole, compile Pattern.engine 1 "(?P<n>a)|ab" = .ok [whole] ∧
      matchLength ⟨none, [whole]⟩ "ab".toList = 1 := by
  have hok : (compile Pattern.engine 1 "(?P<n>a)|ab").toOption.any (fun regexes =>
      regexes.length == 1 && matchLength ⟨none, regexes⟩ "ab".toList == 1) = true := by
    decide +kernel
  obtain ⟨regexes, hregexes, hok⟩ := any_toOption_iff.1 hok
  obtain ⟨hlength, hmatch⟩ := Bool.and_eq_true_iff.1 hok
  obtain ⟨whole, rfl⟩ := List.length_eq_one_iff.1 (eq_of_beq hlength)
  exact ⟨rfl, rfl, rfl, rfl, rfl, rfl, by decide +kernel, whole, hregexes, eq_of_beq hmatch⟩

end Lexicon

end LanguageWorkbench
