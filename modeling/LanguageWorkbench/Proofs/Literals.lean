import LanguageWorkbench.Lexicon
import LanguageWorkbench.Proofs.Outcome

/-!
# Escaped texts

The pattern of a keyword or a symbol is its escaped text. It has no bar that splits it, so it is
compiled as a whole, and an engine that reads escapes matches the text and nothing else.

Results:
* `Regex.escaped`: the characters of an escaped text.
* `Lexicon.branches?_escaped`: an escaped text is not split.
* `Lexicon.take_eq_of_escape`: what is matched for an escaped text is the text.
-/

namespace LanguageWorkbench

namespace Regex

/-- A text with its signs escaped. -/
def escaped (cs : List Char) : List Char :=
  cs.flatMap fun c => if signs.contains c then ['\\', c] else [c]

theorem toList_escape (text : String) : (escape text).toList = escaped text.toList := by
  rw [escape, String.toList_ofList]
  rfl

theorem escaped_cons_sign {c : Char} (hc : c ∈ signs) (cs : List Char) :
    escaped (c :: cs) = '\\' :: c :: escaped cs := by
  simp [escaped, hc]

theorem escaped_cons_of_not_mem {c : Char} (hc : c ∉ signs) (cs : List Char) :
    escaped (c :: cs) = c :: escaped cs := by
  simp [escaped, hc]

theorem ne_of_not_mem_signs {c : Char} (hc : c ∉ signs) {d : Char} (hd : d ∈ signs) : c ≠ d :=
  fun h => hc (h ▸ hd)

theorem length_le_escaped (cs : List Char) : cs.length ≤ (escaped cs).length := by
  induction cs with
  | nil => simp
  | cons c cs ih =>
    by_cases hc : c ∈ signs
    · rw [escaped_cons_sign hc]
      simp
      omega
    · rw [escaped_cons_of_not_mem hc]
      simpa using ih

end Regex

namespace Lexicon

open Regex

/-- An escaped text has no bar that splits it. -/
theorem splitFrom_escaped (cs part : List Char) :
    splitFrom 0 0 part (escaped cs) = some [part.reverse ++ escaped cs] := by
  induction cs generalizing part with
  | nil => simp [escaped, splitFrom]
  | cons c cs ih =>
    by_cases hc : c ∈ signs
    · rw [escaped_cons_sign hc, splitFrom, ih]
      simp
    · have hne := fun d => ne_of_not_mem_signs hc (d := d)
      rw [escaped_cons_of_not_mem hc, splitFrom]
      · rw [if_neg (by decide), if_neg (hne '(' (by decide)), if_neg (hne ')' (by decide)),
          if_neg (by simp [hne '|' (by decide)]), ih]
        simp
      · exact fun _ _ h _ => hne '\\' (by decide) h
      · exact fun _ h _ => hne '[' (by decide) h
      · exact fun _ h _ => hne '[' (by decide) h
      · exact fun _ h _ => hne '[' (by decide) h
      · exact hne '[' (by decide)

theorem branches?_escaped (cs : List Char) : branches? (escaped cs) = none := by
  simp [branches?, splitFrom_escaped]

/-- What is matched for an escaped text is that text. -/
theorem take_eq_of_escape {engine : RegexEngine} (hengine : engine.ReadsEscapes) {line : Nat}
    {name : String} {branches : List Regex} (h : compile engine line (escape name) = .ok branches)
    {r : Regex} (hr : r ∈ branches) {text : List Char} {n : Nat} (hfind : r.find text = some n) :
    text.take n = name.toList := by
  unfold compile at h
  rw [mapError_eq_ok_iff] at h
  obtain ⟨whole, hwhole, h⟩ := bind_eq_ok_iff.1 h
  rw [toList_escape, branches?_escaped] at h
  cases h
  obtain rfl := List.mem_singleton.1 hr
  exact hengine name r hwhole text n hfind

end Lexicon

end LanguageWorkbench
