import LanguageWorkbench.Pattern.Compile
import LanguageWorkbench.Regex

/-!
# An engine for patterns

Patterns are compiled to programs, and a program is run on a text. Classes by Unicode properties
are refused, other than those of `\d`, `\s` and `\w`.

* `Program.find_le`: a match ends within the text.
* `Pattern.engine`: the engine of this library.
-/

namespace LanguageWorkbench

namespace Program

variable {p : Program} {text : List Char} {n : Nat}

/-- A match ends within the text, or it was found before. -/
theorem run_le : ∀ {text : List Char} {offset : Nat} {best : Option Nat} {threads : List Nat},
    p.run offset best text threads = some n → best = some n ∨ n ≤ offset + text.length := by
  intro text
  induction text with
  | nil =>
    intro offset best threads h
    rw [run] at h
    split at h
    · exact .inr (Nat.le_of_eq (Option.some.inj h).symm)
    · exact .inl h
  | cons d rest ih =>
    intro offset best threads h
    have hbest : (if threads.any p.isDone then some offset else best) = some n →
        best = some n ∨ n ≤ offset + (d :: rest).length := by
      intro h
      split at h
      · exact .inr (Nat.le_trans (Nat.le_of_eq (Option.some.inj h).symm) (Nat.le_add_right ..))
      · exact .inl h
    simp only [run] at h
    split at h
    · exact hbest h
    · rcases ih h with h | h
      · exact hbest h
      · refine .inr (Nat.le_trans h (Nat.le_of_eq ?_))
        rw [List.length_cons]
        omega

theorem rest_of_onward {c : Cursor} : ∀ {text : List Char} {offset : Nat} {before : Option Char},
    c ∈ Cursor.onward offset before text → c.offset + c.rest.length = offset + text.length
  | [], _, _, h => by
    obtain rfl := List.mem_singleton.1 h
    rfl
  | d :: rest, offset, _, h => by
    rcases List.mem_cons.1 h with rfl | h
    · rfl
    · rw [rest_of_onward h, List.length_cons]
      omega

theorem find_le (h : p.find text = some n) : n ≤ text.length := by
  obtain ⟨c, hc, hrun⟩ := List.exists_of_findSome?_eq_some h
  have hplace : c.offset + c.rest.length = text.length := by
    split at hc
    · obtain rfl := List.mem_singleton.1 hc
      exact Nat.zero_add _
    · rw [rest_of_onward hc, Nat.zero_add]
  rcases run_le hrun with h | h
  · cases h
  · omega

end Program

/-- A program by the matches it finds. -/
def Program.regex (p : Program) : Regex := ⟨p.find, p.find_le⟩

/-- The engine that compiles patterns to programs. -/
def Pattern.engine : RegexEngine := ⟨fun text => (Pattern.compile text).map Program.regex⟩

end LanguageWorkbench
