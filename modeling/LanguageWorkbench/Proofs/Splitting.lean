import LanguageWorkbench.Language
import LanguageWorkbench.Proofs.Driving

/-!
# Texts in parts

A parser holds back the longest match in what it has read only if the match reaches the
end. A shorter match is fed at once, even if the text that follows would make it longer.
So parts make no difference exactly where that never happens.

Results:
* `Language.parseParts_eq_of_agrees`: a text in parts has the outcome of the whole text if
  its parts are cut into the same pieces, as for all texts exactly stable lexicons do.
-/

namespace LanguageWorkbench.Language

/-- A text in parts has the outcome of the whole text if its parts are cut into the pieces
    of the whole text. The lexicons that cut all parts of all texts so are the stable
    ones. -/
theorem parseParts_eq_of_agrees (l : Language) :
    (∀ (file : String) (realm : Nat) (parts : List String),
      l.parser.lexicon.Agrees (parts.map String.toList) →
        ((l.parser.resetTo file realm).parseParts parts).result =
          (l.parse file (String.join parts) realm).result) ∧
      ((∀ parts : List String, l.parser.lexicon.Agrees (parts.map String.toList)) ↔
        l.parser.lexicon.Stable) := by
  constructor
  · intro file realm parts hparts
    have htext : (String.join parts).toList = (parts.map String.toList).flatten := by
      rw [String.toList_join, List.flatMap_def]
    have hwhole := l.parser.lexicon.agrees_singleton (String.join parts).toList
    rw [Lexicon.Agrees, List.flatten_singleton] at hwhole
    rw [Lexicon.Agrees, ← htext, ← hwhole] at hparts
    rw [parse, Parser.parse_eq]
    have hsame : ((l.parser.resetTo file realm).parseParts parts).unread =
        ((l.parser.resetTo file realm).parseParts [String.join parts]).unread :=
      Parser.parseParts_congr hparts
    have hresult := congrArg Parser.Stepped.result hsame
    exact hresult
  · rw [← Lexicon.agrees_iff_stable]
    constructor
    · intro h parts
      have := h (parts.map String.ofList)
      rwa [List.map_map, show String.toList ∘ String.ofList = id from
        funext fun _ => String.toList_ofList, List.map_id] at this
    · exact fun h parts => h _

/-- A grammar of comparisons, one of whose signs begins with another. -/
def order : String :=
  "language order\nkeyword a\nsymbol '<' lt\nsymbol '<=>' cmp\nstart s\n" ++
    "s:\n    a op a\nop:\n    '<'\n    '<=>'\n"

/-- Where the longer sign is cut before its second character, all of it waits. -/
theorem parseParts_order : ∃ l, (compile order).result = .ok l ∧
    l.parser.lexicon.Agrees (["a<", "=>a"].map String.toList) ∧
      ((l.parser.resetTo "in" 0).parseParts ["a<", "=>a"]).result =
        (l.parse "in" (String.join ["a<", "=>a"]) 0).result := by
  have hok : ((compile order).result.toOption.map fun l =>
      decide (l.parser.lexicon.cutParts [] (["a<", "=>a"].map String.toList) =
        l.parser.lexicon.pieces true (["a<", "=>a"].map String.toList).flatten)) =
      some true := by
    decide +kernel
  cases hl : (compile order).result with
  | error f =>
    rw [hl] at hok
    cases hok
  | ok l =>
    rw [hl] at hok
    have hparts := of_decide_eq_true (Option.some.inj hok)
    exact ⟨l, rfl, hparts, (parseParts_eq_of_agrees l).1 "in" 0 _ hparts⟩

/-- After the first two characters of the longer sign the parser takes the shorter one. -/
theorem parseParts_ne_order : ∃ l t, (compile order).result = .ok l ∧
    (l.parse "in" "a<=>a" 0).result = .ok t ∧ l.schema.sexp t = "(s a <=> a)" ∧
      ((l.parser.resetTo "in" 0).parseParts ["a<=", ">a"]).result =
        .error (.error (.lexical ⟨"in", 1, 3⟩ '=')) := by
  have hok : ((compile order).result.toOption.map fun l =>
      (((l.parse "in" "a<=>a" 0).result.toOption.map l.schema.sexp,
        match ((l.parser.resetTo "in" 0).parseParts ["a<=", ">a"]).result with
        | .ok _ => none
        | .error f => some f) : Option String × Option Failure)) =
      some (some "(s a <=> a)", some (.error (.lexical ⟨"in", 1, 3⟩ '='))) := by
    decide +kernel
  cases hl : (compile order).result with
  | error f =>
    rw [hl] at hok
    cases hok
  | ok l =>
    rw [hl] at hok
    obtain ⟨hwhole, hparts⟩ := Prod.mk.inj (Option.some.inj hok)
    cases ht : (l.parse "in" "a<=>a" 0).result with
    | error f =>
      rw [ht] at hwhole
      cases hwhole
    | ok t =>
      rw [ht] at hwhole
      refine ⟨l, t, rfl, ht, Option.some.inj hwhole, ?_⟩
      split at hparts
      · cases hparts
      · rename_i f hf
        rw [hf, Option.some.inj hparts]

end LanguageWorkbench.Language
