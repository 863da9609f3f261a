import LanguageWorkbench.Pattern.Engine
import LanguageWorkbench.Proofs.Literals
import Mathlib.Tactic.SplitIfs

/-!
# Programs of escaped texts

Read back an escaped text is a sequence of characters, and its program takes exactly these
characters.

Results:
* `Program.Spells`: a program that takes the characters of a text one after the other.
* `Pattern.readsEscapes`: the engine of this library reads escapes.
-/

namespace LanguageWorkbench

/-! ## Reading -/

namespace PatternReader

open Regex

/-- An escaped sign is read as itself. -/
theorem escape_sign {c : Char} (hc : c ∈ signs) (cs : List Char) :
    PatternText.escape false (c :: cs) = some (.char c, cs) := by
  have hall : c ∈ ['\\', '.', '+', '*', '?', '(', ')', '|', '[', ']', '\x7b', '\x7d', '^', '$', '#',
      '&', '-', '~'] := hc
  simp only [List.mem_cons, List.not_mem_nil, or_false] at hall
  rcases hall with rfl | rfl | rfl | rfl | rfl | rfl | rfl | rfl | rfl | rfl | rfl | rfl | rfl |
    rfl | rfl | rfl | rfl | rfl <;> rfl

theorem step_of_not_mem {c : Char} (hc : c ∉ signs) (r : PatternReader) (cs : List Char) :
    r.step c cs = some (r.add (.char c), cs) := by
  have hne := fun d => ne_of_not_mem_signs hc (d := d)
  unfold step
  split
  all_goals first
    | rfl
    | exact absurd (by decide) hc

theorem readAll_escaped (cs : List Char) : ∀ (fuel : Nat) (r : PatternReader) (rest : List Char),
    r.verbose = false → readAll (fuel + cs.length) r (escaped cs ++ rest) =
      readAll fuel { r with parts := (cs.map Pattern.char).reverse ++ r.parts } rest := by
  induction cs with
  | nil => intro fuel r rest _; rfl
  | cons c cs ih =>
    intro fuel r rest hr
    have hnext := ih fuel (r.add (.char c)) rest hr
    rw [List.length_cons, ← Nat.add_assoc, readAll, hr]
    by_cases hc : c ∈ signs
    · rw [escaped_cons_sign hc]
      have hstep : r.step '\\' (c :: (escaped cs ++ rest)) =
          some (r.add (.char c), escaped cs ++ rest) := by
        simp only [step, hr, escape_sign hc]
        rfl
      simp only [List.cons_append, PatternText.skip, Bool.false_eq_true, if_false, hstep,
        Option.bind_eq_bind, Option.bind_some, hnext]
      simp [add, hr]
    · rw [escaped_cons_of_not_mem hc]
      simp only [List.cons_append, PatternText.skip, Bool.false_eq_true, if_false,
        step_of_not_mem hc, Option.bind_eq_bind, Option.bind_some, hnext]
      simp [add, hr]

end PatternReader

namespace Pattern

/-- The tree of an escaped text at the start of a text. -/
def literal (cs : List Char) : Pattern :=
  .sequence [.assertion .lineStart, .group false [] (.ofSequence (cs.map .char))]

theorem parse_escaped {cs : List Char} {p : Pattern}
    (h : parse ("^(?:".toList ++ Regex.escaped cs ++ [')']) = some p) : p = literal cs := by
  have hlen : (Regex.escaped cs).length =
      (Regex.escaped cs).length - cs.length + cs.length :=
    (Nat.sub_add_cancel (Regex.length_le_escaped cs)).symm
  generalize (Regex.escaped cs).length - cs.length = k at hlen
  -- the anchor and the bracket that opens the group, then the text, then the other bracket
  have hread : PatternReader.readAll (("^(?:".toList ++ Regex.escaped cs ++ [')']).length + 1)
      .initial ("^(?:".toList ++ Regex.escaped cs ++ [')']) =
      some ⟨[], [], [.group false [] (.ofSequence (cs.map .char)), .assertion .lineStart],
        false, []⟩ := by
    have hfuel : ("^(?:".toList ++ Regex.escaped cs ++ [')']).length + 1 =
        (k + 4 + cs.length) + 2 := by
      simp [hlen]
      omega
    rw [hfuel]
    show PatternReader.readAll (k + 4 + cs.length)
      ⟨[⟨false, [], [], [.assertion .lineStart], false⟩], [], [], false, []⟩
      (Regex.escaped cs ++ [')']) = _
    rw [PatternReader.readAll_escaped cs (k + 4) _ [')'] rfl]
    simp [PatternReader.readAll, PatternText.skip, PatternReader.step, PatternReader.closeGroup,
      PatternReader.closed, ofAlternatives]
  unfold parse at h
  rw [hread] at h
  simp only [Option.bind_eq_bind, Option.bind_some, List.isEmpty_nil, Bool.not_true,
    Bool.false_eq_true, if_false] at h
  split_ifs at h
  exact (Option.some.inj h).symm

/-! ## Compiling -/

theorem compileWith_char (c : Char) :
    compileWith .initial (.char c) = some (.text [c], .initial) := by
  have hfold : (Flags.initial.reading).folded (.single c) = .single c := rfl
  rw [compileWith, hfold]
  simp [Matcher.ofSet, CharSet.single?, CharSet.single]

theorem compileAll_chars (cs : List Char) : compileAll .initial (cs.map .char) =
    some (cs.map fun c => .text [c], .initial) := by
  induction cs with
  | nil => rfl
  | cons c cs ih => simp [compileAll, compileWith_char, ih]

/-- The matcher of a text. -/
def literalMatcher : List Char → Matcher
  | [] => .empty
  | c :: cs => .text (c :: cs)

theorem ofParts_chars (cs : List Char) :
    Matcher.ofParts (cs.map fun c => .text [c]) = literalMatcher cs := by
  have hparts : (cs.map fun c => Matcher.text [c]).flatMap Matcher.parts =
      cs.map fun c => .text [c] := by
    induction cs with
    | nil => rfl
    | cons c cs ih => rw [List.map_cons, List.flatMap_cons, ih]; rfl
  have hjoin : ∀ c cs, Matcher.joinTexts ((c :: cs).map fun c => .text [c]) = [.text (c :: cs)] := by
    intro c cs
    induction cs generalizing c with
    | nil => rfl
    | cons d cs ih =>
      rw [List.map_cons, Matcher.joinTexts, ih]
      rfl
  rw [Matcher.ofParts, hparts]
  cases cs with
  | nil => rfl
  | cons c cs =>
    rw [hjoin]
    rfl

theorem compileWith_text (cs : List Char) :
    compileWith .initial (.ofSequence (cs.map .char)) = some (literalMatcher cs, .initial) := by
  match cs with
  | [] => rfl
  | [c] => exact compileWith_char c
  | c :: d :: cs =>
    show compileWith .initial (.sequence ((c :: d :: cs).map .char)) = _
    rw [compileWith, compileAll_chars]
    simp only [Option.bind_eq_bind, Option.bind_some, ofParts_chars]
    rfl

theorem compileWith_literal (cs : List Char) : compileWith .initial (literal cs) =
    some (.ofParts [.place .textStart, literalMatcher cs], .initial) := by
  have hgroup : compileWith .initial (.group false [] (.ofSequence (cs.map .char))) =
      some (literalMatcher cs, .initial) := by
    rw [compileWith, show Flags.initial.setAll [] = .initial from rfl, compileWith_text]
    rfl
  have hplace : compileWith .initial (.assertion .lineStart) =
      some (.place .textStart, .initial) := rfl
  rw [literal, compileWith, compileAll, hplace]
  simp only [Option.bind_eq_bind, Option.bind_some, compileAll, hgroup]
  rfl

/-- The anchor and the text of a literal. -/
theorem ofParts_literal (cs : List Char) : Matcher.ofParts [.place .textStart, literalMatcher cs] =
    match cs with
    | [] => .place .textStart
    | c :: cs => .sequence [.place .textStart, .text (c :: cs)] := by
  cases cs <;> rfl

end Pattern

/-! ## Programs -/

namespace Matcher

theorem length_blockOfText (c : Char) (cs : List Char) :
    (blockOfText (c :: cs)).length = (c :: cs).length := by
  induction cs generalizing c with
  | nil => rfl
  | cons d cs ih =>
    show 1 + (blockOfText (d :: cs)).length = _
    rw [ih]
    simp only [List.length_cons]
    omega

/-- One instruction for each character, each followed by the next. -/
theorem getElem?_blockOfText (c : Char) (cs : List Char) (start i : Nat) {d : Char}
    (hd : (c :: cs)[i]? = some d) :
    ((blockOfText (c :: cs)).code start (start + (c :: cs).length))[i]? =
      some (.char (.single d) (start + i + 1)) := by
  induction cs generalizing c start i with
  | nil =>
    cases i with
    | zero => cases hd; rfl
    | succ i => simp at hd
  | cons e cs ih =>
    show (Instruction.char (.single c) (start + 1) ::
      (blockOfText (e :: cs)).code (start + 1) (start + (c :: e :: cs).length))[i]? = _
    cases i with
    | zero => cases hd; rfl
    | succ i =>
      rw [List.getElem?_cons_succ] at hd ⊢
      have := ih e (start + 1) i hd
      rw [show start + (c :: e :: cs).length = start + 1 + (e :: cs).length by
        simp only [List.length_cons]; omega, this]
      congr 2
      omega

theorem length_code_blockOfText (c : Char) (cs : List Char) (start next : Nat) :
    ((blockOfText (c :: cs)).code start next).length = (c :: cs).length := by
  induction cs generalizing c start with
  | nil => rfl
  | cons e cs ih =>
    show ((blockOfText (e :: cs)).code (start + 1) next).length + 1 = _
    rw [ih]
    rfl

end Matcher

namespace Program

/-- A program that takes the characters of a text, one after the other, at the start. -/
structure Spells (p : Program) (cs : List Char) : Prop where
  anchored : p.anchored = true
  start : p.code[0]? = some (.place .textStart 1)
  char : ∀ {i : Nat} {c : Char}, cs[i]? = some c →
    p.code[i + 1]? = some (.char (.single c) (i + 2))
  done : p.code[cs.length + 1]? = some .done

theorem spells_literal (cs : List Char) :
    (ofMatcher (.ofParts [.place .textStart, Pattern.literalMatcher cs])).Spells cs := by
  rw [Pattern.ofParts_literal]
  cases cs with
  | nil =>
    refine ⟨rfl, rfl, ?_, rfl⟩
    intro i c hc
    simp at hc
  | cons c cs =>
    have hcode : (ofMatcher (.sequence [.place .textStart, .text (c :: cs)])).code.toList =
        .place .textStart 1 :: ((Matcher.blockOfText (c :: cs)).code 1 (1 + (c :: cs).length) ++
          [.done]) := by
      rw [← Matcher.length_blockOfText]
      rfl
    have hget : ∀ i, (ofMatcher (.sequence [.place .textStart, .text (c :: cs)])).code[i + 1]? =
        ((Matcher.blockOfText (c :: cs)).code 1 (1 + (c :: cs).length) ++ [.done])[i]? := by
      intro i
      rw [← Array.getElem?_toList, hcode, List.getElem?_cons_succ]
    refine ⟨rfl, ?_, ?_, ?_⟩
    · rw [← Array.getElem?_toList, hcode]
      rfl
    · intro i d hd
      have hlt := (List.getElem?_eq_some_iff.1 hd).1
      rw [hget, List.getElem?_append_left (by rwa [Matcher.length_code_blockOfText]),
        Matcher.getElem?_blockOfText c cs 1 i hd]
      congr 2
      omega
    · rw [hget, List.getElem?_append_right (Nat.le_of_eq (Matcher.length_code_blockOfText ..))]
      rw [Matcher.length_code_blockOfText]
      simp

/-- An instruction that takes a character or ends a match makes a thread. -/
theorem waiting_follow {p : Program} {c : Cursor} {fuel label : Nat} {threads : Threads}
    (hnew : label ∉ threads.followed) {i : Instruction} (hi : p.code[label]? = some i)
    (hkind : i = .done ∨ ∃ s next, i = .char s next) :
    (p.follow c (fuel + 1) threads label).waiting = label :: threads.waiting := by
  rcases hkind with rfl | ⟨s, next, rfl⟩ <;> simp [follow, hnew, hi]

variable {p : Program} {cs : List Char}

theorem Spells.exists_instruction (h : p.Spells cs) {i : Nat} (hi : i ≤ cs.length) :
    ∃ x, p.code[i + 1]? = some x ∧ (x = .done ∨ ∃ s next, x = .char s next) := by
  rcases Nat.lt_or_eq_of_le hi with hlt | rfl
  · exact ⟨_, h.char (List.getElem?_eq_getElem hlt), .inr ⟨_, _, rfl⟩⟩
  · exact ⟨_, h.done, .inl rfl⟩

theorem contains_single {c d : Char} : (CharSet.single c).contains d = true ↔ d = c := by
  simp only [CharSet.contains, CharSet.hasCode, CharSet.single, CharSet.inRanges, Bool.or_false,
    Bool.and_eq_true, decide_eq_true_eq]
  constructor
  · rintro ⟨h, h'⟩
    exact Char.toNat_inj.1 (Nat.le_antisymm h' h)
  · rintro rfl
    exact ⟨Nat.le_refl _, Nat.le_refl _⟩

/-- The only thread waits for the rest of the text. -/
theorem Spells.run_eq_some (h : p.Spells cs) : ∀ {rest : List Char} {i n : Nat}, i ≤ cs.length →
    p.run i none rest [i + 1] = some n → n = cs.length ∧ rest.take (n - i) = cs.drop i := by
  intro rest
  induction rest with
  | nil =>
    intro i n hi hrun
    rcases Nat.lt_or_eq_of_le hi with hlt | rfl
    · simp [run, isDone, h.char (List.getElem?_eq_getElem hlt)] at hrun
    · simp only [run, isDone, h.done, List.any_cons, List.any_nil, Bool.or_false, if_true,
        Option.some.injEq] at hrun
      exact ⟨hrun.symm, by simp [← hrun]⟩
  | cons d rest ih =>
    intro i n hi hrun
    rcases Nat.lt_or_eq_of_le hi with hlt | rfl
    · have hcode := h.char (List.getElem?_eq_getElem hlt)
      have hdone : p.isDone (i + 1) = false := by simp [isDone, hcode]
      simp only [run, List.any_cons, hdone, List.any_nil, Bool.or_false, Bool.false_eq_true,
        if_false, List.takeWhile_cons, Bool.not_false, if_true, List.takeWhile_nil,
        List.foldl_cons, List.foldl_nil, take, hcode] at hrun
      by_cases hd : (CharSet.single cs[i]).contains d = true
      · obtain ⟨x, hx, hkind⟩ := h.exists_instruction (i := i + 1) hlt
        have hnew : i + 2 ∉ Threads.none.followed := by
          simp [Threads.none, NatSet.mem_def, NatSet.empty]
        rw [if_pos hd, waiting_follow hnew hx hkind] at hrun
        obtain ⟨rfl, htake⟩ := ih hlt hrun
        refine ⟨rfl, ?_⟩
        rw [contains_single] at hd
        rw [show cs.length - i = cs.length - (i + 1) + 1 by omega, List.take_succ_cons, htake, hd,
          List.drop_eq_getElem_cons hlt]
      · rw [if_neg hd] at hrun
        simp only [Threads.none, List.reverse_nil] at hrun
        cases rest <;> simp [run] at hrun
    · have hdone : p.isDone (cs.length + 1) = true := by simp [isDone, h.done]
      simp only [run, List.any_cons, hdone, Bool.true_or, if_true, List.takeWhile_cons,
        Bool.not_true, Bool.false_eq_true, if_false, Option.some.injEq] at hrun
      exact ⟨hrun.symm, by simp [← hrun]⟩

/-- What the program takes is the text. -/
theorem Spells.take_eq (h : p.Spells cs) {text : List Char} {n : Nat}
    (hfind : p.find text = some n) : text.take n = cs := by
  have hsize : ∃ k, p.code.size = k + 1 :=
    Nat.exists_eq_succ_of_ne_zero (Nat.ne_of_gt (Nat.lt_of_le_of_lt (Nat.zero_le _)
      (Array.getElem?_eq_some_iff.1 h.start).1))
  obtain ⟨k, hk⟩ := hsize
  obtain ⟨x, hx, hkind⟩ := h.exists_instruction (Nat.zero_le cs.length)
  have hholds : Place.holds (Cursor.start text) .textStart = true := rfl
  have hnew : 1 ∉ NatSet.insert .empty 0 := by decide
  have hwaiting : (p.follow (Cursor.start text) (p.code.size + 1) .none 0).waiting = [1] := by
    have hzero : 0 ∉ Threads.none.followed := by decide
    rw [follow, if_neg hzero]
    simp only [h.start, hholds, if_true, hk]
    exact waiting_follow hnew hx hkind
  simp only [find, h.anchored, if_true, List.findSome?_cons, List.findSome?_nil, findAt, hwaiting,
    List.reverse_singleton] at hfind
  cases hrun : p.run 0 none text [1] with
  | none => simp [Cursor.start, hrun] at hfind
  | some m =>
    simp only [Cursor.start, hrun, Option.some.injEq] at hfind
    subst hfind
    simpa using (h.run_eq_some (Nat.zero_le _) hrun).2

end Program

/-- A program of an escaped text takes that text and nothing else. -/
theorem Pattern.readsEscapes : engine.ReadsEscapes := by
  intro text r hr input n hfind
  obtain ⟨p, hp, rfl⟩ := map_eq_ok_iff.1 hr
  unfold Regex.atStart Pattern.compile at hp
  rw [Regex.toList_escape] at hp
  split at hp
  · cases hp
  · rename_i m hm
    split_ifs at hp
    cases hp
    obtain ⟨pattern, hparse, hm⟩ := Option.bind_eq_some_iff.1 hm
    obtain rfl := parse_escaped hparse
    rw [compileWith_literal] at hm
    obtain rfl := Option.some.inj hm
    exact (Program.spells_literal _).take_eq hfind

end LanguageWorkbench
