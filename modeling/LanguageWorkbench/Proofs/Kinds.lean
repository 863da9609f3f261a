import LanguageWorkbench.Bindings
import LanguageWorkbench.Proofs.SuffixTags

/-!
# The kinds of generated code

The names of kinds are the canonical names of the rules with a kind, spelled without dashes. A
word begins with a capital and an underscore closes a word that ends in a digit, so such a name
tells where its words begin, except that a word that starts with a digit runs on from a letter.

Results:
* `Identifier.joinDigits`: a canonical name without the dashes between a letter and a digit.
* `Identifier.camel_eq_camel_iff`: what the spelling of a type keeps of a canonical name.
* `Grammar.kinds_nodup_iff_of_load`: when the kinds of generated code are distinct.
-/

namespace LanguageWorkbench

namespace Identifier

variable {before c d : Char} {cs ds : List Char}

/-! ## The spelling of types -/

/-- What follows the last character of a word. -/
def closing (c : Char) : List Char := if c.isDigit then ['_'] else []

/-- The spelling of a type for what is left of a canonical name after the character `before`,
    which is a dash at the start. -/
def camelAfter : Char → List Char → List Char
  | before, [] => closing before
  | before, c :: cs =>
    if c = '-' then closing before ++ camelAfter c cs
    else (if before = '-' then c.toUpper else c) :: camelAfter c cs

/-- What is left of a canonical name without the dashes between a letter and a digit. -/
def joinAfter : Char → List Char → List Char
  | _, [] => []
  | before, c :: cs =>
    if c = '-' ∧ before.isLower = true ∧ cs.head?.any Char.isDigit = true then joinAfter c cs
    else c :: joinAfter c cs

/-- A canonical name without the dashes between a letter and a digit. -/
def joinDigits (dash : String) : String := String.ofList (joinAfter '-' dash.toList)

/-- What a type's name is spelled from; `fresh` is at the start of a word. -/
def readCamel : Bool → List Char → List Char
  | _, [] => []
  | fresh, c :: cs =>
    if c = '_' then (if cs.isEmpty then [] else '-' :: readCamel true cs)
    else if c.isUpper ∧ fresh = false then '-' :: c.toLower :: readCamel false cs
    else c.toLower :: readCamel false cs

theorem not_isDigit_of_isLower (h : c.isLower = true) : c.isDigit = false := by
  simp [Char.isDigit, Char.isLower, UInt32.le_iff_toNat_le] at h ⊢
  omega

theorem not_isLower_of_isDigit (h : c.isDigit = true) : c.isLower = false := by
  cases hlower : c.isLower with
  | false => rfl
  | true =>
    rw [not_isDigit_of_isLower hlower] at h
    cases h

theorem isLower_of_not_isDigit (h : isWordChar c = true) (hdigit : c.isDigit = false) :
    c.isLower = true := by
  simpa [isWordChar, hdigit] using h

theorem toUpper_of_isDigit (h : c.isDigit = true) : c.toUpper = c :=
  Char.toUpper_eq_of_not_isLower (by simp [not_isLower_of_isDigit h])

theorem toUpper_ne_underscore (h : isWordChar c = true) : c.toUpper ≠ '_' := by
  intro heq
  have hlower : c.toLower = '_' := by rw [← Char.toLower_toUpper_eq_toLower, heq]; rfl
  rw [toLower_of_isWordChar h] at hlower
  exact ne_underscore_of_isWordChar h hlower

theorem not_isBlank_of_isWordChar (h : isWordChar c = true) : Text.isBlank c = false := by
  simp only [isWordChar, Char.isLower, Char.isDigit, Bool.or_eq_true, Bool.and_eq_true,
    decide_eq_true_eq] at h
  have hrange : (97 ≤ c.toNat ∧ c.toNat ≤ 122) ∨ (48 ≤ c.toNat ∧ c.toNat ≤ 57) := h
  simp only [Text.isBlank, Text.blanks, CharSet.contains, CharSet.hasCode, CharSet.inRanges,
    Bool.and_eq_false_iff, Bool.or_eq_false_iff, decide_eq_false_iff_not]
  omega

theorem camelWord_cons (c : Char) (cs : List Char) :
    camelWord (c :: cs) = c.toUpper :: cs ++ closing ((c :: cs).getLast (List.cons_ne_nil c cs)) := by
  simp only [camelWord, List.getLast?_eq_some_getLast (List.cons_ne_nil c cs), Option.any_some, closing]
  split_ifs <;> simp

/-- The pieces of a text of words and dashes with a space for each dash, by their spelling. -/
theorem camelAfter_pieces (h : ∀ c ∈ cs, isWordChar c = true ∨ c = '-') :
    ∃ first rest, Text.pieces Text.isBlank (cs.map fun c => if c = '-' then ' ' else c) =
      first :: rest ∧ camelAfter '-' cs = (first :: rest).flatMap camelWord ∧
        ∀ before, before ≠ '-' → camelAfter before cs = first ++
          closing ((before :: first).getLast (List.cons_ne_nil before first)) ++
            rest.flatMap camelWord := by
  induction cs with
  | nil => exact ⟨[], [], rfl, rfl, fun before _ => by simp [camelAfter]⟩
  | cons c cs ih =>
    obtain ⟨hc, hcs⟩ := List.forall_mem_cons.1 h
    obtain ⟨first, rest, hpieces, hstart, hafter⟩ := ih hcs
    by_cases hdash : c = '-'
    · subst hdash
      have hblank : Text.isBlank ' ' = true := by decide
      refine ⟨[], first :: rest, ?_, ?_, fun before hne => ?_⟩
      · simp [Text.pieces, hpieces, hblank]
      · simpa [camelAfter, camelWord, closing] using hstart
      · simpa [camelAfter] using hstart
    · have hword := hc.resolve_right hdash
      refine ⟨c :: first, rest, ?_, ?_, fun before hne => ?_⟩
      · simp [Text.pieces, hpieces, hdash, not_isBlank_of_isWordChar hword]
      · simp [camelAfter, hdash, hafter c hdash, camelWord_cons]
      · simp [camelAfter, hdash, hne, hafter c hdash]

/-- The spelling of the type of a canonical name, character by character. -/
theorem toList_camel (i : Identifier) (h : ∀ c ∈ i.dash.toList, isWordChar c = true ∨ c = '-') :
    i.camel.toList = camelAfter '-' i.dash.toList := by
  obtain ⟨first, rest, hpieces, hstart, -⟩ := camelAfter_pieces h
  have hskip : ∀ ws : List (List Char),
      (ws.filter (!·.isEmpty)).flatMap camelWord = ws.flatMap camelWord := by
    intro ws
    induction ws with
    | nil => rfl
    | cons w ws ih => cases w <;> simp [ih, camelWord]
  rw [camel, String.toList_ofList, Text.words, hskip, space, joined, String.toList_ofList, hpieces,
    hstart]

/-! ## What a type's name tells -/

/-- The dashes between a letter and a digit are not spelled. -/
theorem camelAfter_joinAfter (before : Char) (cs : List Char) :
    camelAfter before (joinAfter before cs) = camelAfter before cs := by
  induction cs generalizing before with
  | nil => rfl
  | cons c cs ih =>
    rw [joinAfter]
    split_ifs with hjoin
    · obtain ⟨rfl, hlower, hdigit⟩ := hjoin
      have hbefore : before ≠ '-' := by
        rintro rfl
        cases hlower
      have hclosing : closing before = [] := by simp [closing, not_isDigit_of_isLower hlower]
      cases cs with
      | nil => cases hdigit
      | cons d cs =>
        have hd : d ≠ '-' := by
          rintro rfl
          cases hdigit
        have hjoined : joinAfter '-' (d :: cs) = d :: joinAfter d cs := by simp [joinAfter, hd]
        have hrest := ih '-'
        rw [hjoined] at hrest ⊢
        simpa [camelAfter, hd, hbefore, hclosing, toUpper_of_isDigit hdigit] using hrest
    · simp only [camelAfter, ih]

/-- Within a name, a capital begins a word. -/
theorem readCamel_false_cons (h : c ≠ '_') (cs : List Char) : readCamel false (c :: cs) =
    (if c.isUpper then ['-'] else []) ++ readCamel true (c :: cs) := by
  by_cases hupper : c.isUpper = true <;> simp [readCamel, h, hupper]

/-- A character of a word is spelled with a capital at most at its start. -/
theorem readCamel_camelAfter_cons (before : Char) (hc : isWordChar c = true) (cs : List Char) :
    readCamel (decide (before = '-')) (camelAfter before (c :: cs)) =
      c :: readCamel false (camelAfter c cs) := by
  have hdash := ne_dash_of_isWordChar hc
  by_cases hstart : before = '-'
  · have hne : c.toUpper ≠ '_' := toUpper_ne_underscore hc
    simp [camelAfter, hdash, hstart, readCamel, hne, toLower_of_isWordChar hc]
  · have hne : c ≠ '_' := ne_underscore_of_isWordChar hc
    simp [camelAfter, hdash, hstart, readCamel, hne, not_isUpper_of_isWordChar hc,
      toLower_of_isWordChar hc]

/-- Between two words there is an underscore after a digit, else the capital of the second word,
    unless that begins with a digit. -/
theorem readCamel_camelAfter_dash (hc : isWordChar c = true) {d : Char} (hd : isWordChar d = true)
    (hrest : readCamel true (camelAfter '-' (d :: ds)) = joinAfter '-' (d :: ds)) :
    readCamel false (camelAfter c ('-' :: d :: ds)) = joinAfter c ('-' :: d :: ds) := by
  have hword : camelAfter '-' (d :: ds) = d.toUpper :: camelAfter d ds := by
    simp [camelAfter, ne_dash_of_isWordChar hd]
  have hspell : camelAfter c ('-' :: d :: ds) = closing c ++ camelAfter '-' (d :: ds) := by
    simp [camelAfter]
  rw [hspell]
  cases hdigit : c.isDigit with
  | true =>
    have hlower : c.isLower = false := not_isLower_of_isDigit hdigit
    simpa [closing, hdigit, readCamel, joinAfter, hlower, hword] using hrest
  | false =>
    have hclosing : closing c = [] := by simp [closing, hdigit]
    have hread := readCamel_false_cons (toUpper_ne_underscore hd) (camelAfter d ds)
    have halpha : d.isAlpha = d.isLower := by simp [Char.isAlpha, not_isUpper_of_isWordChar hd]
    rw [hclosing, List.nil_append, hword, hread, ← hword, hrest, Char.isUpper_toUpper_eq_isAlpha,
      halpha]
    cases hdigit' : d.isDigit with
    | true =>
      have hlower : d.isLower = false := not_isLower_of_isDigit hdigit'
      simp [joinAfter, isLower_of_not_isDigit hc hdigit, hdigit', hlower]
    | false => simp [joinAfter, hdigit', isLower_of_not_isDigit hd hdigit']

/-- The name of a type tells the canonical name, but for the dashes between a letter and a
    digit. -/
theorem readCamel_camelAfter (h : Dashed cs) (before : Char) :
    readCamel (decide (before = '-')) (camelAfter before cs) = joinAfter before cs := by
  induction h generalizing before with
  | @single c hc =>
    have hclosing : readCamel false (closing c) = [] := by
      unfold closing
      split_ifs <;> rfl
    rw [readCamel_camelAfter_cons before hc, camelAfter, hclosing]
    simp [joinAfter, ne_dash_of_isWordChar hc]
  | @cons c cs hc _ ih =>
    have hdash := ne_dash_of_isWordChar hc
    have hrest := ih c
    rw [decide_eq_false hdash] at hrest
    rw [readCamel_camelAfter_cons before hc, hrest]
    simp [joinAfter, hdash]
  | @dash c cs hc hcs ih =>
    have hrest := ih '-'
    rw [decide_eq_true rfl] at hrest
    obtain ⟨d, ds, rfl, hd⟩ := hcs.exists_head
    rw [readCamel_camelAfter_cons before hc, readCamel_camelAfter_dash hc hd hrest]
    simp [joinAfter, ne_dash_of_isWordChar hc]

theorem camel_eq_camel_iff {i j : Identifier} (hi : Dashed i.dash.toList)
    (hj : Dashed j.dash.toList) :
    i.camel = j.camel ↔ joinDigits i.dash = joinDigits j.dash := by
  rw [← String.toList_inj, toList_camel i fun c hc => hi.mem_cases hc,
    toList_camel j fun c hc => hj.mem_cases hc, joinDigits, joinDigits, String.ofList_inj]
  constructor
  · intro h
    rw [← readCamel_camelAfter hi '-', h, readCamel_camelAfter hj '-']
  · intro h
    rw [← camelAfter_joinAfter, h, camelAfter_joinAfter]

end Identifier

/-! ## The main result -/

/-- The variants of the kinds of a grammar, besides that for nothing. -/
def Bindings.variants (g : Grammar) : List String := (concreteRules g).map (·.tag.camel)

namespace Grammar

open Bindings Code

variable {text : String} {g : Grammar} {r : Rule}

theorem exists_rule_of_mem_concreteRules (h : r ∈ concreteRules g) :
    ∃ id, g.rule? id = some r ∧ r.shape.isConcrete = true := by
  obtain ⟨hmem, hconcrete⟩ := List.mem_filter.1 h
  obtain ⟨id, hid⟩ := List.mem_iff_getElem?.1 hmem
  exact ⟨id, by rw [rule?, ← Array.getElem?_toList, hid], hconcrete⟩

/-- The name of a kind begins with a capital T or L. -/
theorem exists_camel_of_mem (h : load text = .ok g) (hr : r ∈ concreteRules g) :
    ∃ c cs, r.tag.camel.toList = c :: cs ∧ (c = 'T' ∨ c = 'L') := by
  obtain ⟨id, hid, hconcrete⟩ := exists_rule_of_mem_concreteRules hr
  have hdashed := dashed_of_load h hid
  obtain ⟨name, hname⟩ := tag_inFamily_of_load h hid
  obtain ⟨rest, hrest⟩ := exists_toList_canonical_inFamily r.shape.dashed_family name
  rw [Identifier.toList_camel _ fun c hc => hdashed.mem_cases hc, hname, hrest]
  cases hshape : r.shape with
  | term | sequence => exact ⟨_, _, by simp [Shape.family, Identifier.camelAfter]; rfl, .inl rfl⟩
  | plus => exact ⟨_, _, by simp [Shape.family, Identifier.camelAfter]; rfl, .inr rfl⟩
  | _ =>
    rw [hshape] at hconcrete
    cases hconcrete

theorem typeName_of_mem (h : load text = .ok g) (hr : r ∈ concreteRules g) :
    r.tag.typeName = .ok r.tag.camel := by
  obtain ⟨c, cs, hcamel, hc⟩ := exists_camel_of_mem h hr
  have hdigit : c.isDigit = false := by rcases hc with rfl | rfl <;> rfl
  simp [Identifier.typeName, Identifier.checkName, hcamel, hdigit]

/-- The generated enumeration has these variants. -/
theorem exists_kindEnum_of_load (h : load text = .ok g) {name : String}
    (hname : g.language.word = .ok name) : ∃ before after, ofGrammar g = .ok
      (ofText "pub mod" ++ [token name, curly (before ++ kindEnum (variants g) ++ after)]) := by
  have hvariants : (concreteRules g).mapM (fun rule => rule.tag.typeName) = .ok (variants g) := by
    rw [mapM_eq_ok_iff, variants, List.forall₂_map_right_iff, List.forall₂_same]
    exact fun r hr => typeName_of_mem h hr
  unfold ofGrammar
  simp only [hname, hvariants, bind, Except.bind, pure, Except.pure]
  rw [List.append_assoc (_ ++ kindEnum _ ++ _ ++ _), List.append_assoc (_ ++ kindEnum _ ++ _),
    List.append_assoc (_ ++ kindEnum _)]
  exact ⟨_, _, rfl⟩

/-- The kinds that are generated for a loaded grammar are the one for nothing and one for each
    term, sequence and list, spelled after its canonical name. They are distinct exactly if no two
    of these names differ only in dashes between a letter and a digit. -/
theorem kinds_nodup_iff_of_load (h : load text = .ok g) :
    (∀ name, g.language.word = .ok name → ∃ before after, ofGrammar g = .ok
      (ofText "pub mod" ++ [token name, curly (before ++ kindEnum (variants g) ++ after)])) ∧
    (("Nothing" :: variants g).Nodup ↔ ∀ r ∈ concreteRules g, ∀ r' ∈ concreteRules g,
      Identifier.joinDigits r.tag.dash = Identifier.joinDigits r'.tag.dash → r = r') := by
  refine ⟨fun name hname => exists_kindEnum_of_load h hname, ?_⟩
  have hnothing : "Nothing" ∉ variants g := by
    intro hmem
    obtain ⟨r, hr, hcamel⟩ := List.mem_map.1 hmem
    obtain ⟨c, cs, htoList, hc⟩ := exists_camel_of_mem h hr
    rw [hcamel] at htoList
    obtain rfl : c = 'N' := (List.cons.inj htoList).1.symm
    rcases hc with hc | hc <;> cases hc
  have hnodup : (concreteRules g).Nodup :=
    (List.Nodup.of_map _ (nodup_dash_of_load h)).filter _
  rw [List.nodup_cons, and_iff_right hnothing, variants, List.nodup_map_iff_inj_on hnodup]
  refine forall₂_congr fun r hr => forall₂_congr fun r' hr' => ?_
  obtain ⟨id, hid, -⟩ := exists_rule_of_mem_concreteRules hr
  obtain ⟨id', hid', -⟩ := exists_rule_of_mem_concreteRules hr'
  rw [Identifier.camel_eq_camel_iff (dashed_of_load h hid) (dashed_of_load h hid')]

/-- A grammar with digits at the ends of words. -/
def numberedWords : String :=
  "language kinds\nkeyword int8-t\nkeyword int8t\nstart rule\nrule:\n    'int8t'\n    int8-t int8t+\n"

theorem kinds_nodup_iff_of_load_numberedWords : ∃ g, load numberedWords = .ok g ∧
    (∃ before after, ofGrammar g = .ok (ofText "pub mod" ++ [token "kinds", curly (before ++
      kindEnum ["TokInt8_T", "TokInt8t", "ListTokInt8t", "TreeRule2_"] ++ after)])) ∧
    ∀ r ∈ concreteRules g, ∀ r' ∈ concreteRules g,
      Identifier.joinDigits r.tag.dash = Identifier.joinDigits r'.tag.dash → r = r' := by
  have hok : (load numberedWords).toOption.any (fun g =>
      decide (variants g = ["TokInt8_T", "TokInt8t", "ListTokInt8t", "TreeRule2_"] ∧
        g.language.lower = "kinds")) = true := by
    decide +kernel
  obtain ⟨g, hg, hgrammar⟩ := any_toOption_iff.1 hok
  obtain ⟨hvariants, hname⟩ := of_decide_eq_true hgrammar
  have hword : g.language.word = .ok "kinds" := by
    rw [Identifier.word, hname]
    rfl
  obtain ⟨hcode, hiff⟩ := kinds_nodup_iff_of_load hg
  rw [hvariants] at hcode hiff
  exact ⟨g, hg, hcode "kinds" hword, hiff.1 (by decide)⟩

/-- A grammar in which the second line of `rule` has no tag and another rule is named `rule2`. -/
def runTogether : String :=
  "language kinds\nkeyword x\nkeyword y\nstart rule\nrule:\n    rule2\n    x y\nrule2:\n    y x\n"

/-- The rule and the line have the same kind in generated code. -/
theorem exists_kinds_not_nodup_runTogether : ∃ g, load runTogether = .ok g ∧
    (∃ before after, ofGrammar g = .ok (ofText "pub mod" ++ [token "kinds", curly (before ++
      kindEnum ["TokX", "TokY", "TreeRule2_", "TreeRule2_"] ++ after)])) ∧
    ¬ ("Nothing" :: variants g).Nodup := by
  have hok : (load runTogether).toOption.any (fun g =>
      decide (variants g = ["TokX", "TokY", "TreeRule2_", "TreeRule2_"] ∧
        g.language.lower = "kinds")) = true := by
    decide +kernel
  obtain ⟨g, hg, hgrammar⟩ := any_toOption_iff.1 hok
  obtain ⟨hvariants, hname⟩ := of_decide_eq_true hgrammar
  have hword : g.language.word = .ok "kinds" := by
    rw [Identifier.word, hname]
    rfl
  refine ⟨g, hg, hvariants ▸ exists_kindEnum_of_load hg hword, ?_⟩
  rw [hvariants]
  decide

end Grammar

end LanguageWorkbench
