import LanguageWorkbench.Text.CharSet

/-!
# Blanks, words and lines

A blank is a character of the Unicode class `White_Space`. Texts are taken apart
as lists of characters.

* `trim`, `trimLeft`, `trimRight` drop blanks from the ends.
* `words` are the maximal runs without blanks.
* `lines` are the pieces between line feeds, without one carriage return before
  the line feed.
-/

namespace LanguageWorkbench.Text

/-- The characters of the Unicode class `White_Space`. -/
def blanks : CharSet :=
  ⟨[(0x9, 0xD), (0x20, 0x20), (0x85, 0x85), (0xA0, 0xA0), (0x1680, 0x1680), (0x2000, 0x200A),
    (0x2028, 0x2029), (0x202F, 0x202F), (0x205F, 0x205F), (0x3000, 0x3000)]⟩

/-- Whether a character is blank. -/
def isBlank (c : Char) : Bool := blanks.contains c

/-! ## Runs of one kind -/

/-- A text that begins with characters of a kind and goes on with another one. -/
theorem span_append {p : Char → Bool} {cs rest : List Char} (hcs : ∀ c ∈ cs, p c = true)
    (hrest : ∀ c ∈ rest.head?, p c = false) :
    (cs ++ rest).takeWhile p = cs ∧ (cs ++ rest).dropWhile p = rest := by
  rw [List.takeWhile_append_of_pos hcs, List.dropWhile_append_of_pos hcs]
  cases rest with
  | nil => exact ⟨List.append_nil cs, rfl⟩
  | cons c rest =>
    have hc : ¬ p c = true := by simp [hrest c rfl]
    rw [List.takeWhile_cons_of_neg hc, List.dropWhile_cons_of_neg hc]
    exact ⟨List.append_nil cs, rfl⟩

/-! ## Trimming -/

/-- Without the blanks at the start. -/
def trimLeft (cs : List Char) : List Char := cs.dropWhile isBlank

/-- Without the blanks at the end. -/
def trimRight (cs : List Char) : List Char := (cs.reverse.dropWhile isBlank).reverse

/-- Without the blanks at both ends. -/
def trim (cs : List Char) : List Char := trimRight (trimLeft cs)

@[simp] theorem trimLeft_nil : trimLeft [] = [] := rfl

@[simp] theorem trimRight_nil : trimRight [] = [] := rfl

theorem trimLeft_eq_self {cs : List Char} (h : ∀ c ∈ cs.head?, isBlank c = false) :
    trimLeft cs = cs :=
  (span_append (List.forall_mem_nil _) h).2

theorem length_trimLeft_le (cs : List Char) : (trimLeft cs).length ≤ cs.length :=
  (List.dropWhile_sublist _).length_le

/-! ## Pieces between separators -/

/-- The pieces between the characters that `isSeparator` picks. Empty pieces
    stay, so there is always one piece more than there are separators. -/
def pieces (isSeparator : Char → Bool) : List Char → List (List Char)
  | [] => [[]]
  | c :: cs =>
    match pieces isSeparator cs with
    | [] => [[c]]
    | first :: rest =>
      if isSeparator c then [] :: first :: rest else (c :: first) :: rest

/-- The maximal runs without blanks. -/
def words (cs : List Char) : List (List Char) :=
  (pieces isBlank cs).filter (!·.isEmpty)

/-- Whether the text is free of blanks. -/
def isSolid (cs : List Char) : Bool := cs.all (!isBlank ·)

theorem isBlank_of_mem_of_isSolid {cs : List Char} {c : Char} (h : isSolid cs = true)
    (hc : c ∈ cs) : isBlank c = false := by
  simpa using List.all_eq_true.1 h c hc

/-- There is nothing to trim where no blank is. -/
theorem trim_of_isSolid {cs : List Char} (h : isSolid cs = true) : trim cs = cs := by
  have hleft : trimLeft cs = cs := trimLeft_eq_self fun c hc =>
    isBlank_of_mem_of_isSolid h (List.mem_of_mem_head? hc)
  have hright : trimLeft cs.reverse = cs.reverse := trimLeft_eq_self fun c hc =>
    isBlank_of_mem_of_isSolid h (List.mem_reverse.1 (List.mem_of_mem_head? hc))
  rw [trim, hleft, trimRight, ← trimLeft, hright, List.reverse_reverse]

/-- The first word and, trimmed, what follows it. -/
def splitWord (cs : List Char) : List Char × List Char :=
  let cs := trim cs
  (cs.takeWhile (!isBlank ·), trim (cs.dropWhile (!isBlank ·)))

/-! ## Lines -/

/-- Without one carriage return at the end. -/
def dropReturn (line : List Char) : List Char :=
  if line.getLast? = some '\r' then line.dropLast else line

/-- The lines of a text. A line feed ends a line, so a text that ends in one has
    no empty line after it, and only a line that a line feed ends loses a carriage
    return. -/
def lines (cs : List Char) : List (List Char) :=
  let all := pieces (· == '\n') cs
  let last := all.getLast?.getD []
  all.dropLast.map dropReturn ++ if last.isEmpty then [] else [last]

end LanguageWorkbench.Text
