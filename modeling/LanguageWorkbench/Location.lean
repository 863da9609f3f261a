/-!
# Locations

A place in a named file, counted from line 1 and column 1. Columns count
characters, and a line feed starts the next line.
-/

namespace LanguageWorkbench

/-- The place of one character in a file. -/
structure Location where
  file : String
  line : Nat
  col : Nat
deriving DecidableEq, Repr

namespace Location

/-- The first character of a file. -/
def start (file : String) : Location := ⟨file, 1, 1⟩

/-- The place after the character `c`. -/
def step (l : Location) (c : Char) : Location :=
  if c = '\n' then ⟨l.file, l.line + 1, 1⟩ else ⟨l.file, l.line, l.col + 1⟩

/-- The place after a text. -/
def advance (l : Location) (text : List Char) : Location := text.foldl step l

/-- The first character of the same file. -/
def restart (l : Location) : Location := start l.file

/-- A location as it opens a message. -/
def render (l : Location) : String :=
  l.file ++ ":" ++ toString l.line ++ ":" ++ toString l.col

@[simp] theorem advance_nil (l : Location) : l.advance [] = l := rfl

@[simp] theorem advance_append (l : Location) (a b : List Char) :
    l.advance (a ++ b) = (l.advance a).advance b := List.foldl_append

@[simp] theorem step_file (l : Location) (c : Char) : (l.step c).file = l.file := by
  unfold step; split <;> rfl

@[simp] theorem advance_file (l : Location) (text : List Char) :
    (l.advance text).file = l.file := by
  induction text generalizing l with
  | nil => rfl
  | cons c cs ih => rw [advance, List.foldl_cons]; exact (ih _).trans (step_file l c)

end Location

end LanguageWorkbench
