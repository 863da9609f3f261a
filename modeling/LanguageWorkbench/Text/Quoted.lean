import LanguageWorkbench.Text.Printable

/-!
# Texts in quotes

How messages show a text or a character: between quotes, on one line, with
escapes for what could not be read otherwise. Code for a text constant uses the
same escapes with one difference, see `literalChars`.
-/

namespace LanguageWorkbench.Text

/-- The hexadecimal digits of a number, lower case and without leading zeros. -/
def hexDigits (n : Nat) : String := String.ofList (Nat.toDigits 16 n)

/-- The escape that names a character by its code point. -/
def codePointEscape (c : Char) : String := "\\u\x7b" ++ hexDigits c.toNat ++ "\x7d"

/-- A character inside quotes, where `quote` is the quote sign to escape. Characters
    that combine with the one before them are escaped, for they would change its look. -/
def escapeChar (quote : Option Char) (c : Char) : String :=
  if c = '\x00' then "\\0"
  else if c = '\t' then "\\t"
  else if c = '\r' then "\\r"
  else if c = '\n' then "\\n"
  else if c = '\\' then "\\\\"
  else if some c = quote then String.ofList ['\\', c]
  else if isPrintable c && !isCombining c then String.ofList [c]
  else codePointEscape c

/-- A text in double quotes. -/
def quoted (s : String) : String :=
  "\"" ++ String.join (s.toList.map (escapeChar (some '\"'))) ++ "\""

/-- A character in single quotes. -/
def quotedChar (c : Char) : String :=
  "'" ++ escapeChar (some '\'') c ++ "'"

/-! ## Text constants of generated code -/

/-- The characters of a text constant. The null character is written so that an octal
    digit after it is not read as part of the escape. -/
def literalChars : List Char → List String
  | [] => []
  | c :: cs =>
    let ambiguous := c = '\x00' ∧ cs.head?.any fun d => '0' ≤ d && d ≤ '7'
    (if ambiguous then "\\x00" else escapeChar (some '\"') c) :: literalChars cs

/-- A text constant in generated code, in double quotes. -/
def literal (s : String) : String :=
  "\"" ++ String.join (literalChars s.toList) ++ "\""

end LanguageWorkbench.Text
