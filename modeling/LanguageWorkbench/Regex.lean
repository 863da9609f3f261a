import LanguageWorkbench.Error

/-!
# Regular expressions

Patterns are compiled and run by an engine, which is not part of this library. All that is known
of it is that it accepts or refuses the text of a pattern, and that a match ends within the text.
What more a result needs of an engine is a hypothesis with a name.

* `Regex`: a compiled pattern, by where its first match in a text ends.
* `RegexEngine`: what accepts or refuses patterns.
* `RegexEngine.ReadsEscapes`: a text with its signs escaped is a pattern of itself.
* `RegexEngine.IsLocal`: a match depends on no more than the next character.
-/

namespace LanguageWorkbench

/-- A compiled pattern. -/
structure Regex where
  /-- The number of characters up to the end of the first match in a text, the preferred one of
      those that start where it does. -/
  find : List Char → Option Nat
  find_le : ∀ {text : List Char} {n : Nat}, find text = some n → n ≤ text.length

/-- What compiles patterns. -/
structure RegexEngine where
  /-- Accepts or refuses the text of a pattern. -/
  compile : List Char → Except PatternRefusal Regex

namespace Regex

/-- The signs with a meaning in patterns. -/
def signs : List Char := "\\.+*?()|[]\x7b\x7d^$#&-~".toList

/-- A pattern that matches a text and nothing else: signs with a meaning are
    escaped. -/
def escape (text : String) : String :=
  String.ofList (text.toList.flatMap fun c => if signs.contains c then ['\\', c] else [c])

/-- The pattern of a pattern at the start of a text. -/
def atStart (pattern : List Char) : List Char := "^(?:".toList ++ pattern ++ [')']

/-! ## What a match depends on -/

/-- Before what characters assertions may hold alike: before the same, and before two characters
    of words, if both are ASCII or neither is. -/
def Alike (word : Char → Bool) (d e : Char) : Prop :=
  d = e ∨ word d = true ∧ word e = true ∧ (d.toNat < 128 ↔ e.toNat < 128)

/-- Assertions are all that looks beyond a match, and they look at the next character only: whether
    it ends a line, and whether it is part of a word, among all characters or those of ASCII. At
    the end of a text holds what holds before a character that is no part of a word. -/
structure IsLocal (word : Char → Bool) (r : Regex) : Prop where
  /-- In two texts with a common start the first match is the same, unless it ends later in one
      of them. -/
  agree : ∀ {d e : Char}, Alike word d e → ∀ u x y : List Char,
    r.find (u ++ d :: x) = r.find (u ++ e :: y) ∨
      ∃ n, u.length < n ∧ (r.find (u ++ d :: x) = some n ∨ r.find (u ++ e :: y) = some n)
  /-- A match that ends before no character of a word ends there also if the text does. -/
  cut : ∀ {d : Char}, word d = false → ∀ u x : List Char,
    r.find (u ++ d :: x) = some u.length → r.find u = some u.length

end Regex

namespace RegexEngine

/-- A text with its signs escaped, if it is accepted, matches itself and nothing else. -/
def ReadsEscapes (engine : RegexEngine) : Prop :=
  ∀ (text : String) (r : Regex),
    engine.compile (Regex.atStart (Regex.escape text).toList) = .ok r →
      ∀ input n, r.find input = some n → input.take n = text.toList

/-- What every compiled pattern depends on, where `word` tells the characters that words are made
    of. -/
structure IsLocal (engine : RegexEngine) (word : Char → Bool) : Prop where
  letters : ∀ c ∈ ['a', 'b', 'é', 'è'], word c = true
  regexes : ∀ pattern r, engine.compile pattern = .ok r → r.IsLocal word

end RegexEngine

end LanguageWorkbench
