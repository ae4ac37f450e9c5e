import Tabulation.Text.Extender
import Tabulation.Text.Hidden

/-!
# Literal text of values

`Inspect` gives the text of a value as it stands in dumps: a string is quoted, a list is written in
brackets, a pair in parentheses.

**Quoting.** Inside quotes the six characters of `shortEscape` have a two-character form. Hidden
characters, and those that extend the one before them, are written by their number in hexadecimal.
All other characters stand for themselves.
-/

namespace Tabulation

/-- Types whose values have a literal text. -/
class Inspect (α : Type) where
  inspect : α → String

export Inspect (inspect)

namespace Text

/-- The letter after the backslash, for characters with a two-character form. -/
def shortEscape (c : Char) : Option Char :=
  if c = '\x00' then some '0'
  else if c = '\t' then some 't'
  else if c = '\r' then some 'r'
  else if c = '\n' then some 'n'
  else if c = '\\' then some '\\'
  else if c = '"' then some '"'
  else none

/-- A number in hexadecimal, in lower case, without leading zeros. -/
def hex (n : Nat) : String := String.ofList (Nat.toDigits 16 n)

/-- A character as it is written inside quotes. -/
def escape (c : Char) : String :=
  match shortEscape c with
  | some letter => String.ofList ['\\', letter]
  | none =>
    if isHidden c || isExtender c then "\\u\x7b" ++ hex c.toNat ++ "\x7d" else String.singleton c

/-- A string in quotes. -/
def quoted (s : String) : String :=
  "\"" ++ String.join (s.toList.map escape) ++ "\""

/-- Texts in brackets, separated by commas. -/
def bracketed (items : List String) : String := "[" ++ String.intercalate ", " items ++ "]"

/-- The text followed by blanks up to a width. -/
def padRight (width : Nat) (s : String) : String :=
  s ++ String.ofList (List.replicate (width - s.length) ' ')

/-- The text preceded by blanks up to a width. -/
def padLeft (width : Nat) (s : String) : String :=
  String.ofList (List.replicate (width - s.length) ' ') ++ s

end Text

instance : Inspect String := ⟨Text.quoted⟩

instance {α : Type} [Inspect α] : Inspect (List α) := ⟨fun xs => Text.bracketed (xs.map inspect)⟩

instance {α β : Type} [Inspect α] [Inspect β] : Inspect (α × β) :=
  ⟨fun p => "(" ++ inspect p.1 ++ ", " ++ inspect p.2 ++ ")"⟩

instance : Inspect Int64 := ⟨fun n => toString n.toInt⟩

end Tabulation
