/-
# Code units

The text of a JavaScript string is a list of code units: a character outside
the basic plane is written as two of them.

Key definitions: `CodeUnits`, `utf16`.
-/
import Mathlib.Data.List.Basic
import Mathlib.Tactic.Common

namespace Lib

/-- The code units of a string. -/
abbrev CodeUnits := List ℕ

/-- A character in UTF-16. -/
def utf16Char (c : Char) : CodeUnits :=
  if c.toNat < 0x10000 then [c.toNat]
  else [0xD800 + (c.toNat - 0x10000) / 0x400, 0xDC00 + (c.toNat - 0x10000) % 0x400]

/-- A text in UTF-16. -/
def utf16 (s : List Char) : CodeUnits := s.flatMap utf16Char

end Lib
