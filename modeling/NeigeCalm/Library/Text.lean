import Mathlib.Data.List.Basic

/-!
# Characters and blank text

The character tests of the modelled sources that Lean's own library spells
differently. A string is read as its list of Unicode scalar values.
-/

namespace NeigeCalm.Library

/-- `char::is_whitespace`: the Unicode `White_Space` property. -/
def isWhitespace (c : Char) : Bool :=
  let n := c.toNat
  (9 ≤ n && n ≤ 13) || n == 32 || n == 133 || n == 160 || n == 5760 ||
    (8192 ≤ n && n ≤ 8202) || n == 8232 || n == 8233 || n == 8239 || n == 8287 || n == 12288

/-- `s.trim().is_empty()`: trimming leaves nothing exactly when every character is whitespace. -/
def isBlank (s : String) : Bool := s.toList.all isWhitespace

end NeigeCalm.Library
