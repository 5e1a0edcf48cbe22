import ShaderLink.Text.Basic

/-!
# Blanks

White space in the sense of Unicode, together with the four information separators.
-/

namespace ShaderLink.Text

/-- Bounds of the ranges of blank characters. -/
def blankBounds : List Nat :=
  [133, 134, 160, 161, 5760, 5761, 8192, 8203, 8232, 8234, 8239, 8240, 8287, 8288, 12288, 12289]

/-- White space: line ends, tabs, spaces of any width and the information separators. -/
def isBlank (c : Char) : Bool :=
  if c.toNat < 128 then
    c == ' ' || (9 ≤ c.toNat && c.toNat ≤ 13) || (28 ≤ c.toNat && c.toNat ≤ 31)
  else inRanges blankBounds c

/-- Drops the blanks at both ends. -/
def trim (t : Text) : Text := ((t.dropWhile isBlank).reverse.dropWhile isBlank).reverse

/-- The maximal runs of characters that are not blank. -/
def words (t : Text) : List Text := (splitWhere isBlank t).filter (!·.isEmpty)

end ShaderLink.Text
