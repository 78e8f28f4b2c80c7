import Monomorph.Text.Basic

/-!
# Blank characters

The blanks of Unicode: the ASCII control blanks, the separators U+001C to U+001F, NEL, and the
space, line and paragraph separators. Zero-width characters are not blank.
-/

namespace Monomorph

def blankRanges : List (Nat × Nat) :=
  [(0x09, 0x0D), (0x1C, 0x20), (0x85, 0x85), (0xA0, 0xA0), (0x1680, 0x1680), (0x2000, 0x200A),
    (0x2028, 0x2029), (0x202F, 0x202F), (0x205F, 0x205F), (0x3000, 0x3000)]

def isBlank (c : Char) : Bool :=
  inRanges blankRanges c

namespace Text

def dropBlank (s : Text) : Text :=
  s.dropWhile isBlank

theorem length_dropBlank_le (s : Text) : s.dropBlank.length ≤ s.length :=
  (List.dropWhile_suffix _).length_le

theorem length_lt_of_dropBlank {c : Char} {s t : Text} (h : s.dropBlank = c :: t) :
    t.length < s.length := by
  have := length_dropBlank_le s
  rwa [h] at this

def stripRight (t : Text) : Text :=
  (t.reverse.dropWhile isBlank).reverse

def strip (t : Text) : Text :=
  stripRight (dropBlank t)

def allBlank (t : Text) : Bool :=
  t.all isBlank

end Text

end Monomorph
