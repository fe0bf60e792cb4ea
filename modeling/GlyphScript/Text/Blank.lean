import GlyphScript.Text.CharRange

/-!
# Blank characters

What may stand between two tokens: the white space of Unicode and the four
information separators U+001C to U+001F.
-/

namespace GlyphScript

def blankRanges : CharRanges :=
  [(0x09, 0x0D), (0x1C, 0x20), (0x85, 0x85), (0xA0, 0xA0), (0x1680, 0x1680), (0x2000, 0x200A),
   (0x2028, 0x2029), (0x202F, 0x202F), (0x205F, 0x205F), (0x3000, 0x3000)]

def isBlank (c : Char) : Bool := blankRanges.contains c

end GlyphScript
