import WeightedSat.Text.Ranges

/-!
**Blank characters.**

The characters that separate the words of a line: the code points with the Unicode property
`White_Space`.

Main definitions:

* `WeightedSat.Text.blankRanges` — the ranges of the property;
* `WeightedSat.Text.isBlank` — whether a character is blank.
-/

set_option relaxedAutoImplicit false
set_option autoImplicit false

namespace WeightedSat.Text

/-- The code points with the property `White_Space`. -/
def blankRanges : RangeTable :=
  [(0x09, 0x0D), (0x20, 0x20), (0x85, 0x85), (0xA0, 0xA0), (0x1680, 0x1680), (0x2000, 0x200A),
    (0x2028, 0x2029), (0x202F, 0x202F), (0x205F, 0x205F), (0x3000, 0x3000)]

/-- Whether a character separates words. -/
def isBlank (c : Char) : Bool :=
  blankRanges.has c

end WeightedSat.Text
