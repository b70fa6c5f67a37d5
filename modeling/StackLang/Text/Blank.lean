/-!
# Blank characters

The characters that separate words in a source line: the Unicode property
`White_Space`, as an ordered table of closed ranges of scalar values. Everything
outside the table belongs to a word, the zero-width space, the byte order mark and
the four ASCII separators U+001C to U+001F included.
-/

set_option autoImplicit false

namespace StackLang.Text

/-- The closed ranges of scalar values with the property `White_Space`, in order. -/
def blankRanges : List (Nat × Nat) :=
  [(0x9, 0xD), (0x20, 0x20), (0x85, 0x85), (0xA0, 0xA0), (0x1680, 0x1680), (0x2000, 0x200A),
   (0x2028, 0x2029), (0x202F, 0x202F), (0x205F, 0x205F), (0x3000, 0x3000)]

/-- A character is blank if its scalar value lies in one of the ranges. -/
def isBlank (c : Char) : Bool :=
  blankRanges.any fun r => r.1 ≤ c.toNat && c.toNat ≤ r.2

/-- The ranges are disjoint, not empty, and in ascending order. -/
example : (blankRanges.flatMap fun r => [2 * r.1, 2 * r.2 + 1]).Pairwise (· < ·) := by decide

/-- The table holds twenty-five characters. -/
example : (blankRanges.map fun r => r.2 + 1 - r.1).sum = 25 := by decide

end StackLang.Text
