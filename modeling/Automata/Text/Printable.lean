import Automata.Text.Unassigned

/-! # Printable characters

The characters that a quoted text shows as they are: all but controls, format characters,
separators other than the blank, private use, noncharacters and what is not assigned.
-/

namespace Automata.Text

/-- Whether a code point lies in one of the closed ranges. -/
def inRanges (n : Nat) (ranges : List (Nat × Nat)) : Bool :=
  ranges.any fun r => r.1 ≤ n && n ≤ r.2

/-- Control characters. -/
def controlRanges : List (Nat × Nat) := [(0x00, 0x1f), (0x7f, 0x9f)]

/-- Format characters: they have no shape of their own. -/
def formatRanges : List (Nat × Nat) :=
  [(0xad, 0xad), (0x600, 0x605), (0x61c, 0x61c), (0x6dd, 0x6dd), (0x70f, 0x70f), (0x890, 0x891),
    (0x8e2, 0x8e2), (0x180e, 0x180e), (0x200b, 0x200f), (0x202a, 0x202e), (0x2060, 0x2064),
    (0x2066, 0x206f), (0xfeff, 0xfeff), (0xfff9, 0xfffb), (0x110bd, 0x110bd), (0x110cd, 0x110cd),
    (0x13430, 0x13438), (0x1bca0, 0x1bca3), (0x1d173, 0x1d17a), (0xe0001, 0xe0001),
    (0xe0020, 0xe007f)]

/-- Space, line and paragraph separators, without the blank itself. -/
def separatorRanges : List (Nat × Nat) :=
  [(0xa0, 0xa0), (0x1680, 0x1680), (0x2000, 0x200a), (0x2028, 0x2029), (0x202f, 0x202f),
    (0x205f, 0x205f), (0x3000, 0x3000)]

/-- Code points left to private agreement. -/
def privateRanges : List (Nat × Nat) :=
  [(0xe000, 0xf8ff), (0xf0000, 0xffffd), (0x100000, 0x10fffd)]

/-- Noncharacters: a block of 32, and the last two code points of every plane. -/
def isNoncharacter (n : Nat) : Bool :=
  (0xfdd0 ≤ n && n ≤ 0xfdef) || 0xfffe ≤ n % 0x10000

/-- Whether a quoted text shows a character as it is. -/
def isPrintable (c : Char) : Bool :=
  !(inRanges c.toNat controlRanges || inRanges c.toNat formatRanges
    || inRanges c.toNat separatorRanges || inRanges c.toNat privateRanges
    || isNoncharacter c.toNat || inAscending c.toNat unassignedRanges)

end Automata.Text
