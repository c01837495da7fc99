/-!
# Blank characters

The characters with the Unicode property White_Space, and texts without such characters at their
ends.

This module stands for the trimming of texts in the standard library.
-/

namespace BoardTrial

/-- The code points with the property White_Space, as ranges from a first to a last one. -/
def blankRanges : List (Nat × Nat) :=
  [(0x09, 0x0D), (0x20, 0x20), (0x85, 0x85), (0xA0, 0xA0), (0x1680, 0x1680), (0x2000, 0x200A),
    (0x2028, 0x2029), (0x202F, 0x202F), (0x205F, 0x205F), (0x3000, 0x3000)]

/-- Whether a character is blank. -/
def isBlank (c : Char) : Bool := blankRanges.any fun r => r.1 ≤ c.toNat && c.toNat ≤ r.2

/-- A text without the blank characters it ends with. -/
def trimRight (cs : List Char) : List Char := (cs.reverse.dropWhile isBlank).reverse

/-- A text without the blank characters it starts and ends with. -/
def trim (cs : List Char) : List Char := trimRight (cs.dropWhile isBlank)

example : (blankRanges.map fun r => r.2 + 1 - r.1).sum = 25 := rfl

example : blankRanges.Pairwise fun r s => r.2 + 1 < s.1 := by decide

end BoardTrial
