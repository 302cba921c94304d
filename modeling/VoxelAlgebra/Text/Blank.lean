/-!
# Blank characters

Blank characters carry no meaning in an equation and are removed before it is read.

## Main definitions

* `isBlank` — membership in the table of blank code points.
* `dropBlanks` — a text without its blank characters.
-/

namespace VoxelAlgebra.Text

/-- Inclusive ranges of blank code points: the ASCII controls that move the cursor or separate
records, the space, the next-line control, and the spaces and separators of Unicode. -/
def blankRanges : List (Nat × Nat) :=
  [(0x09, 0x0d), (0x1c, 0x20), (0x85, 0x85), (0xa0, 0xa0), (0x1680, 0x1680), (0x2000, 0x200a),
    (0x2028, 0x2029), (0x202f, 0x202f), (0x205f, 0x205f), (0x3000, 0x3000)]

def isBlank (c : Char) : Bool :=
  blankRanges.any fun r => r.1 ≤ c.toNat && c.toNat ≤ r.2

/-- Every blank is removed, also inside a name. -/
def dropBlanks (text : List Char) : List Char :=
  text.filter (!isBlank ·)

end VoxelAlgebra.Text
