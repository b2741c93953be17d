/-!
# Blank characters

What separates fragments and is trimmed from the ends of a line.
-/

namespace TabletopDice.Text

/-- Spaces of every width, tabs, line and paragraph ends and the four information
separators. Characters that only look empty, such as the zero-width space, are not blank. -/
def isBlank (c : Char) : Bool :=
  let n := c.toNat
  (9 ≤ n && n ≤ 13) || (28 ≤ n && n ≤ 32) || n == 0x85 || n == 0xa0 || n == 0x1680 ||
    (0x2000 ≤ n && n ≤ 0x200a) || n == 0x2028 || n == 0x2029 || n == 0x202f || n == 0x205f ||
    n == 0x3000

/-- The four information separators, which end whole files, groups, records and units. -/
def isSeparator (c : Char) : Bool := 28 ≤ c.toNat && c.toNat ≤ 31

def strip (dropped : Char → Bool) (cs : List Char) : List Char :=
  ((cs.dropWhile dropped).reverse.dropWhile dropped).reverse

def trim (cs : List Char) : List Char := strip isBlank cs

end TabletopDice.Text
