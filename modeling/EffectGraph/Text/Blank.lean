/-!
# Blank characters

The characters that are trimmed from both ends of a numeral before it is read: the code points with
the Unicode property `White_Space`.
-/

namespace EffectGraph

/-- The code points with the property `White_Space`, as closed ranges in ascending order. -/
def blankRanges : List (Nat × Nat) :=
  [(0x9, 0xd), (0x20, 0x20), (0x85, 0x85), (0xa0, 0xa0), (0x1680, 0x1680), (0x2000, 0x200a),
   (0x2028, 0x2029), (0x202f, 0x202f), (0x205f, 0x205f), (0x3000, 0x3000)]

/-- Whether a character is blank. -/
def isBlank (c : Char) : Bool :=
  blankRanges.any fun r => r.1 ≤ c.toNat && c.toNat ≤ r.2

/-- Drops the blank characters at both ends. -/
def trimBlank (cs : List Char) : List Char :=
  (((cs.dropWhile isBlank).reverse).dropWhile isBlank).reverse

/-- There are 25 blank characters. -/
example : blankRanges.foldr (fun r n => r.2 + 1 - r.1 + n) 0 = 25 := by decide

end EffectGraph
