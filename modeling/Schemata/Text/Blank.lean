/-!
The blanks that are taken off both ends of a text: the characters with the Unicode property
`White_Space` and the four information separators.
-/

namespace Schemata.Text

def blankRanges : List (Nat × Nat) :=
  [(0x09, 0x0D), (0x1C, 0x20), (0x85, 0x85), (0xA0, 0xA0), (0x1680, 0x1680), (0x2000, 0x200A),
    (0x2028, 0x2029), (0x202F, 0x202F), (0x205F, 0x205F), (0x3000, 0x3000)]

def isBlank (c : Char) : Bool :=
  blankRanges.any fun (low, high) => low ≤ c.toNat && c.toNat ≤ high

def strip (text : List Char) : List Char :=
  ((text.dropWhile isBlank).reverse.dropWhile isBlank).reverse

theorem length_strip_le (text : List Char) : (strip text).length ≤ text.length := by
  have outer := ((text.dropWhile isBlank).reverse.dropWhile_sublist isBlank).length_le
  have inner := (text.dropWhile_sublist isBlank).length_le
  simp only [strip, List.length_reverse] at outer ⊢
  omega

end Schemata.Text
