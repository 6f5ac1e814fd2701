import ClassicAsp.Text.PivotTree

/-! Sets of code points given as sorted closed intervals. -/

namespace ClassicAsp.Text

/-- Closed intervals of code points, in increasing order. -/
abbrev CodeRanges := List (Nat × Nat)

/-- A set of code points, made ready for look-up. -/
structure CodeSet where
  tree : PivotTree (Nat × Nat)

/-- The set of the code points in the intervals. -/
def CodeSet.ofRanges (ranges : CodeRanges) : CodeSet := ⟨.ofSorted Prod.fst ranges⟩

/-- Is the character in the set? -/
def CodeSet.contains (s : CodeSet) (c : Char) : Bool :=
  (s.tree.find? c.toNat).any fun r => r.1 ≤ c.toNat && c.toNat ≤ r.2

/-- The characters U+0000 to U+007F. -/
def isAscii (c : Char) : Bool := c.toNat < 128

end ClassicAsp.Text
