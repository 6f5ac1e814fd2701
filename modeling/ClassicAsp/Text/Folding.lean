import ClassicAsp.Text.Lowercase
import ClassicAsp.Text.Recent

/-! Comparison of characters without regard to case, by simple case folding. -/

namespace ClassicAsp.Text

/-- The characters above U+007F whose folding is not their lower-case form. -/
def foldRuns : List CaseRun := [
  ⟨0xB5, 0xB5, 1, 775⟩, ⟨0x17F, 0x17F, 1, -268⟩, ⟨0x345, 0x345, 1, 116⟩, ⟨0x3C2, 0x3C2, 1, 1⟩,
  ⟨0x3D0, 0x3D0, 1, -30⟩, ⟨0x3D1, 0x3D1, 1, -25⟩, ⟨0x3D5, 0x3D5, 1, -15⟩,
  ⟨0x3D6, 0x3D6, 1, -22⟩, ⟨0x3F0, 0x3F0, 1, -54⟩, ⟨0x3F1, 0x3F1, 1, -48⟩,
  ⟨0x3F5, 0x3F5, 1, -64⟩, ⟨0x13A0, 0x13F5, 1, 0⟩, ⟨0x13F8, 0x13FD, 1, -8⟩,
  ⟨0x1C80, 0x1C80, 1, -6222⟩, ⟨0x1C81, 0x1C81, 1, -6221⟩, ⟨0x1C82, 0x1C82, 1, -6212⟩,
  ⟨0x1C83, 0x1C84, 1, -6210⟩, ⟨0x1C85, 0x1C85, 1, -6211⟩, ⟨0x1C86, 0x1C86, 1, -6204⟩,
  ⟨0x1C87, 0x1C87, 1, -6180⟩, ⟨0x1C88, 0x1C88, 1, 35267⟩, ⟨0x1E9B, 0x1E9B, 1, -58⟩,
  ⟨0x1FBE, 0x1FBE, 1, -7173⟩, ⟨0x1FD3, 0x1FD3, 1, -7235⟩, ⟨0x1FE3, 0x1FE3, 1, -7219⟩,
  ⟨0xAB70, 0xABBF, 1, -38864⟩, ⟨0xFB05, 0xFB05, 1, 1⟩]

/-- The map to these foldings. -/
def foldMap : CaseMap := .ofRuns foldRuns

/-- Simple case folding: U+017F folds to `s` and U+212A to `k`. The recent characters fold to
themselves. -/
def foldCase (c : Char) : Char :=
  if isAscii c then c.toLower
  else if recentSet.contains c then c
  else (foldMap.image? c).getD (lowerChar c)

/-- Are the characters equal up to case? -/
def sameLetter (a b : Char) : Bool := foldCase a == foldCase b

/-- What is left of `cs` after a start that equals `pattern` up to case. -/
def dropFolded? : List Char → List Char → Option (List Char)
  | [], cs => some cs
  | _ :: _, [] => none
  | p :: ps, c :: cs => if sameLetter p c then dropFolded? ps cs else none

/-- ASCII letters compared without regard to case, all else exactly. -/
def eqIgnoringAsciiCase (a b : List Char) : Bool := a.map Char.toLower == b.map Char.toLower

end ClassicAsp.Text
