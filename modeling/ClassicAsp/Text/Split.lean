import ClassicAsp.Text.Blank

/-! Cutting a text at separator characters. -/

namespace ClassicAsp.Text

/-- The pieces between the characters that satisfy `sep`; there is one more piece than there
are separators. -/
def splitAt (sep : Char → Bool) (cs : List Char) : List (List Char) :=
  cs.foldr (fun c pieces => if sep c then [] :: pieces else pieces.modifyHead (c :: ·)) [[]]

/-- The maximal runs of characters that are not blank. -/
def words (cs : List Char) : List (List Char) :=
  (splitAt isBlank cs).filter (! ·.isEmpty)

/-- The lines of a text, each with the line feed that ends it; what follows the last line feed
is a line if it is not empty. -/
def feedLines (cs : List Char) : List (List Char) :=
  let pieces := splitAt (· == '\n') cs
  pieces.dropLast.map (· ++ ['\n']) ++ pieces.getLast?.toList.filter (! ·.isEmpty)

/-- Puts one space between the words. -/
def unwords (ws : List (List Char)) : List Char := [' '].intercalate ws

@[simp]
theorem splitAt_nil (sep : Char → Bool) : splitAt sep [] = [[]] := rfl

theorem splitAt_cons_sep {sep : Char → Bool} {c : Char} (h : sep c = true) (cs : List Char) :
    splitAt sep (c :: cs) = [] :: splitAt sep cs := by
  simp [splitAt, h]

theorem splitAt_cons_of_not {sep : Char → Bool} {c : Char} (h : sep c = false)
    (cs : List Char) :
    splitAt sep (c :: cs) = (splitAt sep cs).modifyHead (c :: ·) := by
  simp [splitAt, h]

end ClassicAsp.Text
