import ClassicAsp.Text.Alphabetic
import ClassicAsp.Text.Mark
import ClassicAsp.Text.Numeric
import ClassicAsp.Text.Recent

/-! Word characters and word boundaries. -/

namespace ClassicAsp.Text

/-- Letters and numbers of every script: Alphabetic, or of a number category. -/
def isAlphanumeric (c : Char) : Bool :=
  if isAscii c then c.isAlphanum
  else alphabeticSet.contains c || decimalSet.contains c || otherNumberSet.contains c

/-- Characters that make up a name in code: alphanumeric or the underscore. -/
def isNameChar (c : Char) : Bool := isAlphanumeric c || c == '_'

/-- The zero-width joiner and non-joiner, and connector punctuation (Pc) other than the
underscore. -/
def joiningRanges : CodeRanges :=
  [(0x200C, 0x200D), (0x203F, 0x2040), (0x2054, 0x2054), (0xFE33, 0xFE34), (0xFE4D, 0xFE4F),
    (0xFF3F, 0xFF3F)]

/-- The characters that join words. -/
def joiningSet : CodeSet := .ofRanges joiningRanges

/-- Word characters: Alphabetic, marks, decimal digits, connectors and join controls, but for
the recent ones. -/
def isWordChar (c : Char) : Bool :=
  if isAscii c then c.isAlphanum || c == '_'
  else (alphabeticSet.contains c || markSet.contains c || decimalSet.contains c ||
    joiningSet.contains c) && !recentSet.contains c

/-- Is there a word boundary between a text that ends with `before` and one that starts with
`after`, where `none` stands for the edge of the text? -/
def isBoundary (before after : Option Char) : Bool :=
  before.any isWordChar != after.any isWordChar

/-- Does a word that ends right before `rest` end there? -/
def endsWord (rest : List Char) : Bool := !rest.head?.any isWordChar

end ClassicAsp.Text
