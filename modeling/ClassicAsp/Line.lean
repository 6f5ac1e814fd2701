import ClassicAsp.Text.Blank
import ClassicAsp.Text.Bytes
import ClassicAsp.Text.Split

/-! The physical lines of a document. Each keeps its own ending, so that a document is the
concatenation of its lines. -/

namespace ClassicAsp

/-- What ends a line. -/
inductive Ending where
  | none
  | lf
  | crlf
  deriving DecidableEq, Repr

/-- The characters of an ending. -/
def Ending.text : Ending → List Char
  | .none => []
  | .lf => ['\n']
  | .crlf => ['\r', '\n']

/-- A line: its place among the lines, its content and ending, and the byte it starts at. -/
structure Line where
  index : Nat
  content : List Char
  ending : Ending
  offset : Nat
  deriving DecidableEq, Repr

namespace Line

/-- The content without the blanks around it. -/
def trimmed (l : Line) : List Char := Text.trim l.content

/-- Is there nothing but blanks? -/
def isBlank (l : Line) : Bool := Text.allBlank l.content

/-- The byte after the content. -/
def stop (l : Line) : Nat := l.offset + Text.byteLength l.content

/-- Content and ending of a piece of text that a line feed follows. -/
def ofFeedPiece (piece : List Char) : List Char × Ending :=
  if piece.getLast? == some '\r' then (piece.dropLast, .crlf) else (piece, .lf)

/-- Content and ending of each line of a text. -/
def pieces (text : List Char) : List (List Char × Ending) :=
  let parts := Text.splitAt (· == '\n') text
  parts.dropLast.map ofFeedPiece ++
    (parts.getLast?.toList.filter (! ·.isEmpty)).map fun last => (last, Ending.none)

/-- Numbers lines from `index` and places them from byte `offset` on, after the reversed lines
`done`. -/
def placeAfter (done : List Line) (index offset : Nat) : List (List Char × Ending) → List Line
  | [] => done.reverse
  | (content, ending) :: rest =>
    placeAfter (⟨index, content, ending, offset⟩ :: done) (index + 1)
      (offset + Text.byteLength content + Text.byteLength ending.text) rest

/-- The lines of a text. -/
def split (text : List Char) : List Line := placeAfter [] 0 0 (pieces text)

/-- The ending that most lines have; a line feed if there are as many of each. -/
def dominantEnding (lines : List Line) : Ending :=
  let crlf := lines.countP (·.ending == .crlf)
  let lf := lines.countP (·.ending == .lf)
  if lf < crlf then .crlf else .lf

end Line

end ClassicAsp
