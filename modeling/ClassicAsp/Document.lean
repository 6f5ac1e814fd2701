import ClassicAsp.Line
import ClassicAsp.Region
import ClassicAsp.Statement.Form

/-! Documents: lines together with the side of the region markers that they are on. -/

namespace ClassicAsp

/-- The side of the markers that a line is on. -/
inductive Owner where
  /-- No byte of the line is in a region. -/
  | markup
  /-- The whole line is between the markers of one region. -/
  | body (isComment : Bool)
  /-- The line holds a marker; the fragments are what it has of the insides of regions. -/
  | marker (fragments : List (List Char))
  deriving DecidableEq, Repr

/-- A line and its owner. -/
structure OwnedLine extends Line where
  owner : Owner
  /-- Past a safety ceiling: kept verbatim and not looked at. -/
  frozen : Bool := false
  deriving DecidableEq, Repr

namespace OwnedLine

/-- Does script own the line? -/
def isScript (l : OwnedLine) : Bool :=
  match l.owner with
  | .markup => false
  | _ => true

/-- Is there a region marker on the line? -/
def isMarker (l : OwnedLine) : Bool :=
  match l.owner with
  | .marker _ => true
  | _ => false

/-- Is the line a comment between markers? -/
def isComment (l : OwnedLine) : Bool :=
  match l.owner with
  | .body isComment => isComment
  | _ => false

/-- The text of the insides of regions on a line with markers. -/
def fragments (l : OwnedLine) : List (List Char) :=
  match l.owner with
  | .marker fragments => fragments
  | _ => []

/-- Is the line between markers and subject to formatting? -/
def isBody (l : OwnedLine) : Bool :=
  match l.owner with
  | .body _ => !l.frozen
  | _ => false

/-- Does the line carry a statement? -/
def isCode (l : OwnedLine) : Bool := l.isBody && !l.isComment && !l.isBlank

/-- Is an opening marker all there is on the line? -/
def isBareOpening (l : OwnedLine) : Bool :=
  l.isMarker && Statement.Form.bareOpening.holds l.trimmed

end OwnedLine

/-- The parts of a line inside the regions, given the part of the line from byte `pos` of the
document to byte `stop`, after the reversed parts `done`. -/
def Line.fragmentsAfter (done : List (List Char)) (pos stop : Nat) (rest : List Char) :
    List Region → List (List Char)
  | [] => done.reverse
  | region :: regions =>
    let start := max region.innerStart pos
    let stop' := min region.innerStop stop
    if start < stop' then
      let cut := Text.cutBytes (stop' - start) (Text.cutBytes (start - pos) rest).2
      fragmentsAfter (cut.1 :: done) stop' stop cut.2 regions
    else fragmentsAfter done pos stop rest regions

/-- The parts of a line that are inside regions. -/
def Line.fragmentsIn (line : Line) (regions : List Region) : List (List Char) :=
  fragmentsAfter [] line.offset line.stop line.content regions

/-- The owner of a line, given the regions that end after its start. The first byte of the
ending counts for a line without content. -/
def Line.owner (line : Line) (regions : List Region) : Owner :=
  let stop := max line.stop (line.offset + 1)
  match regions.takeWhile (·.start < stop) with
  | [] => .markup
  | [region] =>
    if region.innerStart ≤ line.offset && line.stop ≤ region.innerStop then
      .body (Statement.Form.comment.holds line.trimmed)
    else .marker (line.fragmentsIn [region])
  | several => .marker (line.fragmentsIn several)

/-- A document with owners assigned. -/
structure Document where
  lines : List OwnedLine
  regions : List Region
  /-- The ending of lines that are added. -/
  ending : Ending
  deriving DecidableEq, Repr

namespace Document

/-- Assigns owners to lines in order, given the regions in order, after the reversed lines
`done`. -/
def ownAfter (done : List OwnedLine) (regions : List Region) : List Line → List OwnedLine
  | [] => done.reverse
  | line :: lines =>
    let regions := regions.dropWhile (·.stop ≤ line.offset)
    ownAfter ({ line with owner := line.owner regions } :: done) regions lines

/-- The document of a text. -/
def ofText (text : List Char) : Document :=
  let regions := Region.detect text
  let lines := Line.split text
  ⟨ownAfter [] regions lines, regions, Line.dominantEnding lines⟩

/-- Freezes all lines from an index on. -/
def freezeFrom (doc : Document) (index : Nat) : Document :=
  { doc with lines := doc.lines.take index ++
      (doc.lines.drop index).map fun l => { l with frozen := true } }

end Document

end ClassicAsp
