import ClassicAsp.Text.Bytes
import ClassicAsp.Text.Blank
import ClassicAsp.Text.Split

/-! Script regions: the stretches of a document between the markers `<%` and `%>`.

Regions do not nest. An opening marker inside a region and a closing marker outside one are
plain text; the last region reaches to the end of the document if nothing closes it. -/

namespace ClassicAsp

/-- A script region from byte `start` up to byte `stop`, its markers included. -/
structure Region where
  start : Nat
  stop : Nat
  /-- Does a closing marker end it? -/
  terminated : Bool
  deriving DecidableEq, Repr

namespace Region

/-- Both markers are two bytes long. -/
def markerLength : Nat := 2

/-- Does the byte at `offset` lie in the region? -/
def contains (r : Region) (offset : Nat) : Bool := r.start ≤ offset && offset < r.stop

/-- Does the region share a byte with the range from `start` up to `stop`? -/
def overlaps (r : Region) (start stop : Nat) : Bool := start < r.stop && r.start < stop

/-- Where the text between the markers starts. -/
def innerStart (r : Region) : Nat := r.start + markerLength

/-- Where the text between the markers stops. -/
def innerStop (r : Region) : Nat :=
  max (if r.terminated then r.stop - markerLength else r.stop) r.innerStart

/-- Scans a text from a byte position on. The optional number is the start of the region that
the scan is in, and `found` holds the regions before it, the last one first. -/
def scan (found : List Region) : Option Nat → Nat → List Char → List Region
  | none, pos, '<' :: '%' :: rest => scan found (some pos) (pos + markerLength) rest
  | some start, pos, '%' :: '>' :: rest =>
    scan (⟨start, pos + markerLength, true⟩ :: found) none (pos + markerLength) rest
  | opened, pos, c :: rest => scan found opened (pos + c.utf8Size) rest
  | some start, pos, [] => (⟨start, pos, false⟩ :: found).reverse
  | none, _, [] => found.reverse

/-- The script regions of a text, in order. -/
def detect (text : List Char) : List Region := scan [] none 0 text

/-- The region around a byte, in a list of regions in order. -/
def at? (regions : List Region) (offset : Nat) : Option Region :=
  (regions.dropWhile (·.stop ≤ offset)).head?.filter (·.contains offset)

/-- Is there an opening marker? -/
def hasOpening : List Char → Bool
  | '<' :: '%' :: _ => true
  | [] => false
  | _ :: rest => hasOpening rest

/-- Is there a closing marker? -/
def hasClosing : List Char → Bool
  | '%' :: '>' :: _ => true
  | [] => false
  | _ :: rest => hasClosing rest

/-- Is there an opening marker with a closing marker after it? -/
def hasScript : List Char → Bool
  | '<' :: '%' :: rest => hasClosing rest
  | [] => false
  | _ :: rest => hasScript rest

end Region

/-- The regions of a text, with its length and the bytes that its lines start at. -/
structure RegionMap where
  regions : List Region
  length : Nat
  lineStarts : List Nat
  deriving DecidableEq, Repr

namespace RegionMap

/-- Where lines start that follow each other from a byte on, after the reversed starts `done`. -/
def startsAfter (done : List Nat) (offset : Nat) : List (List Char) → List Nat
  | [] => done.reverse
  | line :: lines => startsAfter (offset :: done) (offset + Text.byteLength line) lines

/-- The map of a text. -/
def ofText (text : List Char) : RegionMap :=
  ⟨Region.detect text, Text.byteLength text, startsAfter [] 0 (Text.feedLines text)⟩

/-- Does the byte at `offset` lie in a script region? -/
def isInScript (m : RegionMap) (offset : Nat) : Bool :=
  offset < m.length && (Region.at? m.regions offset).isSome

/-- Does the line with this index start inside a region? -/
def isLineInScript (m : RegionMap) (index : Nat) : Bool :=
  m.lineStarts[index]?.any m.isInScript

end RegionMap

/-- How many lines hold script and how many do not. -/
structure LineCounts where
  script : Nat := 0
  markup : Nat := 0
  deriving DecidableEq, Repr

/-- All lines. -/
def LineCounts.total (c : LineCounts) : Nat := c.script + c.markup

namespace LineCounts

/-- Counts lines that start at byte `offset`, given the regions that end after it. -/
def tally (regions : List Region) (offset : Nat) (counts : LineCounts) :
    List (List Char) → LineCounts
  | [] => counts
  | line :: lines =>
    let content := Text.dropEndWhile (fun c => c == '\r' || c == '\n') line
    let stop := max (offset + Text.byteLength content) (offset + 1)
    let regions := regions.dropWhile (·.stop ≤ offset)
    let owned := regions.head?.any (·.overlaps offset stop)
    let counts := if owned then { counts with script := counts.script + 1 }
      else { counts with markup := counts.markup + 1 }
    tally regions (offset + Text.byteLength line) counts lines

/-- Counts the lines of a text: a line is script if a byte of its content, or the first byte of
its ending when it has no content, lies in a region. -/
def ofText (text : List Char) : LineCounts :=
  tally (Region.detect text) 0 {} (Text.feedLines text)

end LineCounts

end ClassicAsp
