import ClassicAsp.Indentation

/-! Structural analysis of a document, and queries by line and by byte. -/

namespace ClassicAsp

/-- A document with its block structure and indent levels. -/
structure Layout where
  document : Document
  blocks : Array Block
  statistics : Statistics
  /-- The lines with what is known about them and their indent levels. -/
  lines : List ((OwnedLine × Outline) × Nat)
  diagnostics : List Diagnostic
  deriving Repr

/-- The layout of a text. Lines past the ceiling are frozen. -/
def Layout.ofText (limits : Limits) (text : List Char) : Layout :=
  let doc := Document.ofText text
  let count := doc.lines.length
  let tooMany := limits.exceeds .documentLines count
  let doc := if tooMany then doc.freezeFrom limits.maxLines else doc
  let found := doc.blockStructure limits
  let outlined := doc.lines.zip found.outlines
  let (levels, warnings) := indentLevels limits outlined
  let split := if tooMany then
      [Diagnostic.ofFault none (.limitReached .split .documentLines count)]
    else []
  ⟨doc, found.blocks, found.statistics, outlined.zip levels,
    split ++ found.diagnostics ++ warnings⟩

/-- The place of a line in the block structure. -/
structure Hierarchy where
  level : Nat
  /-- The number of blocks open before the line. -/
  depth : Nat
  /-- The innermost block that the line is in, by index. -/
  block : Option Nat
  deriving DecidableEq, Repr

/-- What is at a byte of a document. -/
structure Position where
  line : Nat
  region : Option Region
  hierarchy : Hierarchy
  deriving DecidableEq, Repr

/-- Is the byte in script? -/
def Position.inScript (p : Position) : Bool := p.region.isSome

/-- The result of the structural analysis. -/
structure Analysis where
  regions : List Region := []
  blocks : Array Block := #[]
  lines : List Hierarchy := []
  /-- The byte each line starts at. -/
  lineOffsets : List Nat := []
  textLength : Nat := 0
  statistics : Statistics := {}
  diagnostics : List Diagnostic := []
  deriving DecidableEq, Repr

namespace Analysis

/-- Finds the innermost block of each of a number of lines from `line` on. The blocks that start
earlier and may reach so far are `around`, the last one first, and `later` are the others in
order; `done` holds what was found before, the last one first. -/
def innermostFrom (done : List (Option Nat)) (line : Nat) (around later : List (Block × Nat)) :
    Nat → List (Option Nat)
  | 0 => done.reverse
  | count + 1 =>
    let starting := later.takeWhile (·.1.startLine ≤ line)
    let around := (starting.reverse ++ around).dropWhile (·.1.endLine < line)
    innermostFrom (around.head?.map (·.2) :: done) (line + 1) around
      (later.drop starting.length) count

/-- The innermost block of each line. A block comes after those around it and does not end after
them, so the last block that covers a line is the innermost. -/
def innermost (blocks : Array Block) (lineCount : Nat) : List (Option Nat) :=
  innermostFrom [] 0 [] blocks.zipIdx.toList lineCount

/-- The warning that a text is longer than the ceiling. -/
def tooLong (length : Nat) : Diagnostic :=
  .ofFault none (.limitReached .regions .textLength length)

/-- Analyzes a text, unless it is too long. -/
def ofText (limits : Limits) (text : List Char) : Analysis :=
  let length := Text.byteLength text
  if limits.exceeds .textLength length then { diagnostics := [tooLong length] }
  else
    let layout := Layout.ofText limits text
    let blocks := innermost layout.blocks layout.lines.length
    { regions := layout.document.regions
      blocks := layout.blocks
      lines := (layout.lines.zip blocks).map fun (((_, o), level), block) =>
        ⟨level, o.nesting, block⟩
      lineOffsets := layout.document.lines.map (·.offset)
      textLength := length
      statistics := layout.statistics
      diagnostics := layout.diagnostics }

/-- The place of a line. -/
def hierarchyAt? (a : Analysis) (line : Nat) : Option Hierarchy := a.lines[line]?

/-- The innermost block of a line. -/
def blockAt? (a : Analysis) (line : Nat) : Option Block :=
  ((a.hierarchyAt? line).bind (·.block)).bind (a.blocks[·]?)

/-- What is at a byte; nothing is past the end of the text. -/
def positionAt? (a : Analysis) (offset : Nat) : Option Position :=
  if a.textLength < offset then none
  else
    match (a.lineOffsets.takeWhile (· ≤ offset)).length with
    | 0 => none
    | line + 1 => (a.hierarchyAt? line).map fun h => ⟨line, Region.at? a.regions offset, h⟩

end Analysis

end ClassicAsp
