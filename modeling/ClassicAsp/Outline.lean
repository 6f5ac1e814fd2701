import ClassicAsp.Document
import ClassicAsp.Fault
import ClassicAsp.Literal
import ClassicAsp.Statement.Role

/-! The block structure of a document: one walk over its lines finds the blocks, which of them
contain which, and what each line does to the open blocks. -/

namespace ClassicAsp

/-- What the walk finds out about a line. -/
structure Outline where
  /-- The first line of the statement, if this line continues one. -/
  continues : Option Nat := none
  opens : Bool := false
  closes : Bool := false
  isCase : Bool := false
  isBranch : Bool := false
  kind : Option BlockKind := none
  /-- The number of blocks open before the line. -/
  nesting : Nat := 0
  events : Array BlockEvent := #[]
  deriving DecidableEq, Repr

/-- The state of the walk. -/
structure BlockScan where
  blocks : Array Block := #[]
  /-- The open blocks by index, the innermost last. -/
  opened : Array Nat := #[]
  /-- Openings left out because the nesting was too deep. -/
  overflow : Nat := 0
  /-- Closings that fit no open block. -/
  unmatched : Nat := 0
  diagnostics : Array Diagnostic := #[]
  deriving Repr

namespace BlockScan

/-- The number of open blocks. -/
def depth (s : BlockScan) : Nat := s.opened.size

/-- The kind of the innermost open block. -/
def topKind? (s : BlockScan) : Option BlockKind :=
  (s.opened.back?.bind (s.blocks[·]?)).map Block.kind

/-- Records a ceiling that was hit at the line with this index. -/
def warn (s : BlockScan) (index : Nat) (ceiling : Ceiling) (value : Nat) : BlockScan :=
  { s with diagnostics := s.diagnostics.push <|
      .ofFault (some (index + 1)) (.limitReached .blockStructure ceiling value) }

/-- Opens a block at the line with this index, unless the nesting is too deep. -/
def openBlock (limits : Limits) (index : Nat) (construct : Construct) (s : BlockScan)
    (o : Outline) : BlockScan × Outline :=
  if limits.maxNestingDepth ≤ s.depth + s.overflow then
    let s := if s.overflow = 0 then s.warn index .nestingDepth (s.depth + 1) else s
    ({ s with overflow := s.overflow + 1 }, o)
  else
    let number := s.blocks.size
    let parent := s.opened.back?
    let blocks := match parent with
      | some p => s.blocks.modify p fun b => { b with children := b.children.push number }
      | none => s.blocks
    let block : Block := ⟨construct, index, index, s.depth, parent, #[], false⟩
    ({ s with blocks := blocks.push block, opened := s.opened.push number },
      { o with
        opens := true
        kind := some construct.kind
        events := o.events.push (.opened construct.kind) })

/-- Closes the innermost block at the line with this index, if it is of the right kind. -/
def closeBlock (index : Nat) (construct : Construct) (s : BlockScan) (o : Outline) :
    BlockScan × Outline :=
  if 0 < s.overflow then ({ s with overflow := s.overflow - 1 }, o)
  else if s.topKind? = some construct.kind then
    match s.opened.back? with
    | none => (s, o)
    | some number =>
      ({ s with
          blocks := s.blocks.modify number fun b => { b with endLine := index, closed := true }
          opened := s.opened.pop },
        { o with
          closes := true
          kind := some construct.kind
          events := o.events.push .closed })
  else ({ s with unmatched := s.unmatched + 1 }, o)

/-- Lets a statement with this role act on the open blocks. -/
def apply (limits : Limits) (index : Nat) (state : BlockScan × Outline) :
    Role → BlockScan × Outline
  | .plain => state
  | .branch => (state.1, { state.2 with isBranch := true })
  | .case =>
    if state.1.topKind? = some .selection then
      (state.1, { state.2 with isCase := true, kind := some .selection })
    else state
  | .start construct => openBlock limits index construct state.1 state.2
  | .stop construct => closeBlock index construct state.1 state.2

/-- The role of a script fragment on a line with markers; an output expression or a directive
has none. -/
def fragmentRole (fragment : List Char) : Role :=
  match Text.trim fragment with
  | '=' :: _ => .plain
  | '@' :: _ => .plain
  | code => Role.classify (classificationCode code)

/-- A statement gathered from a line and those that continue it. -/
structure LogicalLine where
  code : List Char
  /-- How many lines continue the first one. -/
  joined : Nat
  /-- The steps taken when the budget ran out. -/
  exhausted : Option Nat
  deriving DecidableEq, Repr

/-- Joins lines of code to a statement as long as it ends with a continuation mark. The code is
reversed, so that the mark is in front. -/
def gather (budget : Budget) (reversed : List Char) (joined : Nat) :
    List OwnedLine → LogicalLine
  | [] => ⟨reversed.reverse, joined, none⟩
  | next :: rest =>
    match reversed with
    | '_' :: before =>
      if before.head?.all Text.isBlank && next.isCode then
        match budget.tick? with
        | none => ⟨reversed.reverse, joined, some budget.spent⟩
        | some budget =>
          gather budget ((classificationCode next.content).reverse ++ ' ' :: before)
            (joined + 1) rest
      else ⟨reversed.reverse, joined, none⟩
    | _ => ⟨reversed.reverse, joined, none⟩

/-- The statement that starts with a line of code, and the lines that may continue it. -/
def statementAt (limits : Limits) (line : OwnedLine) (rest : List OwnedLine) : LogicalLine :=
  gather ⟨limits.maxLoopIterations, 0⟩ (classificationCode line.content).reverse 0 rest

/-- Walks over the lines. The next `pending` of them continue the statement of line `head`;
`done` holds what was found out about the lines before, the last one first. -/
def walk (limits : Limits) (pending head : Nat) (done : List Outline) (s : BlockScan) :
    List OwnedLine → List Outline × BlockScan
  | [] => (done.reverse, s)
  | line :: rest =>
    match pending with
    | pending + 1 =>
      walk limits pending head ({ continues := some head, nesting := s.depth } :: done) s rest
    | 0 =>
      let o : Outline := { nesting := s.depth }
      if line.frozen then walk limits 0 0 ({} :: done) s rest
      else if line.isMarker then
        let (s, o) := (line.fragments.map fragmentRole).foldl (apply limits line.index) (s, o)
        walk limits 0 0 (o :: done) s rest
      else if line.isCode then
        let statement := statementAt limits line rest
        let s := match statement.exhausted with
          | some spent => s.warn (line.index + statement.joined + 1) .loopIterations spent
          | none => s
        let (s, o) := apply limits line.index (s, o) (Role.classify statement.code)
        walk limits statement.joined line.index (o :: done) s rest
      else walk limits 0 0 (o :: done) s rest

end BlockScan

/-- Counts over a document and its blocks. -/
structure Statistics where
  totalBlocks : Nat := 0
  maxDepth : Nat := 0
  /-- The kinds that occur, each with the number of its blocks. -/
  byKind : List (BlockKind × Nat) := []
  unclosed : Nat := 0
  unmatchedEnds : Nat := 0
  scriptLines : Nat := 0
  markupLines : Nat := 0
  commentLines : Nat := 0
  totalLines : Nat := 0
  deriving DecidableEq, Repr

/-- The counts of a document with these blocks. -/
def Statistics.of (doc : Document) (blocks : Array Block) (unmatchedEnds : Nat) : Statistics where
  totalBlocks := blocks.size
  maxDepth := blocks.foldl (fun n b => max n (b.depth + 1)) 0
  byKind := (BlockKind.all.map fun k => (k, blocks.countP (·.kind == k))).filter (0 < ·.2)
  unclosed := blocks.countP (!·.closed)
  unmatchedEnds := unmatchedEnds
  scriptLines := doc.lines.countP (·.isScript)
  markupLines := doc.lines.countP (!·.isScript)
  commentLines := doc.lines.countP (·.isComment)
  totalLines := doc.lines.length

/-- The block structure of a document. -/
structure BlockStructure where
  outlines : List Outline
  blocks : Array Block
  statistics : Statistics
  diagnostics : List Diagnostic
  deriving Repr

/-- Finds the block structure. Blocks that nothing closes end with the last line. -/
def Document.blockStructure (limits : Limits) (doc : Document) : BlockStructure :=
  let (outlines, s) := BlockScan.walk limits 0 0 [] {} doc.lines
  let last := doc.lines.length - 1
  let blocks := s.opened.foldl
    (fun blocks number => blocks.modify number fun b => { b with endLine := last }) s.blocks
  ⟨outlines, blocks, Statistics.of doc blocks s.unmatched, s.diagnostics.toList⟩

end ClassicAsp
