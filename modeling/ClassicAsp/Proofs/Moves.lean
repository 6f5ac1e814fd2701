import ClassicAsp.Proofs.Walk
import Mathlib.Data.List.Range
import Mathlib.Logic.Relation

/-! # Moves of the walk

Whatever a line holds, it changes the blocks in three ways only: it stays where it is, enters a
new block, or leaves the innermost one. The lines of a document are passed one after the other,
and what every move keeps holds before every line and after the last. -/

namespace ClassicAsp

namespace BlockScan

/-! ## The open blocks -/

/-- The open blocks by index, the innermost first. -/
def stack (s : BlockScan) : List Nat := s.opened.toList.reverse

@[simp] theorem length_stack (s : BlockScan) : s.stack.length = s.depth := by
  simp [stack, depth]

theorem back?_opened (s : BlockScan) : s.opened.back? = s.stack.head? := by
  simp [stack]

/-- The blocks with a new child of the parent, if there is a parent. -/
def adopt (blocks : Array Block) (parent : Option Nat) (number : Nat) : Array Block :=
  match parent with
  | some p => blocks.modify p fun b => { b with children := b.children.push number }
  | none => blocks

@[simp] theorem size_adopt (blocks : Array Block) (parent : Option Nat) (number : Nat) :
    (adopt blocks parent number).size = blocks.size := by
  cases parent <;> simp [adopt]

theorem getElem?_adopt (blocks : Array Block) (parent : Option Nat) (number k : Nat) :
    (adopt blocks parent number)[k]? = blocks[k]?.map fun b =>
      if parent = some k then { b with children := b.children.push number } else b := by
  cases parent with
  | none => simp [adopt]
  | some p =>
      rw [adopt, Array.getElem?_modify]
      by_cases hp : p = k
      · simp [hp]
      · simp [hp]

/-! ## Moves -/

/-- The block that a construct opens inside the open blocks of a state. -/
def newBlock (s : BlockScan) (index : Nat) (construct : Construct) : Block :=
  ⟨construct, index, index, s.depth, s.stack.head?, #[], false⟩

/-- One change of the blocks at the line with this index, with the events of the line before and
after it. -/
inductive Move (limits : Limits) (index : Nat) :
    BlockScan × Array BlockEvent → BlockScan × Array BlockEvent → Prop where
  | stay {s t events} (hblocks : t.blocks = s.blocks) (hstack : t.stack = s.stack) :
      Move limits index (s, events) (t, events)
  | enter {s t events} (construct : Construct) (hroom : s.depth < limits.maxNestingDepth)
      (hblocks : t.blocks = (adopt s.blocks s.stack.head? s.blocks.size).push
        (s.newBlock index construct))
      (hstack : t.stack = s.blocks.size :: s.stack) :
      Move limits index (s, events) (t, events.push (.opened construct.kind))
  | leave {s t events} {number : Nat} (hstack : s.stack = number :: t.stack)
      (hblocks : t.blocks = s.blocks.modify number fun b =>
        { b with endLine := index, closed := true }) :
      Move limits index (s, events) (t, events.push .closed)

/-- Any number of moves at one line. -/
abbrev Moves (limits : Limits) (index : Nat) :
    BlockScan × Array BlockEvent → BlockScan × Array BlockEvent → Prop :=
  Relation.ReflTransGen (Move limits index)

theorem openBlock_of_room {limits : Limits} {s : BlockScan}
    (h : s.depth + s.overflow < limits.maxNestingDepth) (index : Nat) (construct : Construct)
    (o : Outline) :
    (openBlock limits index construct s o).1.blocks =
        (adopt s.blocks s.stack.head? s.blocks.size).push (s.newBlock index construct) ∧
      (openBlock limits index construct s o).1.stack = s.blocks.size :: s.stack ∧
      (openBlock limits index construct s o).2 = { o with
        opens := true
        kind := some construct.kind
        events := o.events.push (.opened construct.kind) } := by
  simp only [openBlock, if_neg (Nat.not_le.mpr h), back?_opened]
  exact ⟨rfl, by simp [stack], trivial⟩

theorem move_openBlock (limits : Limits) (index : Nat) (construct : Construct) (s : BlockScan)
    (o : Outline) :
    Move limits index (s, o.events) ((openBlock limits index construct s o).1,
      (openBlock limits index construct s o).2.events) := by
  by_cases hroom : s.depth + s.overflow < limits.maxNestingDepth
  · obtain ⟨hblocks, hstack, houtline⟩ := openBlock_of_room hroom index construct o
    rw [houtline]
    exact .enter construct (Nat.lt_of_add_right_lt hroom) hblocks hstack
  · simp only [openBlock, if_pos (Nat.le_of_not_lt hroom)]
    split <;> exact .stay rfl rfl

/-- A block that is closed is the innermost one. -/
theorem closeBlock_of_topKind? {s : BlockScan} (hoverflow : s.overflow = 0)
    {construct : Construct} (htop : s.topKind? = some construct.kind) (index : Nat) (o : Outline) :
    ∃ number, s.stack = number :: (closeBlock index construct s o).1.stack ∧
      (closeBlock index construct s o).1.blocks =
        s.blocks.modify number (fun b => { b with endLine := index, closed := true }) ∧
      (closeBlock index construct s o).2 = { o with
        closes := true
        kind := some construct.kind
        events := o.events.push .closed } := by
  have hsome : s.opened.back?.isSome = true := by
    rw [topKind?, Option.map_eq_some_iff] at htop
    obtain ⟨b, hb, -⟩ := htop
    obtain ⟨number, hnumber, -⟩ := Option.bind_eq_some_iff.mp hb
    rw [hnumber]
    rfl
  obtain ⟨number, hnumber⟩ := Option.isSome_iff_exists.mp hsome
  refine ⟨number, ?_⟩
  simp only [closeBlock, hoverflow, Nat.lt_irrefl, if_false, htop, if_true, hnumber]
  rw [back?_opened] at hnumber
  refine ⟨?_, trivial, trivial⟩
  rw [List.eq_cons_of_mem_head? hnumber]
  simp [stack]

theorem move_closeBlock (limits : Limits) (index : Nat) (construct : Construct) (s : BlockScan)
    (o : Outline) :
    Move limits index (s, o.events) ((closeBlock index construct s o).1,
      (closeBlock index construct s o).2.events) := by
  by_cases hoverflow : s.overflow = 0
  · by_cases htop : s.topKind? = some construct.kind
    · obtain ⟨number, hstack, hblocks, houtline⟩ := closeBlock_of_topKind? hoverflow htop index o
      rw [houtline]
      exact .leave hstack hblocks
    · simp only [closeBlock, hoverflow, Nat.lt_irrefl, if_false, htop]
      exact .stay rfl rfl
  · simp only [closeBlock, if_pos (Nat.pos_of_ne_zero hoverflow)]
    exact .stay rfl rfl

/-- A role makes one move. -/
theorem move_apply (limits : Limits) (index : Nat) (x : BlockScan × Outline) (role : Role) :
    Move limits index (x.1, x.2.events)
      ((apply limits index x role).1, (apply limits index x role).2.events) := by
  cases role with
  | plain => exact .stay rfl rfl
  | branch => exact .stay rfl rfl
  | case =>
      simp only [apply]
      split <;> exact .stay rfl rfl
  | start construct => exact move_openBlock limits index construct x.1 x.2
  | stop construct => exact move_closeBlock limits index construct x.1 x.2

theorem moves_foldl_apply (limits : Limits) (index : Nat) (x : BlockScan × Outline)
    (roles : List Role) :
    Moves limits index (x.1, x.2.events) ((roles.foldl (apply limits index) x).1,
      (roles.foldl (apply limits index) x).2.events) := by
  induction roles generalizing x with
  | nil => exact .refl
  | cons role roles ih => exact .head (move_apply limits index x role) (ih _)

theorem move_noting (limits : Limits) (s : BlockScan) (line : OwnedLine)
    (statement : LogicalLine) (events : Array BlockEvent) :
    Move limits line.index (s, events) (s.noting line statement, events) := by
  simp only [noting]
  split <;> exact .stay rfl rfl

/-- A step of the walk makes moves at its line, and their events are those of the line. -/
theorem moves_step (limits : Limits) (pending head : Nat) (s : BlockScan) (line : OwnedLine)
    (rest : List OwnedLine) :
    Moves limits line.index (s, #[]) ((step limits pending head s line rest).state,
      (step limits pending head s line rest).outline.events) := by
  cases pending with
  | succ pending => exact .refl
  | zero =>
      simp only [step]
      split
      · exact .refl
      · split
        · exact moves_foldl_apply limits line.index (s, { nesting := s.depth }) _
        · split
          · refine .head (move_noting limits s line (statementAt limits line rest) #[])
              (.single ?_)
            exact move_apply limits line.index (_, { nesting := s.depth }) _
          · exact .refl

/-! ## Nesting -/

theorem nesting_apply (limits : Limits) (index : Nat) (x : BlockScan × Outline) (role : Role) :
    (apply limits index x role).2.nesting = x.2.nesting := by
  cases role with
  | plain => rfl
  | branch => rfl
  | case =>
      simp only [apply]
      split <;> rfl
  | start construct =>
      simp only [apply, openBlock]
      split <;> rfl
  | stop construct =>
      simp only [apply, closeBlock]
      split
      · rfl
      · split
        · split <;> rfl
        · rfl

theorem nesting_foldl_apply (limits : Limits) (index : Nat) (x : BlockScan × Outline)
    (roles : List Role) :
    (roles.foldl (apply limits index) x).2.nesting = x.2.nesting := by
  induction roles generalizing x with
  | nil => rfl
  | cons role roles ih => rw [List.foldl_cons, ih, nesting_apply]

/-- A line that is not frozen is nested as deep as there are blocks open before it. -/
theorem nesting_step (limits : Limits) (pending head : Nat) (s : BlockScan) {line : OwnedLine}
    (hfrozen : line.frozen = false) (rest : List OwnedLine) :
    (step limits pending head s line rest).outline.nesting = s.depth := by
  cases pending with
  | succ pending => rfl
  | zero =>
      simp only [step, hfrozen, Bool.false_eq_true, if_false]
      split
      · rw [nesting_foldl_apply]
      · split
        · rw [nesting_apply]
        · rfl

/-! ## Passages -/

/-- The walk at a line: the line, the lines below it, and what the walk carries there. -/
structure Passage where
  line : OwnedLine
  rest : List OwnedLine
  pending : Nat
  head : Nat
  before : BlockScan

/-- The step that the walk takes at a line. -/
def Passage.step (limits : Limits) (p : Passage) : Step :=
  BlockScan.step limits p.pending p.head p.before p.line p.rest

/-- The passages of lines, in order. -/
def passages (limits : Limits) (pending head : Nat) (s : BlockScan) :
    List OwnedLine → List Passage
  | [] => []
  | line :: rest =>
    let next := step limits pending head s line rest
    ⟨line, rest, pending, head, s⟩ :: passages limits next.pending next.head next.state rest

/-- The state after lines. -/
def stateAfter (limits : Limits) (pending head : Nat) (s : BlockScan) :
    List OwnedLine → BlockScan
  | [] => s
  | line :: rest =>
    let next := step limits pending head s line rest
    stateAfter limits next.pending next.head next.state rest

theorem walk_snd (limits : Limits) (pending head : Nat) (done : List Outline) (s : BlockScan)
    (lines : List OwnedLine) :
    (walk limits pending head done s lines).2 = stateAfter limits pending head s lines := by
  induction lines generalizing pending head done s with
  | nil => rfl
  | cons line rest ih => rw [walk_cons, ih, stateAfter]

theorem outlines_eq_map_passages (limits : Limits) (pending head : Nat) (s : BlockScan)
    (lines : List OwnedLine) :
    outlines limits pending head s lines =
      (passages limits pending head s lines).map fun p => (p.step limits).outline := by
  induction lines generalizing pending head s with
  | nil => rfl
  | cons line rest ih => rw [outlines, passages, List.map_cons, ih]; rfl

theorem map_line_passages (limits : Limits) (pending head : Nat) (s : BlockScan)
    (lines : List OwnedLine) :
    (passages limits pending head s lines).map (·.line) = lines := by
  induction lines generalizing pending head s with
  | nil => rfl
  | cons line rest ih => rw [passages, List.map_cons, ih]

theorem rest_of_getElem?_passages {limits : Limits} {pending head : Nat} {s : BlockScan}
    {lines : List OwnedLine} {i : Nat} {p : Passage}
    (h : (passages limits pending head s lines)[i]? = some p) : p.rest = lines.drop (i + 1) := by
  induction lines generalizing pending head s i with
  | nil => simp [passages] at h
  | cons line rest ih =>
      cases i with
      | zero =>
          simp only [passages, List.getElem?_cons_zero, Option.some.injEq] at h
          rw [← h]
          rfl
      | succ i => exact ih h

/-- Lines whose indices follow each other from a number on. -/
def Numbered (n : Nat) (lines : List OwnedLine) : Prop :=
  lines.map (·.index) = List.range' n lines.length

theorem Numbered.head {n : Nat} {line : OwnedLine} {lines : List OwnedLine}
    (h : Numbered n (line :: lines)) : line.index = n :=
  (List.cons.inj h).1

theorem Numbered.tail {n : Nat} {line : OwnedLine} {lines : List OwnedLine}
    (h : Numbered n (line :: lines)) : Numbered (n + 1) lines :=
  (List.cons.inj h).2

theorem Numbered.index_eq {n i : Nat} {lines : List OwnedLine} {line : OwnedLine}
    (h : Numbered n lines) (hline : lines[i]? = some line) : line.index = n + i := by
  have hindex : (lines.map (·.index))[i]? = some line.index := by
    rw [List.getElem?_map, hline, Option.map_some]
  rw [h, List.getElem?_eq_some_iff] at hindex
  obtain ⟨_, he⟩ := hindex
  rw [← he]
  simp

theorem Numbered.of_append {n : Nat} {lines more : List OwnedLine}
    (h : Numbered n (lines ++ more)) :
    Numbered n lines ∧ Numbered (n + lines.length) more := by
  rw [Numbered, List.map_append, List.length_append, ← List.range'_append_1] at h
  exact List.append_inj h (by rw [List.length_map, List.length_range'])

/-- What the moves of a line carry from one line to the next holds before every line and after
the last. -/
theorem passages_induction {limits : Limits} {P : Nat → BlockScan → Prop}
    (hstep : ∀ n s t events, Moves limits n (s, #[]) (t, events) → P n s → P (n + 1) t)
    {n : Nat} (pending head : Nat) {s : BlockScan} {lines : List OwnedLine}
    (hlines : Numbered n lines) (hs : P n s) :
    (∀ p ∈ passages limits pending head s lines, P p.line.index p.before) ∧
      P (n + lines.length) (stateAfter limits pending head s lines) := by
  induction lines generalizing n pending head s with
  | nil => exact ⟨by simp [passages], hs⟩
  | cons line rest ih =>
      have hmoves := moves_step limits pending head s line rest
      rw [hlines.head] at hmoves
      obtain ⟨hpassages, hafter⟩ := ih _ _ hlines.tail (hstep n _ _ _ hmoves hs)
      constructor
      · intro p hp
        rcases List.mem_cons.mp hp with rfl | hp
        · rw [hlines.head]
          exact hs
        · exact hpassages p hp
      · rw [List.length_cons, Nat.add_comm rest.length 1, ← Nat.add_assoc]
        exact hafter

end BlockScan

/-! ## Documents -/

open BlockScan

theorem Document.numbered_linesFrom (inside : Bool) (index offset : Nat)
    (pieces : List (List Char × Ending)) :
    Numbered index (linesFrom inside index offset pieces) := by
  induction pieces generalizing inside index offset with
  | nil => rfl
  | cons piece pieces ih =>
      obtain ⟨content, ending⟩ := piece
      exact congrArg (index :: ·) (ih _ _ _)

theorem Document.numbered_freezeFrom {n : Nat} {doc : Document} (h : Numbered n doc.lines)
    (index : Nat) : Numbered n (doc.freezeFrom index).lines := by
  have hindices : (doc.freezeFrom index).lines.map (·.index) = doc.lines.map (·.index) := by
    rw [freezeFrom, List.map_append, List.map_map]
    conv_rhs => rw [← List.take_append_drop index doc.lines, List.map_append]
    rfl
  have hlength := congrArg List.length hindices
  rw [List.length_map, List.length_map] at hlength
  rw [Numbered, hindices, hlength]
  exact h

/-- The lines of a text, frozen from some line on, are numbered from zero. -/
theorem Document.numbered_frozen (text : List Char) (index : Nat) :
    Numbered 0 ((ofText text).freezeFrom index).lines := by
  apply numbered_freezeFrom
  rw [lines_ofText]
  exact numbered_linesFrom false 0 0 _

end ClassicAsp
