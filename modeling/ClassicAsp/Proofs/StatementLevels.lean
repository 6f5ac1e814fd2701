import ClassicAsp.Proofs.Replay

/-! # Levels of statements

The nesting of a line and the level of a statement, said by the blocks around the line. From this it
follows how the statements of one block are aligned. -/

namespace ClassicAsp

open Block BlockScan

/-! ## Blocks inside each other -/

/-- Blocks by index, the innermost first, each the child of the next one. -/
inductive Block.Nested (blocks : Array Block) : List Nat → Prop where
  | nil : Nested blocks []
  | cons {number block rest} (hblock : blocks[number]? = some block)
      (hparent : block.parent = rest.head?) (hdepth : block.depth = rest.length) :
      Nested blocks rest → Nested blocks (number :: rest)

theorem Block.Nested.of_openStack {blocks blocks' : Array Block} {numbers : List Nat}
    (h : OpenStack blocks numbers)
    (hkept : ∀ (k : Nat) (a : Block), blocks[k]? = some a →
      ∃ b, blocks'[k]? = some b ∧ a.SameOrigin b) : Nested blocks' numbers := by
  induction h with
  | nil => exact .nil
  | @cons number block rest hblock hparent hdepth _ _ _ ih =>
      obtain ⟨b, hb, horigin⟩ := hkept number block hblock
      exact .cons hb (horigin.parent_eq.trans hparent) (horigin.depth_eq.trans hdepth) ih

/-- The innermost block determines the blocks around it. -/
theorem Block.Nested.eq_of_head? {blocks : Array Block} {numbers numbers' : List Nat}
    (h : Nested blocks numbers) (h' : Nested blocks numbers')
    (hhead : numbers.head? = numbers'.head?) : numbers = numbers' := by
  induction h generalizing numbers' with
  | nil =>
      cases h' with
      | nil => rfl
      | cons => cases hhead
  | @cons number block rest hblock hparent _ _ ih =>
      cases h' with
      | nil => cases hhead
      | @cons number' block' rest' hblock' hparent' _ hrest' =>
          obtain rfl : number = number' := Option.some.inj hhead
          rw [hblock] at hblock'
          obtain rfl := Option.some.inj hblock'
          rw [ih hrest' (hparent.symm.trans hparent')]

theorem Block.Nested.map_depth {blocks : Array Block} {numbers : List Nat}
    (h : Nested blocks numbers) :
    (numbers.filterMap (blocks[·]?)).map (·.depth) = (List.range numbers.length).reverse := by
  induction h with
  | nil => rfl
  | cons hblock _ hdepth _ ih =>
      rw [List.filterMap_cons_some hblock, List.map_cons, ih, hdepth, List.length_cons,
        List.range_succ, List.reverse_append]
      rfl

/-- The levels that the bodies of blocks add. -/
def Block.indent (blocks : List Block) : Nat := (blocks.map (·.kind.bodyIndent)).sum

section

variable {limits : Limits} {doc : Document} {p : Passage}

theorem nested_before (hlines : Numbered 0 doc.lines)
    (hp : p ∈ passages limits 0 0 {} doc.lines) :
    Nested (doc.blockStructure limits).blocks p.before.stack := by
  refine .of_openStack ((sound_passages hlines).1 p hp).opened fun k a ha => ?_
  obtain ⟨a', ha', horigin⟩ := (later_before hlines hp).kept k a ha
  obtain ⟨b, hb, hfinished⟩ := exists_finished ha'
  exact ⟨b, hb, horigin.trans hfinished.sameOrigin⟩

theorem reverse_around (hlines : Numbered 0 doc.lines)
    (hp : p ∈ passages limits 0 0 {} doc.lines) :
    (around (doc.blockStructure limits).blocks p.line.index).reverse =
      p.before.stack.filterMap ((doc.blockStructure limits).blocks[·]?) := by
  rw [around_eq_filterMap hlines hp, List.filterMap_reverse, List.reverse_reverse]

/-- The blocks around a line are one in the other, as many as the line is nested deep. -/
theorem map_depth_around (hlines : Numbered 0 doc.lines)
    (hp : p ∈ passages limits 0 0 {} doc.lines) :
    (around (doc.blockStructure limits).blocks p.line.index).map (·.depth) =
      List.range p.before.depth := by
  have h := (nested_before hlines hp).map_depth
  rw [← reverse_around hlines hp, List.map_reverse, length_stack] at h
  exact List.reverse_injective h

theorem getLast?_around (hlines : Numbered 0 doc.lines)
    (hp : p ∈ passages limits 0 0 {} doc.lines) :
    (around (doc.blockStructure limits).blocks p.line.index).getLast? =
      p.before.stack.head?.bind ((doc.blockStructure limits).blocks[·]?) := by
  have hnested := nested_before hlines hp
  rw [← List.head?_reverse, reverse_around hlines hp]
  generalize p.before.stack = numbers at hnested ⊢
  cases hnested with
  | nil => rfl
  | cons hblock =>
      rw [List.filterMap_cons_some hblock, List.head?_cons, List.head?_cons, Option.bind_some,
        hblock]

theorem openKinds_before (hlines : Numbered 0 doc.lines)
    (hp : p ∈ passages limits 0 0 {} doc.lines) :
    p.before.openKinds =
      (around (doc.blockStructure limits).blocks p.line.index).reverse.map Block.kind := by
  rw [reverse_around hlines hp, List.map_filterMap, openKinds]
  refine List.filterMap_congr fun k hk => ?_
  obtain ⟨a, ha, -⟩ := ((sound_passages hlines).1 p hp).opened.exists_block hk
  obtain ⟨a', ha', horigin⟩ := (later_before hlines hp).kept k a ha
  obtain ⟨b, hb, hfinished⟩ := exists_finished ha'
  rw [ha, hb, Option.map_some, Option.map_some]
  simp only [Block.kind, hfinished.construct_eq, horigin.construct_eq]

theorem current_before (hlines : Numbered 0 doc.lines)
    (hp : p ∈ passages limits 0 0 {} doc.lines) :
    (LevelStack.ofKinds p.before.openKinds).current =
      indent (around (doc.blockStructure limits).blocks p.line.index) := by
  rw [LevelStack.current_ofKinds, openKinds_before hlines hp, List.map_map, List.map_reverse,
    List.sum_reverse]
  rfl

theorem topKind?_before (hlines : Numbered 0 doc.lines)
    (hp : p ∈ passages limits 0 0 {} doc.lines) :
    p.before.topKind? =
      (around (doc.blockStructure limits).blocks p.line.index).getLast?.map Block.kind := by
  have hkinds : p.before.topKind? = p.before.openKinds.head? := by
    have hopened := ((sound_passages hlines).1 p hp).opened
    rw [topKind?_eq_arena, openKinds]
    generalize p.before.stack = stack at hopened
    cases hopened with
    | nil => rfl
    | cons ha =>
        rw [List.head?_cons, Option.bind_some, List.filterMap_cons, ha, Option.map_some]
        rfl
  rw [hkinds, openKinds_before hlines hp, List.map_reverse, List.head?_reverse, List.getLast?_map]

/-! ## What a statement opens and closes -/

variable {role : Role} {k : Nat} {b : Block}

/-- A block that starts at the line of a statement is the one that the statement opens. -/
theorem enter_of_startLine (hlines : Numbered 0 doc.lines)
    (hp : p ∈ passages limits 0 0 {} doc.lines)
    (hacts : Acts p.line.index role p.before (p.step limits).state (p.step limits).outline)
    (hb : (doc.blockStructure limits).blocks[k]? = some b) (hstart : b.startLine = p.line.index) :
    b.parent = p.before.stack.head? ∧ (p.step limits).outline.closes = false ∧
      ((p.step limits).outline.isBranch || (p.step limits).outline.isCase) = false := by
  have hlater := later_after hlines hp
  obtain ⟨a, ha, hfinished⟩ := exists_found hb
  rw [hfinished.startLine_eq] at hstart
  -- the block is there after the line, and was not there before it
  obtain ⟨a', ha', horigin⟩ :
      ∃ a', (p.step limits).state.arena[k]? = some a' ∧ a'.SameOrigin a := by
    cases ha' : (p.step limits).state.arena[k]? with
    | none =>
        have := hlater.added k a ha ha'
        omega
    | some a' =>
        obtain ⟨c, hc, horigin⟩ := hlater.kept k a' ha'
        rw [ha] at hc
        obtain rfl := Option.some.inj hc
        exact ⟨a', rfl, horigin⟩
  rw [horigin.startLine_eq] at hstart
  have hnew : ∀ c, p.before.arena[k]? = some c → c.startLine ≠ p.line.index := by
    intro c hc
    have := ((sound_passages hlines).1 p hp).lines k c hc
    omega
  cases hacts with
  | enter construct hrole harena hstack hcloses hdedent =>
      rw [harena] at ha'
      rcases getElem?_push_cases ha' with ⟨-, rfl⟩ | ⟨-, hold⟩
      · rw [hfinished.parent_eq, horigin.parent_eq]
        exact ⟨rfl, hcloses, hdedent⟩
      · exact absurd hstart (hnew a' hold)
  | leave construct hrole number hstack harena hcloses hevents =>
      rw [harena] at ha'
      rcases getElem?_modify_cases ha' with ⟨-, c, hc, rfl⟩ | ⟨-, hold⟩
      · exact absurd hstart (hnew c hc)
      · exact absurd hstart (hnew a' hold)
  | stay harena hstack hcloses hdedent =>
      rw [harena] at ha'
      exact absurd hstart (hnew a' ha')

/-- A block that is closed at the line of a statement is the innermost one around the line, and the
statement closes it. -/
theorem leave_of_endLine (hlines : Numbered 0 doc.lines)
    (hp : p ∈ passages limits 0 0 {} doc.lines)
    (hacts : Acts p.line.index role p.before (p.step limits).state (p.step limits).outline)
    (hb : (doc.blockStructure limits).blocks[k]? = some b) (hclosed : b.closed = true)
    (hend : b.endLine = p.line.index) :
    p.before.stack.head? = some k ∧ (p.step limits).outline.closes = true := by
  have hlater := later_after hlines hp
  have hsound := (sound_passages hlines).1 p hp
  have hlast : Sound limits.maxNestingDepth doc.lines.length (doc.lastState limits).arena
      (doc.lastState limits).stack := (sound_passages hlines).2
  obtain ⟨a, ha, hfinished⟩ := exists_found hb
  rw [hfinished.closed_eq] at hclosed
  have hnot : k ∉ (doc.lastState limits).stack := by
    intro hk
    rw [hlast.opened.closed_eq_false hk ha] at hclosed
    cases hclosed
  rw [hfinished.endLine_closed hnot] at hend
  -- the block is closed right after the line, and was open before it
  obtain ⟨hk, ha'⟩ : k ∉ (p.step limits).state.stack ∧
      (p.step limits).state.arena[k]? = some a := by
    cases ha' : (p.step limits).state.arena[k]? with
    | none =>
        have := hlater.added k a ha ha'
        have := (hlast.lines k a ha).1
        omega
    | some a' =>
        by_cases hk : k ∈ (p.step limits).state.stack
        · obtain ⟨c, hc, -, hle⟩ := hlater.left k hk hnot
          rw [ha] at hc
          obtain rfl := Option.some.inj hc
          omega
        · have := (hlater.settled k a' ha' hk).2
          rw [ha] at this
          exact ⟨hk, by rw [Option.some.inj this]⟩
  have hold : p.before.arena[k]? ≠ some a := by
    intro hc
    have := (hsound.lines k a hc).2
    omega
  cases hacts with
  | enter construct hrole harena hstack hcloses hdedent =>
      rw [harena] at ha'
      rcases getElem?_push_cases ha' with ⟨rfl, -⟩ | ⟨-, hc⟩
      · rw [hstack, size_arena] at hk
        exact absurd List.mem_cons_self hk
      · exact absurd hc hold
  | leave construct hrole number hstack harena hcloses hevents =>
      rw [harena] at ha'
      rcases getElem?_modify_cases ha' with ⟨rfl, -, -, -⟩ | ⟨-, hc⟩
      · exact ⟨by rw [hstack, List.head?_cons], hcloses⟩
      · exact absurd hc hold
  | stay harena hstack hcloses hdedent =>
      rw [harena] at ha'
      exact absurd ha' hold

/-- What a statement closes is closed in the document, at the line of the statement. -/
theorem exists_closed (hlines : Numbered 0 doc.lines)
    (hp : p ∈ passages limits 0 0 {} doc.lines) {number : Nat}
    (hstack : p.before.stack = number :: (p.step limits).state.stack)
    (harena : (p.step limits).state.arena =
      p.before.arena.modify number (closedAt p.line.index)) :
    ∃ b ∈ (doc.blockStructure limits).blocks, b.closed = true ∧ b.endLine = p.line.index := by
  have hsound := (sound_passages hlines).1 p hp
  obtain ⟨a, ha, -⟩ := hsound.opened.exists_block (k := number) (by simp [hstack])
  have hnot : number ∉ (p.step limits).state.stack := by
    have hopened := hsound.opened
    rw [hstack] at hopened
    cases hopened with
    | cons _ _ _ _ hrest _ => exact fun hmem => Nat.lt_irrefl _ (hrest number hmem)
  have ha' : (p.step limits).state.arena[number]? = some (closedAt p.line.index a) := by
    rw [harena, Array.getElem?_modify, if_pos rfl, ha, Option.map_some]
  obtain ⟨hnot', hsettled⟩ := (later_after hlines hp).settled number _ ha' hnot
  obtain ⟨b, hb, hfinished⟩ := exists_finished hsettled
  refine ⟨b, Array.mem_of_getElem? hb, ?_, ?_⟩
  · rw [hfinished.closed_eq]
    rfl
  · rw [hfinished.endLine_closed hnot']
    rfl

/-- A statement closes a block if and only if a block of the document ends there. -/
theorem any_closed_eq (hlines : Numbered 0 doc.lines)
    (hp : p ∈ passages limits 0 0 {} doc.lines)
    (hacts : Acts p.line.index role p.before (p.step limits).state (p.step limits).outline) :
    ((doc.blockStructure limits).blocks.any fun b => b.closed && b.endLine == p.line.index) =
      (p.step limits).outline.closes := by
  rw [Bool.eq_iff_iff]
  constructor
  · intro h
    obtain ⟨k, hk, hb⟩ := Array.any_eq_true.mp h
    rw [Bool.and_eq_true, beq_iff_eq] at hb
    exact (leave_of_endLine hlines hp hacts (Array.getElem?_eq_getElem hk) hb.1 hb.2).2
  · intro h
    cases hacts with
    | enter construct hrole harena hstack hcloses => rw [hcloses] at h; cases h
    | stay harena hstack hcloses => rw [hcloses] at h; cases h
    | leave construct hrole number hstack harena =>
        obtain ⟨b, hb, hclosed, hend⟩ := exists_closed hlines hp hstack harena
        rw [Array.any_eq_true']
        exact ⟨b, hb, by rw [hclosed, hend, beq_self_eq_true]; rfl⟩

theorem indent_around (hlines : Numbered 0 doc.lines)
    (hp : p ∈ passages limits 0 0 {} doc.lines) :
    indent (around (doc.blockStructure limits).blocks p.line.index) =
      indent (p.before.stack.filterMap ((doc.blockStructure limits).blocks[·]?)) := by
  rw [← reverse_around hlines hp, indent, indent, List.map_reverse, List.sum_reverse]

theorem indent_around_of_stack (hlines : Numbered 0 doc.lines)
    (hp : p ∈ passages limits 0 0 {} doc.lines) {rest : List Nat}
    (hstack : p.before.stack = k :: rest)
    (hb : (doc.blockStructure limits).blocks[k]? = some b) :
    indent (around (doc.blockStructure limits).blocks p.line.index) =
      b.kind.bodyIndent + indent (rest.filterMap ((doc.blockStructure limits).blocks[·]?)) := by
  rw [indent_around hlines hp, hstack, List.filterMap_cons_some hb, indent, indent,
    List.map_cons, List.sum_cons]

/-- The blocks around a line in a block are that block and those around its first line. -/
theorem stack_eq_cons {q : Passage} (hlines : Numbered 0 doc.lines)
    (hp : p ∈ passages limits 0 0 {} doc.lines) (hq : q ∈ passages limits 0 0 {} doc.lines)
    (hb : (doc.blockStructure limits).blocks[k]? = some b)
    (hparent : b.parent = p.before.stack.head?) (hhead : q.before.stack.head? = some k) :
    q.before.stack = k :: p.before.stack := by
  have hnested := nested_before hlines hq
  obtain ⟨rest, hstack⟩ := List.head?_eq_some_iff.mp hhead
  rw [hstack] at hnested ⊢
  cases hnested with
  | cons hblock hparent' _ hrest =>
      rw [hb] at hblock
      obtain rfl := Option.some.inj hblock
      rw [hrest.eq_of_head? (nested_before hlines hp) (hparent'.symm.trans hparent)]

end

/-! ## Levels by blocks -/

/-- Line `i` is a line of code that starts a statement with this role, at this level. -/
structure Document.HasStatement (limits : Limits) (doc : Document) (i : Nat) (role : Role)
    (level : Nat) : Prop where
  code : (doc.lines[i]?.any fun line => line.isCode &&
    Role.classify (statementAt limits line (doc.lines.drop (i + 1))).code == role) = true
  starts : ((doc.blockStructure limits).outlines[i]?.any (·.continues.isNone)) = true
  level_eq : (doc.levels limits)[i]? = some level

instance (limits : Limits) (doc : Document) (i : Nat) (role : Role) (level : Nat) :
    Decidable (doc.HasStatement limits i role level) :=
  decidable_of_iff
    ((doc.lines[i]?.any fun line => line.isCode &&
        Role.classify (statementAt limits line (doc.lines.drop (i + 1))).code == role) = true ∧
      ((doc.blockStructure limits).outlines[i]?.any (·.continues.isNone)) = true ∧
      (doc.levels limits)[i]? = some level)
    ⟨fun h => ⟨h.1, h.2.1, h.2.2⟩, fun h => ⟨h.code, h.starts, h.level_eq⟩⟩

/-- The level that a statement with this role has at line `i`, by the blocks around the line. -/
def Block.levelAt (blocks : Array Block) (i : Nat) (role : Role) : Nat :=
  let around := around blocks i
  let inner := around.getLast?
  if blocks.any fun b => b.closed && b.endLine == i then
    indent around - inner.elim 0 (·.kind.bodyIndent)
  else if role == .branch || role == .case && inner.map Block.kind == some .selection then
    indent around - 1
  else indent around

section

variable {limits : Limits} {doc : Document} {i level : Nat} {role : Role}

theorem getElem?_passages (limits : Limits) {line : OwnedLine} (hline : doc.lines[i]? = some line) :
    ∃ p, (passages limits 0 0 {} doc.lines)[i]? = some p ∧ p.line = line ∧
      (doc.blockStructure limits).outlines[i]? = some (p.step limits).outline := by
  rw [← map_line_passages limits 0 0 {} doc.lines, List.getElem?_map] at hline
  obtain ⟨p, hp, rfl⟩ := Option.map_eq_some_iff.mp hline
  refine ⟨p, hp, rfl, ?_⟩
  rw [outlines_blockStructure, outlines_eq_map_passages, List.getElem?_map, hp, Option.map_some]

/-- The passage of a statement. -/
structure Document.StatementPassage (limits : Limits) (doc : Document) (i : Nat) (role : Role)
    (level : Nat) (p : Passage) : Prop where
  mem : p ∈ passages limits 0 0 {} doc.lines
  index_eq : p.line.index = i
  acts : Acts p.line.index role p.before (p.step limits).state (p.step limits).outline
  level_eq : level =
    if (p.step limits).outline.closes then
      ((p.step limits).outline.events.foldl LevelStack.replay
        (.ofKinds p.before.openKinds)).current
    else if (p.step limits).outline.isBranch || (p.step limits).outline.isCase then
      indent (around (doc.blockStructure limits).blocks i) - 1
    else indent (around (doc.blockStructure limits).blocks i)

theorem Document.HasStatement.exists_passage (h : doc.HasStatement limits i role level)
    (hlines : Numbered 0 doc.lines) (hshow : ShowMarkers doc.lines) :
    ∃ p, doc.StatementPassage limits i role level p := by
  obtain ⟨hline, hstarts, hlevel⟩ := h
  rw [Option.any_eq_true] at hline hstarts
  obtain ⟨line, hline, hstatement⟩ := hline
  obtain ⟨o, ho, hstarts⟩ := hstarts
  rw [Bool.and_eq_true, beq_iff_eq] at hstatement
  rw [Option.isNone_iff_eq_none] at hstarts
  obtain ⟨hcode, hrole⟩ := hstatement
  obtain ⟨p, hp, rfl, houtline⟩ := getElem?_passages limits hline
  rw [ho] at houtline
  obtain rfl := Option.some.inj houtline
  have hmem := List.mem_of_getElem? hp
  have hindex : p.line.index = i := by simpa using hlines.index_eq hline
  have hpending : p.pending = 0 := by
    by_contra hne
    obtain ⟨n, hn⟩ := Nat.exists_eq_succ_of_ne_zero hne
    simp [Passage.step, hn, step] at hstarts
  have hacts := acts_step limits p.head p.before hcode p.rest
  rw [rest_of_getElem?_passages hp, hrole, ← rest_of_getElem?_passages hp, ← hpending] at hacts
  obtain ⟨above, habove⟩ := getElem?_levelsAfter hlines hshow (sound_initial _) 0 hp
  have hcomment : p.line.isComment = false := by
    rw [OwnedLine.isComment, (OwnedLine.of_isCode hcode).1]
  have hsettled := Indentation.getElem?_settled limits habove hcomment
  rw [OwnedLine.level_of_isCode hcode hstarts, current_before hlines hmem, hindex] at hsettled
  rw [Document.levels, indentLevels, Document.outlined, outlines_blockStructure] at hlevel
  exact ⟨p, hmem, hindex, hacts, Option.some.inj (hlevel.symm.trans hsettled)⟩

namespace Document.StatementPassage

variable {p : Passage}

/-- The level of a statement that closes the innermost block is the indent of those around it. -/
theorem level_of_closes (h : doc.StatementPassage limits i role level p)
    (hlines : Numbered 0 doc.lines) (hcloses : (p.step limits).outline.closes = true)
    {k : Nat} {rest : List Nat} (hstack : p.before.stack = k :: rest) :
    level = indent (rest.filterMap ((doc.blockStructure limits).blocks[·]?)) := by
  have hevents : (p.step limits).outline.events = #[.closed] := by
    cases h.acts with
    | enter _ _ _ _ hnot => rw [hcloses] at hnot; cases hnot
    | stay _ _ hnot => rw [hcloses] at hnot; cases hnot
    | leave _ _ _ _ _ _ hevents => exact hevents
  have hkinds := openKinds_before hlines h.mem
  have hnested := nested_before hlines h.mem
  rw [hstack] at hnested
  cases hnested with
  | cons hblock =>
      rw [reverse_around hlines h.mem, hstack, List.filterMap_cons_some hblock,
        List.map_cons] at hkinds
      have hreplay : (p.step limits).outline.events.foldl LevelStack.replay
          (.ofKinds p.before.openKinds) =
          .ofKinds ((rest.filterMap ((doc.blockStructure limits).blocks[·]?)).map Block.kind) := by
        rw [hevents, hkinds]
        rfl
      rw [h.level_eq, if_pos hcloses, hreplay, LevelStack.current_ofKinds, List.map_map]
      rfl

/-- The level of a statement is the one that the blocks around its line give. -/
theorem level_eq_levelAt (h : doc.StatementPassage limits i role level p)
    (hlines : Numbered 0 doc.lines) :
    level = levelAt (doc.blockStructure limits).blocks i role := by
  have hany := any_closed_eq hlines h.mem h.acts
  rw [h.index_eq] at hany
  simp only [levelAt, hany]
  cases h.acts with
  | enter construct hrole harena hstack hcloses hdedent =>
      rw [h.level_eq, hcloses, hdedent, hrole]
      rfl
  | leave construct hrole number hstack harena hcloses hevents =>
      have hnested := nested_before hlines h.mem
      rw [hstack] at hnested
      cases hnested with
      | @cons _ b _ hblock =>
          have hinner := getLast?_around hlines h.mem
          rw [hstack, List.head?_cons, Option.bind_some, hblock, h.index_eq] at hinner
          have hindent := indent_around_of_stack hlines h.mem hstack hblock
          rw [h.index_eq] at hindent
          rw [if_pos hcloses, h.level_of_closes hlines hcloses hstack, hinner, hindent,
            Option.elim_some, Nat.add_sub_cancel_left]
  | stay harena hstack hcloses hdedent =>
      have htop := topKind?_before hlines h.mem
      rw [h.index_eq] at htop
      rw [h.level_eq, hcloses, hdedent, htop]
      rfl

/-- A branch, or a case of the innermost block, stands one level above the body around it. -/
theorem level_of_dedent (h : doc.StatementPassage limits i role level p)
    (hrole : role = .branch ∨ role = .case ∧ p.before.topKind? = some .selection) :
    level = indent (around (doc.blockStructure limits).blocks i) - 1 := by
  cases h.acts with
  | enter construct hstart => rcases hrole with rfl | ⟨rfl, -⟩ <;> cases hstart
  | leave construct hstop => rcases hrole with rfl | ⟨rfl, -⟩ <;> cases hstop
  | stay harena hstack hcloses hdedent =>
      rw [h.level_eq, hcloses, hdedent]
      rcases hrole with rfl | ⟨rfl, htop⟩
      · rfl
      · rw [htop]
        rfl

/-- The level of a statement that opens a block is the indent of the blocks around it. -/
theorem level_of_startLine (h : doc.StatementPassage limits i role level p)
    (hlines : Numbered 0 doc.lines) {k : Nat} {b : Block}
    (hb : (doc.blockStructure limits).blocks[k]? = some b) (hstart : b.startLine = i) :
    b.parent = p.before.stack.head? ∧
      level = indent (around (doc.blockStructure limits).blocks i) := by
  obtain ⟨hparent, hcloses, hdedent⟩ :=
    enter_of_startLine hlines h.mem h.acts hb (hstart.trans h.index_eq.symm)
  refine ⟨hparent, ?_⟩
  rw [h.level_eq, hcloses, hdedent]
  rfl

/-- Below the statement that opens a block the indent is larger by that of the block. -/
theorem indent_inside (h : doc.StatementPassage limits i role level p)
    (hlines : Numbered 0 doc.lines) {k : Nat} {b : Block}
    (hb : (doc.blockStructure limits).blocks[k]? = some b) (hstart : b.startLine = i)
    {q : Passage} (hq : q ∈ passages limits 0 0 {} doc.lines)
    (hinner : q.before.stack.head? = some k) :
    indent (around (doc.blockStructure limits).blocks q.line.index) =
      b.kind.bodyIndent + level := by
  obtain ⟨hparent, hlevel⟩ := h.level_of_startLine hlines hb hstart
  have hstack := stack_eq_cons hlines h.mem hq hb hparent hinner
  rw [hlevel, ← h.index_eq, indent_around hlines h.mem]
  exact indent_around_of_stack hlines hq hstack hb

end Document.StatementPassage

end

/-! ## The lines of a text -/

theorem isBlank_of_isMarker {l : OwnedLine} {inside : Bool}
    (howner : l.owner = Owner.ofContent inside l.content) (h : l.isMarker = true) :
    l.isBlank = false := by
  have hmarker : .marker ∈ Region.marks inside l.content := by
    by_contra hm
    rw [OwnedLine.isMarker, howner, Owner.ofContent, if_neg hm] at h
    cases inside <;> cases h
  obtain ⟨text, rest, hsplit⟩ := exists_marker_split hmarker
  have hcontent := Region.unmark_marks inside l.content
  rw [hsplit, Region.unmark_map_text_append] at hcontent
  have hpercent : '%' ∈ l.content := by
    rw [← hcontent]
    cases inside <;> simp [Region.unmark]
  rw [Line.isBlank, ← Bool.not_eq_true, Text.allBlank_iff]
  intro hblank
  exact absurd (hblank '%' hpercent) (by decide)

theorem Document.Owned.showMarkers {inside : Bool} {pieces : List (List Char × Ending)}
    {lines : List OwnedLine} (h : Owned inside pieces lines) : ShowMarkers lines := by
  induction h with
  | nil => simp [ShowMarkers]
  | cons line howner _ ih =>
      intro l hl
      rcases List.mem_cons.mp hl with rfl | hl
      · exact isBlank_of_isMarker howner
      · exact ih l hl

theorem Document.showMarkers_frozen (text : List Char) (index : Nat) :
    ShowMarkers ((ofText text).freezeFrom index).lines :=
  (owned_frozen text index).showMarkers

section

variable {limits : Limits} {doc : Document}

/-- A line that is not frozen is nested as deep as there are blocks around it. -/
theorem nesting_eq_length_around (hlines : Numbered 0 doc.lines) {i : Nat} {line : OwnedLine}
    {o : Outline} (hline : doc.lines[i]? = some line)
    (ho : (doc.blockStructure limits).outlines[i]? = some o) (hfrozen : line.frozen = false) :
    o.nesting = (around (doc.blockStructure limits).blocks i).length ∧
      (around (doc.blockStructure limits).blocks i).map (·.depth) = List.range o.nesting := by
  obtain ⟨p, hp, rfl, houtline⟩ := getElem?_passages limits hline
  rw [ho] at houtline
  obtain rfl := Option.some.inj houtline
  have hindex : p.line.index = i := by simpa using hlines.index_eq hline
  have hdepths := map_depth_around hlines (List.mem_of_getElem? hp)
  have hnesting : (p.step limits).outline.nesting = p.before.depth :=
    nesting_step limits p.pending p.head p.before hfrozen p.rest
  rw [hindex] at hdepths
  rw [hnesting]
  refine ⟨?_, hdepths⟩
  rw [← List.length_map (f := fun b : Block => b.depth), hdepths, List.length_range]

theorem level_eq_of_closed (hlines : Numbered 0 doc.lines) (hshow : ShowMarkers doc.lines)
    {b : Block} (hb : b ∈ (doc.blockStructure limits).blocks) (hclosed : b.closed = true)
    {role role' : Role} {level level' : Nat}
    (hopener : doc.HasStatement limits b.startLine role level)
    (hcloser : doc.HasStatement limits b.endLine role' level') : level' = level := by
  obtain ⟨k, hk⟩ := Array.getElem?_of_mem hb
  obtain ⟨p, hp⟩ := hopener.exists_passage hlines hshow
  obtain ⟨q, hq⟩ := hcloser.exists_passage hlines hshow
  obtain ⟨hparent, hlevel⟩ := hp.level_of_startLine hlines hk rfl
  obtain ⟨hinner, hcloses⟩ :=
    leave_of_endLine hlines hq.mem hq.acts hk hclosed hq.index_eq.symm
  have hstack := stack_eq_cons hlines hp.mem hq.mem hk hparent hinner
  rw [hq.level_of_closes hlines hcloses hstack, hlevel, ← hp.index_eq, indent_around hlines hp.mem]

/-- A statement that stands one level above the body of its block, by the level of the statement
that opened the block. -/
theorem level_succ_eq_of_dedent (hlines : Numbered 0 doc.lines) (hshow : ShowMarkers doc.lines)
    {i : Nat} {b : Block} (hinner : (around (doc.blockStructure limits).blocks i).getLast? = some b)
    {role role' : Role} {level level' : Nat}
    (hrole : role' = .branch ∨ role' = .case ∧ b.kind = .selection)
    (hopener : doc.HasStatement limits b.startLine role level)
    (hstatement : doc.HasStatement limits i role' level') :
    level' + 1 = b.kind.bodyIndent + level := by
  obtain ⟨p, hp⟩ := hopener.exists_passage hlines hshow
  obtain ⟨q, hq⟩ := hstatement.exists_passage hlines hshow
  have hlast := getLast?_around hlines hq.mem
  have htop := topKind?_before hlines hq.mem
  rw [hq.index_eq, hinner] at hlast htop
  obtain ⟨k, hhead, hk⟩ := Option.bind_eq_some_iff.mp hlast.symm
  have hindent := hp.indent_inside hlines hk rfl hq.mem hhead
  rw [hq.index_eq] at hindent
  have hdedent : role' = .branch ∨ role' = .case ∧ q.before.topKind? = some .selection := by
    rw [htop]
    exact hrole.imp_right fun h => ⟨h.1, by rw [Option.map_some, h.2]⟩
  have hpos : 0 < b.kind.bodyIndent := by cases b.kind <;> decide
  rw [hq.level_of_dedent hdedent, hindent]
  omega

end

/-- The levels agree with the blocks. A line that is not frozen is nested as deep as there are
blocks around it, which are one in the other, and a statement has the level that these give. So
what closes a block is aligned with what opened it, an `Else` with its `If`, and a `Case` stands one
level below its `Select`. -/
theorem levels_agree_with_blocks (limits : Limits) (text : List Char) (frozenFrom : Nat) :
    let doc := (Document.ofText text).freezeFrom frozenFrom
    let blocks := (doc.blockStructure limits).blocks
    (∀ (i : Nat) (line : OwnedLine) (o : Outline), doc.lines[i]? = some line →
      (doc.blockStructure limits).outlines[i]? = some o → line.frozen = false →
      o.nesting = (around blocks i).length ∧
        (around blocks i).map (·.depth) = List.range o.nesting) ∧
    (∀ (i : Nat) (role : Role) (level : Nat), doc.HasStatement limits i role level →
      level = levelAt blocks i role) ∧
    (∀ b ∈ blocks, b.closed = true → ∀ (role role' : Role) (level level' : Nat),
      doc.HasStatement limits b.startLine role level →
      doc.HasStatement limits b.endLine role' level' → level' = level) ∧
    (∀ (i : Nat) (b : Block), (around blocks i).getLast? = some b → b.construct = .ifThen →
      ∀ (role : Role) (level level' : Nat), doc.HasStatement limits b.startLine role level →
      doc.HasStatement limits i .branch level' → level' = level) ∧
    (∀ (i : Nat) (b : Block), (around blocks i).getLast? = some b → b.construct = .selectCase →
      ∀ (role : Role) (level level' : Nat), doc.HasStatement limits b.startLine role level →
      doc.HasStatement limits i .case level' → level' = level + 1) := by
  intro doc blocks
  have hlines : Numbered 0 doc.lines := Document.numbered_frozen text frozenFrom
  have hshow : ShowMarkers doc.lines := Document.showMarkers_frozen text frozenFrom
  refine ⟨?_, ?_, ?_, ?_, ?_⟩
  · intro i line o hline ho hfrozen
    exact nesting_eq_length_around hlines hline ho hfrozen
  · intro i role level h
    obtain ⟨p, hp⟩ := h.exists_passage hlines hshow
    exact hp.level_eq_levelAt hlines
  · intro b hb hclosed role role' level level' hopener hcloser
    exact level_eq_of_closed hlines hshow hb hclosed hopener hcloser
  · intro i b hinner hif role level level' hopener hbranch
    have hlevel := level_succ_eq_of_dedent hlines hshow hinner (.inl rfl) hopener hbranch
    rw [Block.kind, hif] at hlevel
    exact Nat.succ.inj (hlevel.trans (Nat.add_comm 1 level))
  · intro i b hinner hselect role level level' hopener hcase
    have hkind : b.kind = .selection := by rw [Block.kind, hselect]; rfl
    have hlevel := level_succ_eq_of_dedent hlines hshow hinner (.inr ⟨rfl, hkind⟩) hopener hcase
    rw [hkind] at hlevel
    exact Nat.succ.inj (hlevel.trans (Nat.add_comm 2 level))

/-- The theorem at a page with an `Else` above a `Select` that is closed, in a procedure that is
not. -/
theorem levels_agree_with_blocks_page :
    ∃ doc, doc = (Document.ofText
        "<% sub f %>\n<%\nif a then\nelse\nselect case b\ncase 1\nend select".toList).freezeFrom 7 ∧
      doc.HasStatement {} 3 .branch 1 ∧ doc.HasStatement {} 5 .case 3 ∧
      doc.HasStatement {} 6 (.stop .selectCase) 2 ∧
      levelAt (doc.blockStructure {}).blocks 5 .case = 3 ∧
      (∀ level, doc.HasStatement {} 6 (.stop .selectCase) level → level = 2) ∧
      (∀ level, doc.HasStatement {} 3 .branch level → level = 1) ∧
      (∀ level, doc.HasStatement {} 5 .case level → level = 3) := by
  obtain ⟨-, hlevels, hclosed, hbranches, hcases⟩ := levels_agree_with_blocks {}
    "<% sub f %>\n<%\nif a then\nelse\nselect case b\ncase 1\nend select".toList 7
  refine ⟨_, rfl, by decide +kernel, by decide +kernel, by decide +kernel, ?_, ?_, ?_, ?_⟩
  · exact (hlevels 5 .case 3 (by decide +kernel)).symm
  · intro level hlevel
    exact hclosed ⟨.selectCase, 4, 6, 2, some 1, #[], true⟩ (by decide +kernel) rfl
      (.start .selectCase) _ 2 level (by decide +kernel) hlevel
  · intro level hlevel
    exact hbranches 3 ⟨.ifThen, 2, 6, 1, some 0, #[2], false⟩ (by decide +kernel) rfl
      (.start .ifThen) 1 level (by decide +kernel) hlevel
  · intro level hlevel
    exact hcases 5 ⟨.selectCase, 4, 6, 2, some 1, #[], true⟩ (by decide +kernel) rfl
      (.start .selectCase) 2 level (by decide +kernel) hlevel

end ClassicAsp
