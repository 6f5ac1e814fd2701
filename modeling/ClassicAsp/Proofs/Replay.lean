import ClassicAsp.Proofs.Growth
import ClassicAsp.Proofs.Relayout

/-! # Levels and blocks

The levels of lines are found by replaying the events of the lines on a stack of levels. This stack
stays in step with the open blocks, so that the level of a statement is the indent of the blocks
around its line: what closes a block is aligned with what opened it, and so are the branches. -/

namespace ClassicAsp

open Block

/-! ## Replaying events -/

/-- The levels of nested bodies of these kinds, the innermost first. -/
def LevelStack.ofKinds : List BlockKind → LevelStack
  | [] => []
  | kind :: kinds => ((ofKinds kinds).current + kind.bodyIndent) :: ofKinds kinds

theorem LevelStack.current_ofKinds (kinds : List BlockKind) :
    (ofKinds kinds).current = (kinds.map (·.bodyIndent)).sum := by
  cases kinds with
  | nil => rfl
  | cons kind kinds =>
      rw [List.map_cons, List.sum_cons, ← current_ofKinds kinds, Nat.add_comm]
      rfl

namespace BlockScan

variable {limits : Limits}

/-- The kinds of the open blocks, the innermost first. -/
def openKinds (s : BlockScan) : List BlockKind :=
  s.stack.filterMap fun k => s.arena[k]?.map Block.kind

/-- Replaying the events of moves gives the levels of the blocks that are open after them. -/
theorem replay_moves {n : Nat} {x y : BlockScan × Array BlockEvent} (h : Moves limits n x y)
    (hsound : Sound limits.maxNestingDepth n x.1.arena x.1.stack) {levels : LevelStack}
    (hx : x.2.foldl LevelStack.replay levels = .ofKinds x.1.openKinds) :
    y.2.foldl LevelStack.replay levels = .ofKinds y.1.openKinds := by
  induction h with
  | refl => exact hx
  | tail hmoves hmove ih =>
      have hsound' := sound_moves hmoves hsound
      cases hmove with
      | @stay s t events hblocks hstack =>
          have harena : t.arena = s.arena := by rw [arena, hblocks]; rfl
          rw [openKinds, hstack, harena]
          exact ih
      | @enter s t events construct hroom hblocks hstack =>
          have hkinds : t.openKinds = construct.kind :: s.openKinds := by
            rw [openKinds, hstack, List.filterMap_cons, arena_enter hblocks, ← size_arena,
              Array.getElem?_push_size]
            refine congrArg (construct.kind :: ·) (List.filterMap_congr fun k hk => ?_)
            rw [Array.getElem?_push, if_neg (Nat.ne_of_lt (hsound'.opened.lt_size hk))]
          rw [Array.foldl_push, ih, hkinds]
          rfl
      | @leave s t events number hstack hblocks =>
          have hopened := hsound'.opened
          rw [hstack] at hopened
          cases hopened with
          | @cons _ a _ ha _ _ _ hrest _ =>
              have hkinds : s.openKinds = a.kind :: t.openKinds := by
                rw [openKinds, hstack, List.filterMap_cons, ha]
                refine congrArg (a.kind :: ·) (List.filterMap_congr fun k hk => ?_)
                have := hrest k hk
                rw [arena_leave hblocks, Array.getElem?_modify, if_neg (by omega)]
              rw [Array.foldl_push, ih, hkinds]
              rfl

/-- Lines that hold a marker show it. -/
def ShowMarkers (lines : List OwnedLine) : Prop :=
  ∀ l ∈ lines, l.isMarker = true → l.isBlank = false

/-- A line that is passed over in the replay has no events. -/
theorem events_step_eq_empty (limits : Limits) (pending head : Nat) (s : BlockScan)
    {line : OwnedLine} (rest : List OwnedLine)
    (hmarker : line.isMarker = true → line.isBlank = false)
    (h : (!line.isScript || line.frozen) = true ∨
      (step limits pending head s line rest).outline.continues.isSome = true ∨
      (line.isComment || line.isBlank) = true) :
    (step limits pending head s line rest).outline.events = #[] := by
  cases pending with
  | succ pending => rfl
  | zero =>
      rw [continues_step_zero] at h
      simp only [step]
      by_cases hfrozen : line.frozen = true
      · simp [hfrozen]
      · have hnot : line.isMarker = false ∧ line.isCode = false := by
          simp only [OwnedLine.isScript, OwnedLine.isComment, OwnedLine.isMarker,
            OwnedLine.isCode, OwnedLine.isBody] at h hmarker ⊢
          cases howner : line.owner with
          | markup => simp
          | body isComment =>
              simp only [howner, hfrozen] at h ⊢
              rcases h with h | h | h
              · cases h
              · cases h
              · cases isComment <;> simp_all
          | marker fragments =>
              simp only [howner, hfrozen, hmarker] at h
              rcases h with h | h | h <;> cases h
        simp [hfrozen, hnot]

theorem level_snd {line : OwnedLine} {o : Outline} (head : Nat) (levels : LevelStack)
    (h : (!line.isScript || line.frozen) = true ∨ o.continues.isSome = true ∨
      (line.isComment || line.isBlank) = true → o.events = #[]) :
    (line.level o head levels).2 = o.events.foldl LevelStack.replay levels := by
  simp only [OwnedLine.level]
  split
  · next hout => rw [h (.inl hout)]; rfl
  · split
    · next hcontinues => rw [h (.inr (.inl hcontinues))]; rfl
    · split
      · next hpassed => rw [h (.inr (.inr hpassed))]; rfl
      · split
        · rfl
        · split <;> rfl

theorem replay_step {n : Nat} (pending head : Nat) {s : BlockScan} {line : OwnedLine}
    (rest : List OwnedLine) (hindex : line.index = n)
    (hsound : Sound limits.maxNestingDepth n s.arena s.stack) :
    (step limits pending head s line rest).outline.events.foldl LevelStack.replay
        (.ofKinds s.openKinds) =
      .ofKinds (step limits pending head s line rest).state.openKinds := by
  have hmoves := moves_step limits pending head s line rest
  rw [hindex] at hmoves
  exact replay_moves hmoves hsound rfl

/-- The levels after a line are those of the blocks that are open after it. -/
theorem level_snd_step {n : Nat} (pending head : Nat) {s : BlockScan} {line : OwnedLine}
    (rest : List OwnedLine) (hindex : line.index = n)
    (hmarker : line.isMarker = true → line.isBlank = false)
    (hsound : Sound limits.maxNestingDepth n s.arena s.stack) (level : Nat) :
    (line.level (step limits pending head s line rest).outline level (.ofKinds s.openKinds)).2 =
      .ofKinds (step limits pending head s line rest).state.openKinds := by
  rw [level_snd level _ (events_step_eq_empty limits pending head s rest hmarker),
    replay_step pending head rest hindex hsound]

/-- Before each line the replay is at the levels of the open blocks. -/
theorem getElem?_levelsAfter {n pending head : Nat} {s : BlockScan} {lines : List OwnedLine}
    (hlines : Numbered n lines) (hshow : ShowMarkers lines)
    (hsound : Sound limits.maxNestingDepth n s.arena s.stack) (level : Nat) {i : Nat} {p : Passage}
    (hp : (passages limits pending head s lines)[i]? = some p) :
    ∃ above, (Indentation.levelsAfter [] level (.ofKinds s.openKinds)
        (lines.zip (outlines limits pending head s lines)))[i]? =
      some (p.line,
        (p.line.level (p.step limits).outline above (.ofKinds p.before.openKinds)).1) := by
  induction lines generalizing n pending head s level i with
  | nil => simp [passages] at hp
  | cons line rest ih =>
      rw [outlines, List.zip_cons_cons, Indentation.levelsAfter_cons]
      cases i with
      | zero =>
          simp only [passages, List.getElem?_cons_zero, Option.some.injEq] at hp
          subst hp
          exact ⟨level, rfl⟩
      | succ i =>
          rw [List.getElem?_cons_succ,
            level_snd_step pending head rest hlines.head (hshow line (by simp)) hsound]
          exact ih hlines.tail (fun l hl => hshow l (by simp [hl]))
            (sound_step pending head rest hlines.head hsound) _ hp

/-! ## Statements -/

/-- What a statement with a role does at the line with this index, from state `s` to state `t` with
outline `o`. -/
inductive Acts (index : Nat) (role : Role) (s t : BlockScan) (o : Outline) : Prop where
  | enter (construct : Construct) (hrole : role = .start construct)
      (harena : t.arena = s.arena.push (s.newBlock index construct))
      (hstack : t.stack = s.blocks.size :: s.stack)
      (hcloses : o.closes = false) (hdedent : (o.isBranch || o.isCase) = false)
  | leave (construct : Construct) (hrole : role = .stop construct) (number : Nat)
      (hstack : s.stack = number :: t.stack)
      (harena : t.arena = s.arena.modify number (closedAt index)) (hcloses : o.closes = true)
      (hevents : o.events = #[.closed])
  | stay (harena : t.arena = s.arena) (hstack : t.stack = s.stack) (hcloses : o.closes = false)
      (hdedent : (o.isBranch || o.isCase) =
        (role == .branch || role == .case && s.topKind? == some .selection))

theorem Acts.of_diagnostics {index : Nat} {role : Role} {s t : BlockScan} {o : Outline}
    {diagnostics : Array Diagnostic} (h : Acts index role { s with diagnostics } t o) :
    Acts index role s t o := by
  cases h with
  | enter construct hrole harena hstack hcloses hdedent =>
      exact .enter construct hrole harena hstack hcloses hdedent
  | leave construct hrole number hstack harena hcloses hevents =>
      exact .leave construct hrole number hstack harena hcloses hevents
  | stay harena hstack hcloses hdedent => exact .stay harena hstack hcloses hdedent

theorem acts_apply (limits : Limits) (index nesting : Nat) (s : BlockScan) (role : Role) :
    Acts index role s (apply limits index (s, { nesting }) role).1
      (apply limits index (s, { nesting }) role).2 := by
  cases role with
  | plain => exact .stay rfl rfl rfl rfl
  | branch => exact .stay rfl rfl rfl rfl
  | case =>
      simp only [apply]
      split
      · next htop => exact .stay rfl rfl rfl (by simp [htop])
      · next htop => exact .stay rfl rfl rfl (by simp [htop])
  | start construct =>
      by_cases hroom : s.depth + s.overflow < limits.maxNestingDepth
      · obtain ⟨hblocks, hstack, houtline⟩ := openBlock_of_room hroom index construct { nesting }
        refine .enter construct rfl (arena_enter hblocks) hstack ?_ ?_
        · rw [apply, houtline]
        · rw [apply, houtline]
          rfl
      · simp only [apply, openBlock, if_pos (Nat.le_of_not_lt hroom)]
        split <;> exact .stay rfl rfl rfl rfl
  | stop construct =>
      by_cases hoverflow : s.overflow = 0
      · by_cases htop : s.topKind? = some construct.kind
        · obtain ⟨number, hstack, hblocks, houtline⟩ :=
            closeBlock_of_topKind? hoverflow htop index { nesting }
          refine .leave construct rfl number hstack (arena_leave hblocks) ?_ ?_
          · rw [apply, houtline]
          · rw [apply, houtline]
            rfl
        · simp only [apply, closeBlock, hoverflow, Nat.lt_irrefl, if_false, htop]
          exact .stay rfl rfl rfl rfl
      · simp only [apply, closeBlock, if_pos (Nat.pos_of_ne_zero hoverflow)]
        exact .stay rfl rfl rfl rfl

end BlockScan

theorem OwnedLine.of_isCode {l : OwnedLine} (h : l.isCode = true) :
    l.owner = .body false ∧ l.frozen = false ∧ l.isBlank = false := by
  rw [isCode, isBody, isComment, Bool.and_eq_true, Bool.and_eq_true] at h
  obtain ⟨⟨hbody, hcomment⟩, hblank⟩ := h
  cases howner : l.owner with
  | markup => simp [howner] at hbody
  | marker fragments => simp [howner] at hbody
  | body isComment =>
      simp only [howner, Bool.not_eq_true'] at hbody hcomment hblank
      exact ⟨by rw [hcomment], hbody, hblank⟩

/-- A line of code that no statement reaches acts by its role. -/
theorem BlockScan.acts_step (limits : Limits) (head : Nat) (s : BlockScan) {line : OwnedLine}
    (hcode : line.isCode = true) (rest : List OwnedLine) :
    Acts line.index (Role.classify (statementAt limits line rest).code) s
      (step limits 0 head s line rest).state (step limits 0 head s line rest).outline := by
  obtain ⟨howner, hfrozen, -⟩ := OwnedLine.of_isCode hcode
  have hmarker : line.isMarker = false := by rw [OwnedLine.isMarker, howner]
  simp only [step, hfrozen, hmarker, hcode, Bool.false_eq_true, if_false, if_true]
  cases hexhausted : (statementAt limits line rest).exhausted with
  | none =>
      simp only [noting, hexhausted]
      exact acts_apply limits line.index s.depth s _
  | some spent =>
      simp only [noting, hexhausted]
      exact (acts_apply limits line.index s.depth (s.warn _ _ _) _).of_diagnostics

/-- The level of a line of code that starts a statement. -/
theorem OwnedLine.level_of_isCode {l : OwnedLine} (hcode : l.isCode = true) {o : Outline}
    (hstarts : o.continues = none) (head : Nat) (levels : LevelStack) :
    (l.level o head levels).1 =
      if o.closes then (o.events.foldl LevelStack.replay levels).current
      else if o.isBranch || o.isCase then levels.current - 1
      else levels.current := by
  obtain ⟨howner, hfrozen, hblank⟩ := of_isCode hcode
  simp only [level, isScript, isComment, howner, hfrozen, hblank, hstarts]
  simp only [Bool.not_true, Bool.or_false, Bool.false_eq_true, if_false, Option.isSome_none]
  split
  · rfl
  · split <;> rfl

/-- The lines of a document with their outlines. -/
def Document.outlined (limits : Limits) (doc : Document) : List (OwnedLine × Outline) :=
  doc.lines.zip (doc.blockStructure limits).outlines

/-- The indent levels of the lines of a document. -/
def Document.levels (limits : Limits) (doc : Document) : List Nat :=
  (indentLevels limits (doc.outlined limits)).1

theorem Indentation.getElem?_settled (limits : Limits) {rows : List (OwnedLine × Nat)} {i : Nat}
    {line : OwnedLine} {level : Nat} (hrow : rows[i]? = some (line, level))
    (hcomment : line.isComment = false) :
    (rows.foldr (Settled.above limits) {}).levels[i]? = some level := by
  induction rows generalizing i with
  | nil => simp at hrow
  | cons row rows ih =>
      rw [List.foldr_cons]
      cases i with
      | zero =>
          obtain rfl : row = (line, level) := by simpa using hrow
          simp [Settled.above, hcomment]
      | succ i =>
          obtain ⟨x, hx⟩ := Settled.exists_levels limits row
            (rows.foldr (Settled.above limits) {})
          rw [hx]
          exact ih hrow

end ClassicAsp
