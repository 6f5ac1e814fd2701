import ClassicAsp.Proofs.Growth
import ClassicAsp.Proofs.Truncation
import ClassicAsp.Proofs.Writing

/-! # The nesting ceiling

A ceiling on the nesting leaves out the blocks that are too deep and changes nothing else, as long
as every closing fits. The count of openings left out stands for the part of the stack that is
missing: it is zero again exactly when the walk is back below the ceiling. -/

namespace ClassicAsp

namespace BlockScan

open Block

/-! ## The walk below the ceiling -/

/-- The state `s` of the walk below the ceiling, where the walk that meets none is in state `u`.
Openings are left out for the blocks that are open above the ceiling. -/
structure Limited (ceiling : Nat) (u s : BlockScan) : Prop where
  cutOff : CutOff ceiling u.arena u.stack s.arena s.stack
  overflow_eq : s.overflow = u.depth - ceiling
  unmatched_eq : s.unmatched = 0
  overflow_zero : u.overflow = 0

theorem limited_initial (ceiling : Nat) : Limited ceiling {} {} where
  cutOff := ⟨by simp [arena, below], by simp [stack]⟩
  overflow_eq := by simp [depth]
  unmatched_eq := rfl
  overflow_zero := rfl

section

variable {limits limits' : Limits} {n limit : Nat} {u s : BlockScan}

theorem Limited.depth_eq (h : Limited limit u s) (hopened : OpenStack u.arena u.stack) :
    s.depth = min limit u.depth := by
  rw [← length_stack, h.cutOff.length_eq hopened, length_stack]

theorem openBlock_of_full (h : limits.maxNestingDepth ≤ s.depth + s.overflow) (index : Nat)
    (construct : Construct) (o : Outline) :
    (openBlock limits index construct s o).1.arena = s.arena ∧
      (openBlock limits index construct s o).1.stack = s.stack ∧
      (openBlock limits index construct s o).1.overflow = s.overflow + 1 ∧
      (openBlock limits index construct s o).1.unmatched = s.unmatched := by
  simp only [openBlock, if_pos h]
  split <;> exact ⟨rfl, rfl, rfl, rfl⟩

theorem counts_openBlock_of_room (h : s.depth + s.overflow < limits.maxNestingDepth)
    (index : Nat) (construct : Construct) (o : Outline) :
    (openBlock limits index construct s o).1.overflow = s.overflow ∧
      (openBlock limits index construct s o).1.unmatched = s.unmatched := by
  simp only [openBlock, if_neg (Nat.not_le.mpr h)]
  exact ⟨trivial, trivial⟩

theorem counts_closeBlock_of_topKind? (hoverflow : s.overflow = 0) {construct : Construct}
    (htop : s.topKind? = some construct.kind) (index : Nat) (o : Outline) :
    (closeBlock index construct s o).1.overflow = 0 ∧
      (closeBlock index construct s o).1.unmatched = s.unmatched := by
  simp only [closeBlock, hoverflow, Nat.lt_irrefl, if_false, htop, if_true]
  split
  · exact ⟨hoverflow, rfl⟩
  · exact ⟨rfl, rfl⟩

/-- A block is opened in both walks, or left out below the ceiling. -/
theorem limited_openBlock (h : Limited limits'.maxNestingDepth u s)
    (hsound : Sound limit n u.arena u.stack) (hroom : u.depth < limits.maxNestingDepth)
    (index : Nat) (construct : Construct) (o o' : Outline) :
    Limited limits'.maxNestingDepth (openBlock limits index construct u o).1
      (openBlock limits' index construct s o').1 := by
  have hroom' : u.depth + u.overflow < limits.maxNestingDepth := by
    rw [h.overflow_zero]
    exact hroom
  obtain ⟨hblocks, hstack, -⟩ := openBlock_of_room hroom' index construct o
  obtain ⟨hoverflow, -⟩ := counts_openBlock_of_room hroom' index construct o
  have harena := arena_enter hblocks
  have hdepth : (openBlock limits index construct u o).1.depth = u.depth + 1 := by
    rw [← length_stack, hstack, List.length_cons, length_stack]
  have hzero : (openBlock limits index construct u o).1.overflow = 0 :=
    hoverflow.trans h.overflow_zero
  have hlength : u.stack.length = u.depth := length_stack u
  -- open blocks and openings left out add up to the depth of the other walk
  have hmin := h.depth_eq hsound.opened
  have hleft := h.overflow_eq
  by_cases hlt : u.depth < limits'.maxNestingDepth
  · have hlt' : s.depth + s.overflow < limits'.maxNestingDepth := by omega
    obtain ⟨hblocks', hstack', -⟩ := openBlock_of_room hlt' index construct o'
    obtain ⟨hoverflow', hunmatched'⟩ := counts_openBlock_of_room hlt' index construct o'
    have hcut := h.cutOff.enter hsound (hlength.symm ▸ hlt) index construct
    rw [length_stack, length_stack, size_arena, size_arena] at hcut
    refine ⟨?_, ?_, hunmatched'.trans h.unmatched_eq, hzero⟩
    · rw [harena, hstack, arena_enter hblocks', hstack']
      exact hcut
    · rw [hoverflow', hdepth]
      omega
  · have hle : limits'.maxNestingDepth ≤ s.depth + s.overflow := by omega
    obtain ⟨harena', hstack', hoverflow', hunmatched'⟩ :=
      openBlock_of_full hle index construct o'
    have hcut := h.cutOff.enter_above hsound (hlength.symm ▸ Nat.le_of_not_lt hlt) index construct
    rw [length_stack, size_arena] at hcut
    refine ⟨?_, ?_, hunmatched'.trans h.unmatched_eq, hzero⟩
    · rw [harena, hstack, harena', hstack']
      exact hcut
    · rw [hoverflow', hdepth]
      omega

/-- A closing that fits closes the innermost block in both walks, or takes back an opening that
was left out. -/
theorem limited_closeBlock (h : Limited limit u s) (hopened : OpenStack u.arena u.stack)
    (index : Nat) {construct : Construct} (htop : u.topKind? = some construct.kind)
    (o o' : Outline) :
    Limited limit (closeBlock index construct u o).1 (closeBlock index construct s o').1 := by
  obtain ⟨number, hstack, hblocks, -⟩ := closeBlock_of_topKind? h.overflow_zero htop index o
  obtain ⟨hzero, -⟩ := counts_closeBlock_of_topKind? h.overflow_zero htop index o
  have harena := arena_leave hblocks
  have hcut := h.cutOff
  have hdepth : u.depth = (closeBlock index construct u o).1.depth + 1 := by
    rw [← length_stack, hstack, List.length_cons, length_stack]
  have hlength := length_stack (closeBlock index construct u o).1
  have hleft := h.overflow_eq
  by_cases hle : u.depth ≤ limit
  · have hoverflow : s.overflow = 0 := by omega
    have htop' : s.topKind? = some construct.kind := by
      rw [topKind?_eq_arena, hcut.kind_head hopened (by rwa [length_stack]),
        ← topKind?_eq_arena, htop]
    obtain ⟨number', hstack', hblocks', -⟩ := closeBlock_of_topKind? hoverflow htop' index o'
    obtain ⟨hzero', hunmatched'⟩ := counts_closeBlock_of_topKind? hoverflow htop' index o'
    rw [hstack] at hopened
    rw [hstack, hstack'] at hcut
    refine ⟨?_, ?_, hunmatched'.trans h.unmatched_eq, hzero⟩
    · rw [harena, arena_leave hblocks']
      exact hcut.leave hopened (by omega) index
    · rw [hzero']
      omega
  · have hover : 0 < s.overflow := by omega
    have hclose : closeBlock index construct s o' = ({ s with overflow := s.overflow - 1 }, o') :=
      if_pos hover
    rw [hstack] at hopened hcut
    rw [hclose]
    refine ⟨?_, ?_, h.unmatched_eq, hzero⟩
    · rw [harena]
      exact hcut.leave_above hopened (by omega) index
    · show s.overflow - 1 = _
      omega

/-! ## Walks that meet no ceiling -/

/-- So far the walk has stayed below the ceiling, and every closing fits. -/
structure Fits (ceiling : Nat) (u : BlockScan) : Prop where
  pos : 0 < ceiling
  depth_lt : ∀ b ∈ u.arena, b.depth + 1 < ceiling
  unmatched_eq : u.unmatched = 0

theorem Fits.before {t : BlockScan} (h : Fits limit t) (hlater : Later n u t)
    (hunmatched : u.unmatched ≤ t.unmatched) : Fits limit u where
  pos := h.pos
  depth_lt := by
    intro b hb
    obtain ⟨k, hk⟩ := Array.getElem?_of_mem hb
    obtain ⟨c, hc, horigin⟩ := hlater.kept k b hk
    rw [← horigin.depth_eq]
    exact h.depth_lt c (Array.mem_of_getElem? hc)
  unmatched_eq := Nat.eq_zero_of_le_zero (h.unmatched_eq ▸ hunmatched)

theorem Fits.room {ceiling : Nat} (h : Fits ceiling u) (hopened : OpenStack u.arena u.stack) :
    u.depth < ceiling := by
  rw [← length_stack]
  generalize u.stack = stack at hopened
  cases hopened with
  | nil => exact h.pos
  | cons hblock _ hdepth =>
      rw [List.length_cons, ← hdepth]
      exact h.depth_lt _ (Array.mem_of_getElem? hblock)

theorem unmatched_le_apply (limits : Limits) (index : Nat) (x : BlockScan × Outline)
    (role : Role) : x.1.unmatched ≤ (apply limits index x role).1.unmatched := by
  cases role with
  | plain => exact Nat.le_refl _
  | branch => exact Nat.le_refl _
  | case =>
      simp only [apply]
      split <;> exact Nat.le_refl _
  | start construct =>
      simp only [apply, openBlock]
      split
      · split <;> exact Nat.le_refl _
      · exact Nat.le_refl _
  | stop construct =>
      simp only [apply, closeBlock]
      split
      · exact Nat.le_refl _
      · split
        · split <;> exact Nat.le_refl _
        · exact Nat.le_succ _

theorem unmatched_le_foldl_apply (limits : Limits) (index : Nat) (x : BlockScan × Outline)
    (roles : List Role) :
    x.1.unmatched ≤ (roles.foldl (apply limits index) x).1.unmatched := by
  induction roles generalizing x with
  | nil => exact Nat.le_refl _
  | cons role roles ih => exact Nat.le_trans (unmatched_le_apply limits index x role) (ih _)

theorem exists_noting (s : BlockScan) (line : OwnedLine) (statement : LogicalLine) :
    ∃ diagnostics, s.noting line statement = { s with diagnostics := diagnostics } := by
  rw [noting]
  split <;> exact ⟨_, rfl⟩

theorem unmatched_le_step (limits : Limits) (pending head : Nat) (s : BlockScan)
    (line : OwnedLine) (rest : List OwnedLine) :
    s.unmatched ≤ (step limits pending head s line rest).state.unmatched := by
  cases pending with
  | succ pending => exact Nat.le_refl _
  | zero =>
      simp only [step]
      split
      · exact Nat.le_refl _
      · split
        · exact unmatched_le_foldl_apply limits line.index (s, { nesting := s.depth }) _
        · split
          · obtain ⟨diagnostics, hnoting⟩ := exists_noting s line (statementAt limits line rest)
            rw [hnoting]
            exact unmatched_le_apply limits line.index
              ({ s with diagnostics := diagnostics }, { nesting := s.depth }) _
          · exact Nat.le_refl _

theorem unmatched_le_stateAfter (limits : Limits) (pending head : Nat) (s : BlockScan)
    (lines : List OwnedLine) :
    s.unmatched ≤ (stateAfter limits pending head s lines).unmatched := by
  induction lines generalizing pending head s with
  | nil => exact Nat.le_refl _
  | cons line rest ih =>
      exact Nat.le_trans (unmatched_le_step limits pending head s line rest) (ih _ _ _)

/-- A role acts alike in both walks, if the one without the ceiling fits after it. -/
theorem limited_apply (h : Limited limits'.maxNestingDepth u s)
    (hsound : Sound limit n u.arena u.stack) (index : Nat) (role : Role) (o o' : Outline)
    (hfits : Fits limits.maxNestingDepth (apply limits index (u, o) role).1) :
    Limited limits'.maxNestingDepth (apply limits index (u, o) role).1
      (apply limits' index (s, o') role).1 := by
  have hbefore : Fits limits.maxNestingDepth u :=
    hfits.before (later_move (move_apply limits index (u, o) role) hsound)
      (unmatched_le_apply limits index (u, o) role)
  cases role with
  | plain => exact h
  | branch => exact h
  | case =>
      simp only [apply]
      split
      · split <;> exact h
      · split <;> exact h
  | start construct =>
      exact limited_openBlock h hsound (hbefore.room hsound.opened) index construct o o'
  | stop construct =>
      apply limited_closeBlock h hsound.opened index
      -- a closing that fits no block would be counted
      by_contra htop
      have hmissed := hfits.unmatched_eq
      simp [apply, closeBlock, h.overflow_zero, htop] at hmissed

theorem limited_foldl_apply (h : Limited limits'.maxNestingDepth u s)
    (hsound : Sound limits.maxNestingDepth n u.arena u.stack) (roles : List Role) (o o' : Outline)
    (hfits : Fits limits.maxNestingDepth (roles.foldl (apply limits n) (u, o)).1) :
    Limited limits'.maxNestingDepth (roles.foldl (apply limits n) (u, o)).1
      (roles.foldl (apply limits' n) (s, o')).1 := by
  -- from the last role on: what fits after it also fits before it
  induction roles using List.reverseRecOn with
  | nil => exact h
  | append_singleton roles role ih =>
      have hmoves := moves_foldl_apply limits n (u, o) roles
      have hsound' := sound_moves hmoves hsound
      rw [List.foldl_append, List.foldl_cons, List.foldl_nil] at hfits ⊢
      rw [List.foldl_append, List.foldl_cons, List.foldl_nil]
      refine limited_apply (ih ?_) hsound' n role _ _ hfits
      exact hfits.before (later_move (move_apply limits n _ role) hsound')
        (unmatched_le_apply limits n _ role)

theorem limited_noting (h : Limited limit u s) (line : OwnedLine) (statement : LogicalLine) :
    Limited limit (u.noting line statement) (s.noting line statement) := by
  obtain ⟨diagnostics, hnoting⟩ := exists_noting u line statement
  obtain ⟨diagnostics', hnoting'⟩ := exists_noting s line statement
  rw [hnoting, hnoting']
  exact ⟨h.cutOff, h.overflow_eq, h.unmatched_eq, h.overflow_zero⟩

/-- A line acts alike in both walks. -/
theorem limited_step (hloops : limits'.maxLoopIterations = limits.maxLoopIterations)
    (h : Limited limits'.maxNestingDepth u s) (pending head : Nat) {line : OwnedLine}
    (rest : List OwnedLine)
    (hsound : Sound limits.maxNestingDepth line.index u.arena u.stack)
    (hfits : Fits limits.maxNestingDepth (step limits pending head u line rest).state) :
    Limited limits'.maxNestingDepth (step limits pending head u line rest).state
        (step limits' pending head s line rest).state ∧
      (step limits' pending head s line rest).pending =
        (step limits pending head u line rest).pending ∧
      (step limits' pending head s line rest).head =
        (step limits pending head u line rest).head := by
  cases pending with
  | succ pending => exact ⟨h, rfl, rfl⟩
  | zero =>
      have hstatement : statementAt limits' line rest = statementAt limits line rest := by
        rw [statementAt, hloops, statementAt]
      simp only [step] at hfits ⊢
      rw [hstatement]
      by_cases hfrozen : line.frozen = true
      · simp only [hfrozen, if_true] at hfits ⊢
        exact ⟨h, trivial, trivial⟩
      by_cases hmarker : line.isMarker = true
      · simp only [hfrozen, hmarker, Bool.false_eq_true, if_false, if_true] at hfits ⊢
        exact ⟨limited_foldl_apply h hsound _ _ _ hfits, trivial, trivial⟩
      by_cases hcode : line.isCode = true
      · simp only [hfrozen, hmarker, hcode, Bool.false_eq_true, if_false, if_true] at hfits ⊢
        have hnoted : Sound limits.maxNestingDepth line.index
            (u.noting line (statementAt limits line rest)).arena
            (u.noting line (statementAt limits line rest)).stack := by
          obtain ⟨diagnostics, hnoting⟩ := exists_noting u line (statementAt limits line rest)
          rw [hnoting]
          exact hsound
        exact ⟨limited_apply (limited_noting h line _) hnoted line.index _ _ _ hfits, trivial,
          trivial⟩
      · simp only [hfrozen, hmarker, hcode, Bool.false_eq_true, if_false]
        exact ⟨h, trivial, trivial⟩

theorem nesting_step_eq (limits : Limits) (pending head : Nat) (s : BlockScan)
    (line : OwnedLine) (rest : List OwnedLine) :
    (step limits pending head s line rest).outline.nesting =
      if pending = 0 ∧ line.frozen = true then 0 else s.depth := by
  by_cases hfrozen : line.frozen = true
  · cases pending with
    | zero => simp [step, hfrozen]
    | succ pending => simp [step]
  · rw [nesting_step limits pending head s (by simpa using hfrozen), if_neg fun h => hfrozen h.2]

/-- Both walks over the same lines: below the ceiling, every line is nested as deep as in the
other walk, up to the ceiling. -/
theorem limited_stateAfter (hloops : limits'.maxLoopIterations = limits.maxLoopIterations)
    (h : Limited limits'.maxNestingDepth u s) (pending head : Nat) {lines : List OwnedLine}
    (hlines : Numbered n lines) (hsound : Sound limits.maxNestingDepth n u.arena u.stack)
    (hfits : Fits limits.maxNestingDepth (stateAfter limits pending head u lines)) :
    Limited limits'.maxNestingDepth (stateAfter limits pending head u lines)
        (stateAfter limits' pending head s lines) ∧
      (outlines limits' pending head s lines).map (·.nesting) =
        (outlines limits pending head u lines).map (min limits'.maxNestingDepth ·.nesting) := by
  induction lines generalizing n pending head u s with
  | nil => exact ⟨h, rfl⟩
  | cons line rest ih =>
      have hmoves := moves_step limits pending head u line rest
      rw [hlines.head] at hmoves
      have hnext := sound_moves hmoves hsound
      have hafter : Fits limits.maxNestingDepth (step limits pending head u line rest).state :=
        hfits.before (later_stateAfter _ _ hlines.tail hnext) (unmatched_le_stateAfter ..)
      obtain ⟨hstate, hpending, hhead⟩ := limited_step hloops h pending head rest
        (hlines.head.symm ▸ hsound) hafter
      obtain ⟨hlast, hnestings⟩ := ih hstate _ _ hlines.tail hnext hfits
      refine ⟨?_, ?_⟩
      · rw [stateAfter, stateAfter, hpending, hhead]
        exact hlast
      · rw [outlines, outlines, List.map_cons, List.map_cons, hpending, hhead, hnestings,
          nesting_step_eq, nesting_step_eq, h.depth_eq hsound.opened]
        split
        · rw [Nat.min_zero]
        · rfl

end

end BlockScan

/-! ## The end of the document -/

open Block BlockScan

theorem map_foldl_modify {α β : Type} {m : α → β} {f : α → α} {g : β → β}
    (h : ∀ a, m (f a) = g (m a)) (numbers : List Nat) (xs : Array α) :
    (numbers.foldl (fun xs k => xs.modify k f) xs).map m =
      numbers.foldl (fun ys k => ys.modify k g) (xs.map m) := by
  induction numbers generalizing xs with
  | nil => rfl
  | cons number numbers ih => rw [List.foldl_cons, List.foldl_cons, ih, map_modify h]

theorem below_foldl_modify {ceiling : Nat} {f : Block → Block} (hf : KeepsPlace f)
    (numbers : List Nat) (blocks : Array Block) :
    below ceiling (numbers.foldl (fun blocks k => blocks.modify k f) blocks) =
      ((numbers.filter (isBelow ceiling blocks)).map (rank ceiling blocks)).foldl
        (fun blocks k => blocks.modify k f) (below ceiling blocks) := by
  induction numbers generalizing blocks with
  | nil => rfl
  | cons number numbers ih =>
      rw [List.foldl_cons, ih, isBelow_modify hf, rank_modify hf, below_modify hf]
      by_cases hnumber : isBelow ceiling blocks number = true
      · rw [if_pos hnumber, List.filter_cons_of_pos hnumber, List.map_cons, List.foldl_cons]
      · rw [if_neg hnumber, List.filter_cons_of_neg hnumber]

theorem below_map_bare (ceiling : Nat) (blocks : Array Block) :
    below ceiling (blocks.map bare) = below ceiling blocks := by
  have hrank : rank ceiling (blocks.map bare) = rank ceiling blocks := by
    funext k
    rw [rank, Array.toList_map, ← List.map_take, List.countP_map]
    rfl
  rw [below, hrank, Array.filter_map, Array.map_map]
  rfl

/-- A block that lasts to this line. -/
def Block.endingAt (line : Nat) (b : Block) : Block := { b with endLine := line }

theorem map_bare_blocks (limits : Limits) (doc : Document) :
    (doc.blockStructure limits).blocks.map bare =
      (doc.lastState limits).stack.reverse.foldl
        (fun blocks k => blocks.modify k (endingAt (doc.lines.length - 1)))
        (doc.lastState limits).arena := by
  have hblocks : (doc.blockStructure limits).blocks =
      (doc.lastState limits).stack.reverse.foldl
        (fun blocks k => blocks.modify k (endingAt (doc.lines.length - 1)))
        (doc.lastState limits).blocks := by
    simp only [Document.blockStructure, walk_snd, stack, List.reverse_reverse,
      Array.foldl_toList, Document.lastState]
    rfl
  rw [hblocks, arena]
  exact map_foldl_modify (m := bare) (g := endingAt _) (fun _ => rfl) _ _

theorem keepsPlace_endingAt (line : Nat) : KeepsPlace (endingAt line) :=
  ⟨fun _ => rfl, fun _ _ => rfl⟩

section

variable {limits limits' : Limits} {doc : Document}

theorem Document.fits_lastState (hlines : Numbered 0 doc.lines)
    (hdepth : (doc.blockStructure limits).statistics.maxDepth < limits.maxNestingDepth)
    (hmatched : (doc.blockStructure limits).statistics.unmatchedEnds = 0) :
    Fits limits.maxNestingDepth (doc.lastState limits) where
  pos := Nat.zero_lt_of_lt hdepth
  depth_lt := by
    intro a ha
    obtain ⟨k, hk⟩ := Array.getElem?_of_mem ha
    obtain ⟨b, hb, hfinished⟩ := exists_finished hk
    have hle := (counted_blockStructure limits hlines).depth_le b (Array.mem_of_getElem? hb)
    rw [hfinished.depth_eq] at hle
    exact Nat.lt_of_le_of_lt hle hdepth
  unmatched_eq := by
    rw [← hmatched, lastState, ← walk_snd limits 0 0 []]
    rfl

theorem blocks_of_limited
    (h : Limited limits'.maxNestingDepth (doc.lastState limits) (doc.lastState limits')) :
    (doc.blockStructure limits').blocks.map bare =
      below limits'.maxNestingDepth (doc.blockStructure limits).blocks := by
  rw [← below_map_bare, map_bare_blocks, map_bare_blocks,
    below_foldl_modify (keepsPlace_endingAt _), h.cutOff.blocks_eq, h.cutOff.stack_eq,
    ← List.map_reverse, List.filter_reverse]

theorem cut_off_blockStructure (hlines : Numbered 0 doc.lines)
    (hloops : limits'.maxLoopIterations = limits.maxLoopIterations)
    (hdepth : (doc.blockStructure limits).statistics.maxDepth < limits.maxNestingDepth)
    (hmatched : (doc.blockStructure limits).statistics.unmatchedEnds = 0) :
    (doc.blockStructure limits').blocks.map bare =
        below limits'.maxNestingDepth (doc.blockStructure limits).blocks ∧
      (doc.blockStructure limits').outlines.map (·.nesting) =
        (doc.blockStructure limits).outlines.map (min limits'.maxNestingDepth ·.nesting) ∧
      (doc.blockStructure limits').statistics.unmatchedEnds = 0 := by
  obtain ⟨hlimited, hnestings⟩ := limited_stateAfter hloops (limited_initial _) 0 0 hlines
    (sound_initial _) (Document.fits_lastState hlines hdepth hmatched)
  refine ⟨blocks_of_limited hlimited, ?_, ?_⟩
  · rw [outlines_blockStructure, outlines_blockStructure]
    exact hnestings
  · rw [← hlimited.unmatched_eq, ← walk_snd limits' 0 0 []]
    rfl

end

/-! ## The depth of a text -/

theorem Block.Forest.depth_le {limit last k : Nat} {blocks : Array Block}
    (h : Forest limit last blocks) {b : Block} (hb : blocks[k]? = some b) : b.depth ≤ k := by
  induction k using Nat.strong_induction_on generalizing b with
  | _ k ih =>
      cases hparent : b.parent with
      | none => rw [h.root k b hb hparent]; exact Nat.zero_le k
      | some p =>
          obtain ⟨hlt, q, hq, hdepth, -⟩ := h.parent k b p hb hparent
          have := ih p hlt hq
          omega

/-- No text is nested deeper than it is long. -/
theorem maxDepth_le_length (limits : Limits) (text : List Char) (frozenFrom : Nat) :
    (((Document.ofText text).freezeFrom frozenFrom).blockStructure limits).statistics.maxDepth ≤
      text.length := by
  have hlines := Document.numbered_frozen text frozenFrom
  have howned := Document.owned_frozen text frozenFrom
  generalize (Document.ofText text).freezeFrom frozenFrom = doc at hlines howned
  have hcounted := counted_blockStructure limits hlines
  have hevents := eventCount_outlines limits 0 0 {} howned.length_fragments
  have hcontents := howned.length_contents
  rw [Line.join_pieces] at hcontents
  rw [← outlines_blockStructure] at hevents
  have hopenings : openings (doc.blockStructure limits).outlines ≤
      eventCount (doc.blockStructure limits).outlines := List.countP_le_length
  have hsize := hcounted.total_eq_size.symm.trans hcounted.total_eq_openings
  have hdeepest : (doc.blockStructure limits).statistics.maxDepth ≤
      (doc.blockStructure limits).blocks.size := by
    rcases hcounted.maxDepth_mem with ⟨-, hzero⟩ | ⟨b, hb, hdepth⟩
    · rw [hzero]
      exact Nat.zero_le _
    · obtain ⟨k, hk⟩ := Array.getElem?_of_mem hb
      have := (forest_blocks limits hlines).depth_le hk
      have := (Array.getElem?_eq_some_iff.mp hk).1
      omega
  omega

/-- The nesting ceiling cuts off the blocks that are too deep, and no more. The blocks of a text
that stays below one ceiling, where every closing fits, are compared with those under any other:
these are the blocks less deep than that ceiling, numbered anew, every line is nested as deep as
before up to the ceiling, and every closing still fits. A ceiling above the length of the text is
never met. -/
theorem ceiling_cuts_off_deep_blocks (limits : Limits) (text : List Char)
    (frozenFrom high ceiling : Nat) :
    let doc := (Document.ofText text).freezeFrom frozenFrom
    let all := doc.blockStructure { limits with maxNestingDepth := high }
    let found := doc.blockStructure { limits with maxNestingDepth := ceiling }
    (text.length < high → all.statistics.maxDepth < high) ∧
    (all.statistics.maxDepth < high → all.statistics.unmatchedEnds = 0 →
      found.blocks.map bare = below ceiling all.blocks ∧
      found.outlines.map (·.nesting) = all.outlines.map (min ceiling ·.nesting) ∧
      found.statistics.unmatchedEnds = 0) := by
  intro doc all found
  refine ⟨fun hlength => Nat.lt_of_le_of_lt (maxDepth_le_length _ text frozenFrom) hlength, ?_⟩
  intro hdepth hmatched
  exact cut_off_blockStructure (Document.numbered_frozen text frozenFrom) rfl hdepth hmatched

/-- The theorem at a page that goes above the ceiling twice and leaves a block open there. -/
theorem ceiling_cuts_off_deep_blocks_page :
    ∃ doc, doc = (Document.ofText
        "<%\nif a then\ndo\nfor each b in c\nnext\nloop\nend if\nsub f\ndo".toList).freezeFrom 9 ∧
      (doc.blockStructure { maxNestingDepth := 99 }).statistics.unmatchedEnds = 0 ∧
      (doc.blockStructure { maxNestingDepth := 1 }).blocks.map bare =
        below 1 (doc.blockStructure { maxNestingDepth := 99 }).blocks ∧
      (below 1 (doc.blockStructure { maxNestingDepth := 99 }).blocks).map (·.startLine) = #[1, 7] ∧
      (doc.blockStructure { maxNestingDepth := 1 }).outlines.map (·.nesting) =
        [0, 0, 1, 1, 1, 1, 1, 0, 1] ∧
      (doc.blockStructure { maxNestingDepth := 1 }).statistics.unmatchedEnds = 0 := by
  obtain ⟨hunmet, hcut⟩ := ceiling_cuts_off_deep_blocks {}
    "<%\nif a then\ndo\nfor each b in c\nnext\nloop\nend if\nsub f\ndo".toList 9 99 1
  obtain ⟨hblocks, hnestings, hmatched⟩ := hcut (hunmet (by decide +kernel)) (by decide +kernel)
  refine ⟨_, rfl, by decide +kernel, hblocks, by decide +kernel, ?_, hmatched⟩
  rw [hnestings]
  decide +kernel

end ClassicAsp
