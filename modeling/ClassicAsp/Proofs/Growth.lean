import ClassicAsp.Proofs.Forest

/-! # Growth of the blocks

Blocks are only added, and of a block only the end changes, once. So what was open before a line
can be read off the blocks of the whole document: the blocks that start above the line and do not
end above it. -/

namespace ClassicAsp

open Block

/-- A block at two times: its end may differ. -/
structure Block.SameOrigin (a b : Block) : Prop where
  construct_eq : b.construct = a.construct
  startLine_eq : b.startLine = a.startLine
  depth_eq : b.depth = a.depth
  parent_eq : b.parent = a.parent

theorem Block.SameOrigin.refl (a : Block) : a.SameOrigin a := ⟨rfl, rfl, rfl, rfl⟩

theorem Block.SameOrigin.symm {a b : Block} (h : a.SameOrigin b) : b.SameOrigin a :=
  ⟨h.construct_eq.symm, h.startLine_eq.symm, h.depth_eq.symm, h.parent_eq.symm⟩

theorem Block.SameOrigin.trans {a b c : Block} (hab : a.SameOrigin b) (hbc : b.SameOrigin c) :
    a.SameOrigin c where
  construct_eq := hbc.construct_eq.trans hab.construct_eq
  startLine_eq := hbc.startLine_eq.trans hab.startLine_eq
  depth_eq := hbc.depth_eq.trans hab.depth_eq
  parent_eq := hbc.parent_eq.trans hab.parent_eq

theorem Block.Finished.sameOrigin {last : Nat} {isOpen : Prop} {a b : Block}
    (h : Finished last isOpen a b) : a.SameOrigin b :=
  ⟨h.construct_eq, h.startLine_eq, h.depth_eq, h.parent_eq⟩

namespace BlockScan

/-! ## Later states -/

/-- The state `t` comes after the state `s`, which is one before line `n` or at it. -/
structure Later (n : Nat) (s t : BlockScan) : Prop where
  kept : ∀ (k : Nat) (a : Block), s.arena[k]? = some a →
    ∃ b, t.arena[k]? = some b ∧ a.SameOrigin b
  settled : ∀ (k : Nat) (a : Block), s.arena[k]? = some a → k ∉ s.stack →
    k ∉ t.stack ∧ t.arena[k]? = some a
  left : ∀ k ∈ s.stack, k ∉ t.stack →
    ∃ b, t.arena[k]? = some b ∧ b.closed = true ∧ n ≤ b.endLine
  added : ∀ (k : Nat) (b : Block), t.arena[k]? = some b → s.arena[k]? = none → n ≤ b.startLine

namespace Later

variable {n m : Nat} {s t u : BlockScan}

theorem of_eq (harena : t.arena = s.arena) (hstack : t.stack = s.stack) : Later n s t where
  kept := fun k a ha => ⟨a, by rw [harena, ha], .refl a⟩
  settled := fun k a ha hk => ⟨by rwa [hstack], by rw [harena, ha]⟩
  left := fun k hk hnot => absurd (hstack ▸ hk) hnot
  added := by
    intro k b hb hnone
    rw [← harena, hb] at hnone
    cases hnone

theorem trans (hst : Later n s t) (htu : Later m t u) (hnm : n ≤ m) : Later n s u where
  kept := by
    intro k a ha
    obtain ⟨b, hb, hab⟩ := hst.kept k a ha
    obtain ⟨c, hc, hbc⟩ := htu.kept k b hb
    exact ⟨c, hc, hab.trans hbc⟩
  settled := by
    intro k a ha hk
    obtain ⟨hk', ha'⟩ := hst.settled k a ha hk
    exact htu.settled k a ha' hk'
  left := by
    intro k hk hnot
    by_cases hkt : k ∈ t.stack
    · obtain ⟨b, hb, hclosed, hle⟩ := htu.left k hkt hnot
      exact ⟨b, hb, hclosed, Nat.le_trans hnm hle⟩
    · obtain ⟨b, hb, hclosed, hle⟩ := hst.left k hk hkt
      exact ⟨b, (htu.settled k b hb hkt).2, hclosed, hle⟩
  added := by
    intro k b hb hnone
    cases ht : t.arena[k]? with
    | none => exact Nat.le_trans hnm (htu.added k b hb ht)
    | some a =>
        obtain ⟨c, hc, hac⟩ := htu.kept k a ht
        rw [hb] at hc
        obtain rfl := Option.some.inj hc
        rw [hac.startLine_eq]
        exact hst.added k a ht hnone

end Later

variable {limits : Limits}

theorem later_move {n m limit : Nat} {x y : BlockScan × Array BlockEvent}
    (h : Move limits n x y) (hsound : Sound limit m x.1.arena x.1.stack) : Later n x.1 y.1 := by
  cases h with
  | @stay s t events hblocks hstack => exact .of_eq (by rw [arena, hblocks]; rfl) hstack
  | @enter s t events construct hroom hblocks hstack =>
      have harena := arena_enter hblocks
      have hold : ∀ (k : Nat) (a : Block), s.arena[k]? = some a →
          k < s.blocks.size ∧ t.arena[k]? = some a := by
        intro k a ha
        have hk := (Array.getElem?_eq_some_iff.mp ha).1
        rw [size_arena] at hk
        rw [harena, Array.getElem?_push, size_arena, if_neg (Nat.ne_of_lt hk)]
        exact ⟨hk, ha⟩
      constructor
      · exact fun k a ha => ⟨a, (hold k a ha).2, .refl a⟩
      · intro k a ha hk
        refine ⟨?_, (hold k a ha).2⟩
        rw [hstack, List.mem_cons, not_or]
        exact ⟨Nat.ne_of_lt (hold k a ha).1, hk⟩
      · intro k hk hnot
        rw [hstack] at hnot
        exact absurd (List.mem_cons_of_mem _ hk) hnot
      · intro k b hb hnone
        rw [harena] at hb
        rcases getElem?_push_cases hb with ⟨-, rfl⟩ | ⟨-, hb⟩
        · exact Nat.le_refl n
        · simp only [hb] at hnone
          cases hnone
  | @leave s t events number hstack hblocks =>
      have harena := arena_leave hblocks
      constructor
      · intro k a ha
        by_cases hk : number = k
        · refine ⟨closedAt n a, ?_, rfl, rfl, rfl, rfl⟩
          rw [harena, Array.getElem?_modify, if_pos hk, ha, Option.map_some]
        · exact ⟨a, by rw [harena, Array.getElem?_modify, if_neg hk, ha], .refl a⟩
      · intro k a ha hk
        simp only [hstack, List.mem_cons, not_or] at hk
        refine ⟨hk.2, ?_⟩
        rw [harena, Array.getElem?_modify, if_neg (Ne.symm hk.1)]
        exact ha
      · intro k hk hnot
        simp only [hstack, List.mem_cons] at hk
        obtain rfl : k = number := hk.resolve_right hnot
        obtain ⟨a, ha, -⟩ := hsound.opened.exists_block (k := k) (by simp [hstack])
        refine ⟨closedAt n a, ?_, rfl, Nat.le_refl n⟩
        rw [harena, Array.getElem?_modify, if_pos rfl, ha, Option.map_some]
      · intro k b hb hnone
        rw [harena] at hb
        rcases getElem?_modify_cases hb with ⟨-, c, hc, -⟩ | ⟨-, hb⟩
        · simp only [hc] at hnone
          cases hnone
        · simp only [hb] at hnone
          cases hnone

theorem later_moves {n : Nat} {x y : BlockScan × Array BlockEvent} (h : Moves limits n x y)
    (hsound : Sound limits.maxNestingDepth n x.1.arena x.1.stack) : Later n x.1 y.1 := by
  induction h with
  | refl => exact .of_eq rfl rfl
  | tail hmoves hmove ih =>
      exact ih.trans (later_move hmove (sound_moves hmoves hsound)) (Nat.le_refl n)

theorem later_stateAfter {n : Nat} (pending head : Nat) {s : BlockScan} {lines : List OwnedLine}
    (hlines : Numbered n lines) (hsound : Sound limits.maxNestingDepth n s.arena s.stack) :
    Later n s (stateAfter limits pending head s lines) := by
  induction lines generalizing n pending head s with
  | nil => exact .of_eq rfl rfl
  | cons line rest ih =>
      have hmoves := moves_step limits pending head s line rest
      rw [hlines.head] at hmoves
      exact (later_moves hmoves hsound).trans (ih _ _ hlines.tail (sound_moves hmoves hsound))
        (Nat.le_succ n)

/-- The last state comes after the states before and after each line. -/
theorem later_passages {n : Nat} (pending head : Nat) {s : BlockScan} {lines : List OwnedLine}
    (hlines : Numbered n lines) (hsound : Sound limits.maxNestingDepth n s.arena s.stack) :
    ∀ p ∈ passages limits pending head s lines,
      Later p.line.index p.before (stateAfter limits pending head s lines) ∧
      Later (p.line.index + 1) (p.step limits).state
        (stateAfter limits pending head s lines) := by
  induction lines generalizing n pending head s with
  | nil => simp [passages]
  | cons line rest ih =>
      have hmoves := moves_step limits pending head s line rest
      rw [hlines.head] at hmoves
      have hnext := sound_moves hmoves hsound
      intro p hp
      rcases List.mem_cons.mp hp with rfl | hp
      · refine ⟨?_, ?_⟩
        · simp only [hlines.head]
          exact later_stateAfter pending head hlines hsound
        · simp only [hlines.head]
          exact later_stateAfter _ _ hlines.tail hnext
      · exact ih _ _ hlines.tail hnext p hp

end BlockScan

/-! ## The blocks around a line -/

open BlockScan

/-- The blocks that a line is in: they start above it and do not end above it. The innermost one
comes last. -/
def Block.around (blocks : Array Block) (i : Nat) : List Block :=
  blocks.toList.filter fun b => b.startLine < i && i ≤ b.endLine

section

variable {limits : Limits} {doc : Document} {p : Passage}

theorem index_lt_of_mem_passages (hlines : Numbered 0 doc.lines)
    (hp : p ∈ passages limits 0 0 {} doc.lines) : p.line.index < doc.lines.length := by
  have hmem : p.line.index ∈ doc.lines.map (·.index) := by
    rw [← map_line_passages limits 0 0 {} doc.lines, List.map_map]
    exact List.mem_map_of_mem hp
  rw [hlines, List.mem_range'_1] at hmem
  omega

theorem later_before (hlines : Numbered 0 doc.lines)
    (hp : p ∈ passages limits 0 0 {} doc.lines) :
    Later p.line.index p.before (doc.lastState limits) :=
  (later_passages 0 0 hlines (sound_initial _) p hp).1

theorem later_after (hlines : Numbered 0 doc.lines)
    (hp : p ∈ passages limits 0 0 {} doc.lines) :
    Later (p.line.index + 1) (p.step limits).state (doc.lastState limits) :=
  (later_passages 0 0 hlines (sound_initial _) p hp).2

/-- A block is open before a line if and only if the line is in it. -/
theorem mem_stack_before_iff (hlines : Numbered 0 doc.lines)
    (hp : p ∈ passages limits 0 0 {} doc.lines) (k : Nat) :
    k ∈ p.before.stack ↔ ∃ b, (doc.blockStructure limits).blocks[k]? = some b ∧
      (b.startLine < p.line.index && p.line.index ≤ b.endLine) = true := by
  have hsound := (sound_passages hlines).1 p hp
  have hlater := later_before hlines hp
  simp only [Bool.and_eq_true, decide_eq_true_eq]
  constructor
  · intro hk
    obtain ⟨a, ha, -⟩ := hsound.opened.exists_block hk
    obtain ⟨a', ha', horigin⟩ := hlater.kept k a ha
    obtain ⟨b, hb, hfinished⟩ := exists_finished ha'
    have hstart := hsound.lines k a ha
    refine ⟨b, hb, ?_, ?_⟩
    · rw [hfinished.startLine_eq, horigin.startLine_eq]
      omega
    · by_cases hopen : k ∈ (doc.lastState limits).stack
      · rw [hfinished.endLine_open hopen]
        exact Nat.le_sub_one_of_lt (index_lt_of_mem_passages hlines hp)
      · obtain ⟨c, hc, -, hle⟩ := hlater.left k hk hopen
        rw [ha'] at hc
        obtain rfl := Option.some.inj hc
        rw [hfinished.endLine_closed hopen]
        exact hle
  · rintro ⟨b, hb, hstart, hend⟩
    by_contra hk
    obtain ⟨a', ha', hfinished⟩ := exists_found hb
    cases ha : p.before.arena[k]? with
    | none =>
        have := hlater.added k a' ha' ha
        rw [← hfinished.startLine_eq] at this
        omega
    | some a =>
        obtain ⟨hnot, hsame⟩ := hlater.settled k a ha hk
        rw [ha'] at hsame
        obtain rfl := Option.some.inj hsame
        have := (hsound.lines k a' ha).2
        rw [← hfinished.endLine_closed hnot] at this
        omega

/-- The blocks around a line are those that are open before it. -/
theorem around_eq_filterMap (hlines : Numbered 0 doc.lines)
    (hp : p ∈ passages limits 0 0 {} doc.lines) :
    around (doc.blockStructure limits).blocks p.line.index =
      p.before.stack.reverse.filterMap ((doc.blockStructure limits).blocks[·]?) :=
  filter_eq_filterMap ((sound_passages hlines).1 p hp).opened.pairwise
    (mem_stack_before_iff hlines hp)

end

end ClassicAsp
