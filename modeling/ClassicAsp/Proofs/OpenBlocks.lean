import ClassicAsp.Proofs.Moves

/-! # Open and closed blocks

The blocks that the walk has found before a line: those on the stack are open and enclose each
other, the others are closed, and a block lies within its parent and below the blocks beside it.
Every move keeps this. -/

namespace ClassicAsp

/-! ## Blocks without their children -/

namespace Block

/-- A block without its children. -/
def bare (b : Block) : Block := { b with children := #[] }

/-- The parent of the block with this index. -/
def parentOf? (blocks : Array Block) (k : Nat) : Option Nat := blocks[k]?.bind (·.parent)

/-- The blocks by index whose parent is the block with this index. -/
def childrenOf (blocks : Array Block) (k : Nat) : List Nat :=
  (List.range blocks.size).filter fun j => parentOf? blocks j == some k

theorem parentOf?_map_bare (blocks : Array Block) (k : Nat) :
    parentOf? (blocks.map bare) k = parentOf? blocks k := by
  rw [parentOf?, parentOf?, Array.getElem?_map, Option.bind_map]
  rfl

theorem childrenOf_map_bare (blocks : Array Block) (k : Nat) :
    childrenOf (blocks.map bare) k = childrenOf blocks k := by
  simp only [childrenOf, parentOf?_map_bare, Array.size_map]

/-- A change of one block that keeps its parent keeps the children of all blocks. -/
theorem childrenOf_modify {f : Block → Block} (hf : ∀ b, (f b).parent = b.parent)
    (blocks : Array Block) (i k : Nat) :
    childrenOf (blocks.modify i f) k = childrenOf blocks k := by
  have hparent : ∀ j, parentOf? (blocks.modify i f) j = parentOf? blocks j := by
    intro j
    rw [parentOf?, parentOf?, Array.getElem?_modify]
    split
    · rw [Option.bind_map]
      exact congrArg (blocks[j]?.bind ·) (funext hf)
    · rfl
  simp only [childrenOf, hparent, Array.size_modify]

/-- A block that is added becomes the last child of its parent. -/
theorem childrenOf_push (blocks : Array Block) (b : Block) (k : Nat) :
    childrenOf (blocks.push b) k =
      childrenOf blocks k ++ if b.parent = some k then [blocks.size] else [] := by
  have hold : ∀ j ∈ List.range blocks.size,
      (parentOf? (blocks.push b) j == some k) = (parentOf? blocks j == some k) := by
    intro j hj
    rw [List.mem_range] at hj
    rw [parentOf?, parentOf?, Array.getElem?_push, if_neg (by omega)]
  have hnew : parentOf? (blocks.push b) blocks.size = b.parent := by
    rw [parentOf?, Array.getElem?_push, if_pos rfl, Option.bind_some]
  rw [childrenOf, Array.size_push, List.range_succ, List.filter_append, List.filter_congr hold,
    List.filter_singleton, hnew]
  by_cases hk : b.parent = some k
  · simp [hk, childrenOf]
  · rw [if_neg hk, beq_eq_false_iff_ne.mpr hk]
    rfl

theorem getElem?_modify_cases {blocks : Array Block} {f : Block → Block} {i k : Nat} {c : Block}
    (h : (blocks.modify i f)[k]? = some c) :
    (i = k ∧ ∃ b, blocks[k]? = some b ∧ c = f b) ∨ (i ≠ k ∧ blocks[k]? = some c) := by
  rw [Array.getElem?_modify] at h
  split at h
  · next hik =>
      obtain ⟨b, hb, rfl⟩ := Option.map_eq_some_iff.mp h
      exact .inl ⟨hik, b, hb, rfl⟩
  · next hik => exact .inr ⟨hik, h⟩

theorem getElem?_push_cases {blocks : Array Block} {b c : Block} {k : Nat}
    (h : (blocks.push b)[k]? = some c) :
    (k = blocks.size ∧ c = b) ∨ (k < blocks.size ∧ blocks[k]? = some c) := by
  rw [Array.getElem?_push] at h
  split at h
  · next hk => exact .inl ⟨hk, (Option.some.inj h).symm⟩
  · exact .inr ⟨(Array.getElem?_eq_some_iff.mp h).1, h⟩

end Block

namespace BlockScan

open Block

/-- The blocks found so far, without their children. -/
def arena (s : BlockScan) : Array Block := s.blocks.map bare

@[simp] theorem size_arena (s : BlockScan) : s.arena.size = s.blocks.size := by simp [arena]

theorem topKind?_eq_arena (s : BlockScan) :
    s.topKind? = (s.stack.head?.bind (s.arena[·]?)).map Block.kind := by
  rw [topKind?, back?_opened]
  cases s.stack.head? with
  | none => rfl
  | some k =>
      rw [Option.bind_some, Option.bind_some, arena, Array.getElem?_map, Option.map_map]
      rfl

theorem map_modify {α β : Type} {m : α → β} {f : α → α} {g : β → β}
    (h : ∀ a, m (f a) = g (m a)) (xs : Array α) (i : Nat) :
    (xs.modify i f).map m = (xs.map m).modify i g := by
  apply Array.ext_getElem?
  intro k
  rw [Array.getElem?_map, Array.getElem?_modify, Array.getElem?_modify, Array.getElem?_map]
  split
  · rw [Option.map_map, Option.map_map]
    exact congrArg (xs[k]?.map ·) (funext h)
  · rfl

theorem map_bare_adopt (blocks : Array Block) (parent : Option Nat) (number : Nat) :
    (adopt blocks parent number).map bare = blocks.map bare := by
  apply Array.ext_getElem?
  intro k
  rw [Array.getElem?_map, getElem?_adopt, Option.map_map, Array.getElem?_map]
  refine congrArg (blocks[k]?.map ·) (funext fun b => ?_)
  simp only [Function.comp]
  split <;> rfl

/-- What closes a block at the line with this index. -/
def closedAt (index : Nat) (b : Block) : Block := { b with endLine := index, closed := true }

theorem arena_enter {s t : BlockScan} {index : Nat} {construct : Construct}
    (h : t.blocks = (adopt s.blocks s.stack.head? s.blocks.size).push
      (s.newBlock index construct)) :
    t.arena = s.arena.push (s.newBlock index construct) := by
  rw [arena, h, Array.map_push, map_bare_adopt]
  rfl

theorem arena_leave {s t : BlockScan} {index number : Nat}
    (h : t.blocks = s.blocks.modify number fun b => { b with endLine := index, closed := true }) :
    t.arena = s.arena.modify number (closedAt index) := by
  rw [arena, h]
  exact map_modify (m := bare) (g := closedAt index) (fun _ => rfl) s.blocks number

/-! ## Open blocks -/

/-- Open blocks by index, the innermost first: each is a child of the next one, as deep as there
are blocks around it, and comes after them. -/
inductive OpenStack (blocks : Array Block) : List Nat → Prop where
  | nil : OpenStack blocks []
  | cons {number block rest} (hblock : blocks[number]? = some block)
      (hparent : block.parent = rest.head?) (hdepth : block.depth = rest.length)
      (hclosed : block.closed = false) (hrest : ∀ k ∈ rest, k < number) :
      OpenStack blocks rest → OpenStack blocks (number :: rest)

namespace OpenStack

variable {blocks blocks' : Array Block} {stack : List Nat}

theorem imp (h : OpenStack blocks stack)
    (hkept : ∀ k ∈ stack, ∀ b, blocks[k]? = some b → blocks'[k]? = some b) :
    OpenStack blocks' stack := by
  induction h with
  | nil => exact .nil
  | @cons number block rest hblock hparent hdepth hclosed hrest _ ih =>
      refine .cons (hkept number (by simp) block hblock) hparent hdepth hclosed hrest (ih ?_)
      exact fun k hk => hkept k (by simp [hk])

theorem exists_block (h : OpenStack blocks stack) {k : Nat} (hk : k ∈ stack) :
    ∃ b, blocks[k]? = some b ∧ b.closed = false := by
  induction h with
  | nil => cases hk
  | @cons number block rest hblock _ _ hclosed _ _ ih =>
      rcases List.mem_cons.mp hk with rfl | hk
      · exact ⟨block, hblock, hclosed⟩
      · exact ih hk

theorem lt_size (h : OpenStack blocks stack) {k : Nat} (hk : k ∈ stack) : k < blocks.size := by
  obtain ⟨b, hb, -⟩ := h.exists_block hk
  exact (Array.getElem?_eq_some_iff.mp hb).1

theorem closed_eq_false (h : OpenStack blocks stack) {k : Nat} (hk : k ∈ stack) {b : Block}
    (hb : blocks[k]? = some b) : b.closed = false := by
  obtain ⟨c, hc, hclosed⟩ := h.exists_block hk
  rw [hb] at hc
  exact Option.some.inj hc ▸ hclosed

theorem pairwise (h : OpenStack blocks stack) : stack.Pairwise (· > ·) := by
  induction h with
  | nil => exact .nil
  | cons _ _ _ _ hrest _ ih => exact .cons hrest ih

theorem le_head {number : Nat} {rest : List Nat} (h : OpenStack blocks (number :: rest)) :
    ∀ k ∈ number :: rest, k ≤ number := by
  cases h with
  | cons _ _ _ _ hrest _ =>
      intro k hk
      rcases List.mem_cons.mp hk with rfl | hk
      · exact Nat.le_refl k
      · exact Nat.le_of_lt (hrest k hk)

end OpenStack

/-! ## What every state keeps -/

/-- A block and its parent: the parent comes first, starts no later, and is closed only after the
block. -/
structure Within (k : Nat) (b : Block) (p : Nat) (q : Block) : Prop where
  parent_lt : p < k
  depth_eq : b.depth = q.depth + 1
  start_le : q.startLine ≤ b.startLine
  closed_first : q.closed = true → b.closed = true ∧ b.endLine ≤ q.endLine

/-- The blocks found in the lines below `n`, with the open ones among them. -/
structure Sound (limit n : Nat) (blocks : Array Block) (stack : List Nat) : Prop where
  opened : OpenStack blocks stack
  closed : ∀ (k : Nat) (b : Block), blocks[k]? = some b → k ∉ stack → b.closed = true
  lines : ∀ (k : Nat) (b : Block), blocks[k]? = some b → b.startLine ≤ b.endLine ∧ b.endLine < n
  depth_lt : ∀ (k : Nat) (b : Block), blocks[k]? = some b → b.depth < limit
  root : ∀ (k : Nat) (b : Block), blocks[k]? = some b → b.parent = none → b.depth = 0
  child : ∀ (k : Nat) (b : Block) (p : Nat), blocks[k]? = some b → b.parent = some p →
    ∃ q, blocks[p]? = some q ∧ Within k b p q
  siblings : ∀ (j k : Nat) (b c : Block), j < k → blocks[j]? = some b → blocks[k]? = some c →
    b.parent = c.parent → b.closed = true ∧ b.endLine ≤ c.startLine

namespace Sound

variable {limit n : Nat} {blocks : Array Block} {stack : List Nat}

theorem empty (limit n : Nat) : Sound limit n #[] [] where
  opened := .nil
  closed := by simp
  lines := by simp
  depth_lt := by simp
  root := by simp
  child := by simp
  siblings := by simp

theorem mono (h : Sound limit n blocks stack) {m : Nat} (hm : n ≤ m) :
    Sound limit m blocks stack :=
  { h with
    lines := fun k b hb => ⟨(h.lines k b hb).1, Nat.lt_of_lt_of_le (h.lines k b hb).2 hm⟩ }

/-- The block that is entered lies in the innermost open block, below all that is closed there. -/
theorem enter (h : Sound limit (n + 1) blocks stack) (construct : Construct)
    (hroom : stack.length < limit) :
    Sound limit (n + 1)
      (blocks.push ⟨construct, n, n, stack.length, stack.head?, #[], false⟩)
      (blocks.size :: stack) where
  opened := by
    refine .cons Array.getElem?_push_size rfl rfl rfl (fun k hk => h.opened.lt_size hk)
      (h.opened.imp ?_)
    intro k hk b hb
    rw [Array.getElem?_push, if_neg (Nat.ne_of_lt (h.opened.lt_size hk)), hb]
  closed := by
    intro k b hb hk
    rcases getElem?_push_cases hb with ⟨rfl, -⟩ | ⟨-, hb⟩
    · exact absurd List.mem_cons_self hk
    · exact h.closed k b hb fun hmem => hk (List.mem_cons_of_mem _ hmem)
  lines := by
    intro k b hb
    rcases getElem?_push_cases hb with ⟨-, rfl⟩ | ⟨-, hb⟩
    · exact ⟨Nat.le_refl n, Nat.lt_succ_self n⟩
    · exact h.lines k b hb
  depth_lt := by
    intro k b hb
    rcases getElem?_push_cases hb with ⟨-, rfl⟩ | ⟨-, hb⟩
    · exact hroom
    · exact h.depth_lt k b hb
  root := by
    intro k b hb hnone
    rcases getElem?_push_cases hb with ⟨-, rfl⟩ | ⟨-, hb⟩
    · rw [List.head?_eq_none_iff.mp hnone]
      rfl
    · exact h.root k b hb hnone
  child := by
    intro k b p hb hp
    rcases getElem?_push_cases hb with ⟨rfl, rfl⟩ | ⟨hk, hb⟩
    · have hstack := h.opened
      obtain ⟨rest, rfl⟩ := List.head?_eq_some_iff.mp hp
      cases hstack with
      | @cons _ q _ hq _ hdepth hclosed _ _ =>
          have hlt := (Array.getElem?_eq_some_iff.mp hq).1
          refine ⟨q, ?_, hlt, ?_, ?_, ?_⟩
          · rw [Array.getElem?_push, if_neg (Nat.ne_of_lt hlt), hq]
          · rw [hdepth, List.length_cons]
          · exact Nat.le_trans (h.lines p q hq).1 (Nat.lt_succ_iff.mp (h.lines p q hq).2)
          · rw [hclosed]
            intro hfalse
            cases hfalse
    · obtain ⟨q, hq, hwithin⟩ := h.child k b p hb hp
      refine ⟨q, ?_, hwithin⟩
      have := hwithin.parent_lt
      rw [Array.getElem?_push, if_neg (by omega), hq]
  siblings := by
    intro j k b c hjk hb hc hparent
    rcases getElem?_push_cases hb with ⟨rfl, -⟩ | ⟨hj, hb⟩
    · have := (Array.getElem?_eq_some_iff.mp hc).1
      rw [Array.size_push] at this
      omega
    · rcases getElem?_push_cases hc with ⟨-, rfl⟩ | ⟨hk, hc⟩
      · -- An open block comes after its parent, and none comes after the innermost one.
        have hnot : j ∉ stack := by
          intro hmem
          have hstack := h.opened
          cases hhead : stack with
          | nil => simp [hhead] at hmem
          | cons p rest =>
              rw [hhead] at hstack hmem hparent
              obtain ⟨q, -, hwithin⟩ := h.child j b p hb hparent
              have := hstack.le_head j hmem
              have := hwithin.parent_lt
              omega
        exact ⟨h.closed j b hb hnot, Nat.lt_succ_iff.mp (h.lines j b hb).2⟩
      · exact h.siblings j k b c hjk hb hc hparent

/-- The innermost open block is closed after all that lies within it. -/
theorem leave {number : Nat} (h : Sound limit (n + 1) blocks (number :: stack)) :
    Sound limit (n + 1) (blocks.modify number (closedAt n)) stack := by
  have hopen : ∀ b, blocks[number]? = some b → b.closed = false :=
    fun b hb => h.opened.closed_eq_false (by simp) hb
  have hnumber : ∀ k ∈ stack, k < number := by
    cases h.opened with
    | cons _ _ _ _ hrest _ => exact hrest
  constructor
  · -- the blocks around the innermost one stay as they are
    cases h.opened with
    | cons _ _ _ _ hrest hstack =>
        refine hstack.imp ?_
        intro k hk b hb
        have := hrest k hk
        rw [Array.getElem?_modify, if_neg (by omega), hb]
  · intro k b hb hk
    rcases getElem?_modify_cases hb with ⟨rfl, c, -, rfl⟩ | ⟨hne, hb⟩
    · rfl
    · exact h.closed k b hb (by simp [hk, Ne.symm hne])
  · intro k b hb
    rcases getElem?_modify_cases hb with ⟨rfl, c, hc, rfl⟩ | ⟨-, hb⟩
    · have := h.lines number c hc
      exact ⟨by simp only [closedAt]; omega, Nat.lt_succ_self n⟩
    · exact h.lines k b hb
  · intro k b hb
    rcases getElem?_modify_cases hb with ⟨rfl, c, hc, rfl⟩ | ⟨-, hb⟩
    · exact h.depth_lt number c hc
    · exact h.depth_lt k b hb
  · intro k b hb hnone
    rcases getElem?_modify_cases hb with ⟨rfl, c, hc, rfl⟩ | ⟨-, hb⟩
    · exact h.root number c hc hnone
    · exact h.root k b hb hnone
  · intro k b p hb hp
    rcases getElem?_modify_cases hb with ⟨rfl, c, hc, rfl⟩ | ⟨hne, hb⟩
    · obtain ⟨q, hq, hwithin⟩ := h.child number c p hc hp
      have hlt := hwithin.parent_lt
      refine ⟨q, by rw [Array.getElem?_modify, if_neg (by omega), hq], ?_⟩
      refine ⟨hlt, hwithin.depth_eq, hwithin.start_le, fun hclosed => ?_⟩
      have := (hwithin.closed_first hclosed).1
      rw [hopen c hc] at this
      cases this
    · obtain ⟨q, hq, hwithin⟩ := h.child k b p hb hp
      by_cases hpn : number = p
      · subst hpn
        have hlt := hwithin.parent_lt
        refine ⟨closedAt n q, by rw [Array.getElem?_modify, if_pos rfl, hq]; rfl, hlt,
          hwithin.depth_eq, hwithin.start_le, fun _ => ⟨h.closed k b hb ?_, ?_⟩⟩
        · intro hmem
          have := h.opened.le_head k hmem
          omega
        · exact Nat.lt_succ_iff.mp (h.lines k b hb).2
      · exact ⟨q, by rw [Array.getElem?_modify, if_neg hpn, hq], hwithin⟩
  · intro j k b c hjk hb hc hparent
    have hstart : ∃ c', blocks[k]? = some c' ∧ c'.parent = c.parent ∧
        c'.startLine = c.startLine := by
      rcases getElem?_modify_cases hc with ⟨rfl, c', hc', rfl⟩ | ⟨-, hc'⟩
      · exact ⟨c', hc', rfl, rfl⟩
      · exact ⟨c, hc', rfl, rfl⟩
    obtain ⟨c', hc', hparent', hstart⟩ := hstart
    rw [← hstart]
    rcases getElem?_modify_cases hb with ⟨rfl, b', hb', rfl⟩ | ⟨-, hb'⟩
    · -- an open block has no block beside it that comes later
      have := (h.siblings number k b' c' hjk hb' hc' (hparent.trans hparent'.symm)).1
      rw [hopen b' hb'] at this
      cases this
    · exact h.siblings j k b c' hjk hb' hc' (hparent.trans hparent'.symm)

end Sound

theorem sound_initial (limit : Nat) :
    Sound limit 0 ({} : BlockScan).arena ({} : BlockScan).stack := by
  simpa [arena, stack] using Sound.empty limit 0

theorem sound_move {limits : Limits} {n : Nat} {x y : BlockScan × Array BlockEvent}
    (h : Move limits n x y) (hx : Sound limits.maxNestingDepth (n + 1) x.1.arena x.1.stack) :
    Sound limits.maxNestingDepth (n + 1) y.1.arena y.1.stack := by
  cases h with
  | stay hblocks hstack =>
      simp only [arena, hblocks, hstack]
      exact hx
  | @enter s t events construct hroom hblocks hstack =>
      simp only [arena_enter hblocks, hstack, newBlock]
      have := hx.enter construct (by simpa using hroom)
      rwa [length_stack, size_arena] at this
  | leave hstack hblocks =>
      simp only [arena_leave hblocks]
      simp only [hstack] at hx
      exact hx.leave

theorem sound_moves {limits : Limits} {n : Nat} {x y : BlockScan × Array BlockEvent}
    (h : Moves limits n x y) (hx : Sound limits.maxNestingDepth n x.1.arena x.1.stack) :
    Sound limits.maxNestingDepth (n + 1) y.1.arena y.1.stack := by
  induction h with
  | refl => exact hx.mono (Nat.le_succ n)
  | tail _ hmove ih => exact sound_move hmove ih

theorem sound_step {limits : Limits} {n : Nat} (pending head : Nat) {s : BlockScan}
    {line : OwnedLine} (rest : List OwnedLine) (hindex : line.index = n)
    (hsound : Sound limits.maxNestingDepth n s.arena s.stack) :
    Sound limits.maxNestingDepth (n + 1) (step limits pending head s line rest).state.arena
      (step limits pending head s line rest).state.stack := by
  have hmoves := moves_step limits pending head s line rest
  rw [hindex] at hmoves
  exact sound_moves hmoves hsound

/-- The states before each line and after the last are sound. -/
theorem sound_passages {limits : Limits} {lines : List OwnedLine} (hlines : Numbered 0 lines) :
    (∀ p ∈ passages limits 0 0 {} lines,
      Sound limits.maxNestingDepth p.line.index p.before.arena p.before.stack) ∧
    Sound limits.maxNestingDepth lines.length (stateAfter limits 0 0 {} lines).arena
      (stateAfter limits 0 0 {} lines).stack := by
  have h := passages_induction (P := fun n s => Sound limits.maxNestingDepth n s.arena s.stack)
    (s := {}) (fun n s t events hmoves hs => sound_moves hmoves hs) 0 0 hlines
    (sound_initial _)
  rwa [Nat.zero_add] at h

/-! ## Children -/

theorem childrenOf_size {limit n : Nat} {blocks : Array Block} {stack : List Nat}
    (h : Sound limit n blocks stack) : childrenOf blocks blocks.size = [] := by
  rw [childrenOf, List.filter_eq_nil_iff]
  intro j hj hparent
  rw [List.mem_range] at hj
  rw [beq_iff_eq, parentOf?] at hparent
  obtain ⟨b, hb, hp⟩ := Option.bind_eq_some_iff.mp hparent
  obtain ⟨q, hq, -⟩ := h.child j b _ hb hp
  exact absurd (Array.getElem?_eq_some_iff.mp hq).1 (Nat.lt_irrefl _)

/-- Every block lists its children. -/
def ListsChildren (s : BlockScan) : Prop :=
  ∀ (k : Nat) (b : Block), s.blocks[k]? = some b → b.children.toList = childrenOf s.arena k

theorem listsChildren_move {limits : Limits} {n m : Nat} {x y : BlockScan × Array BlockEvent}
    (h : Move limits n x y) (hsound : Sound limits.maxNestingDepth m x.1.arena x.1.stack)
    (hx : ListsChildren x.1) : ListsChildren y.1 := by
  cases h with
  | stay hblocks hstack =>
      intro k b hb
      simp only [arena, hblocks] at hb ⊢
      exact hx k b hb
  | @enter s t events construct hroom hblocks hstack =>
      intro k b hb
      simp only [hblocks] at hb
      rw [arena_enter hblocks, childrenOf_push, size_arena]
      rcases getElem?_push_cases hb with ⟨rfl, rfl⟩ | ⟨hk, hb⟩
      · have hnot : s.stack.head? ≠ some s.blocks.size := by
          intro hhead
          have := hsound.opened.lt_size (List.mem_of_mem_head? hhead)
          rw [size_arena] at this
          exact absurd this (Nat.lt_irrefl _)
        have hnone := childrenOf_size hsound
        rw [size_arena] at hnone
        rw [size_adopt, hnone]
        simp [newBlock, hnot]
      · rw [getElem?_adopt] at hb
        obtain ⟨c, hc, rfl⟩ := Option.map_eq_some_iff.mp hb
        have hlisted : c.children.toList = childrenOf s.arena k := hx k c hc
        by_cases hhead : s.stack.head? = some k
        · simp [newBlock, hhead, hlisted]
        · simp [newBlock, hhead, hlisted]
  | @leave s t events number hstack hblocks =>
      intro k b hb
      simp only [hblocks] at hb
      rw [arena_leave hblocks, childrenOf_modify (f := closedAt n) fun _ => rfl]
      rcases getElem?_modify_cases hb with ⟨rfl, c, hc, rfl⟩ | ⟨-, hb⟩
      · exact hx number c hc
      · exact hx k b hb

theorem listsChildren_moves {limits : Limits} {n : Nat} {x y : BlockScan × Array BlockEvent}
    (h : Moves limits n x y) (hsound : Sound limits.maxNestingDepth n x.1.arena x.1.stack)
    (hx : ListsChildren x.1) : ListsChildren y.1 := by
  induction h with
  | refl => exact hx
  | tail hmoves hmove ih => exact listsChildren_move hmove (sound_moves hmoves hsound) ih

theorem listsChildren_stateAfter {limits : Limits} {lines : List OwnedLine}
    (hlines : Numbered 0 lines) : ListsChildren (stateAfter limits 0 0 {} lines) := by
  have h := passages_induction
    (P := fun n s => Sound limits.maxNestingDepth n s.arena s.stack ∧ ListsChildren s) (s := {})
    (fun n s t events hmoves hs =>
      ⟨sound_moves hmoves hs.1, listsChildren_moves hmoves hs.1 hs.2⟩) 0 0 hlines
    ⟨sound_initial _, by simp [ListsChildren]⟩
  exact h.2.2

end BlockScan

end ClassicAsp
