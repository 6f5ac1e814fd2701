import ClassicAsp.Proofs.OpenBlocks
import Mathlib.Algebra.Ring.Nat
import Mathlib.Data.List.Sort

/-! # The forest of blocks

The blocks of a document form a forest: a block comes after its parent and lies within it, a
closed block ends before the next one beside it starts, and what encloses an open block is open.
The counts of a document agree with its blocks and with the events of its lines. -/

namespace ClassicAsp

/-! ## The end of the document -/

open Block BlockScan

/-- The state after the lines of a document. -/
def Document.lastState (limits : Limits) (doc : Document) : BlockScan :=
  stateAfter limits 0 0 {} doc.lines

theorem getElem?_foldl_modify {f : Block → Block} (hf : ∀ b, f (f b) = f b) (numbers : List Nat)
    (blocks : Array Block) (k : Nat) :
    (numbers.foldl (fun blocks number => blocks.modify number f) blocks)[k]? =
      blocks[k]?.map fun b => if k ∈ numbers then f b else b := by
  induction numbers generalizing blocks with
  | nil => simp
  | cons number numbers ih =>
      rw [List.foldl_cons, ih, Array.getElem?_modify]
      by_cases hk : number = k
      · rw [if_pos hk, Option.map_map]
        refine congrArg (blocks[k]?.map ·) (funext fun b => ?_)
        simp only [Function.comp]
        by_cases hmem : k ∈ numbers <;> simp [hk, hmem, hf]
      · rw [if_neg hk]
        refine congrArg (blocks[k]?.map ·) (funext fun b => ?_)
        simp [Ne.symm hk]

/-- Blocks that are open at the end get the last line. -/
theorem getElem?_blocks (limits : Limits) (doc : Document) (k : Nat) :
    (doc.blockStructure limits).blocks[k]? = (doc.lastState limits).blocks[k]?.map fun b =>
      if k ∈ (doc.lastState limits).stack then { b with endLine := doc.lines.length - 1 }
      else b := by
  simp only [Document.blockStructure, Document.lastState, walk_snd]
  rw [← Array.foldl_toList, getElem?_foldl_modify
    (f := fun b => { b with endLine := doc.lines.length - 1 }) fun _ => rfl]
  simp [stack]

/-- A block of a document and the one that the walk found: only the end may differ. -/
structure Block.Finished (last : Nat) (isOpen : Prop) (a b : Block) : Prop where
  construct_eq : b.construct = a.construct
  startLine_eq : b.startLine = a.startLine
  depth_eq : b.depth = a.depth
  parent_eq : b.parent = a.parent
  closed_eq : b.closed = a.closed
  endLine_open : isOpen → b.endLine = last
  endLine_closed : ¬isOpen → b.endLine = a.endLine

theorem finished_bare (last : Nat) (isOpen : Prop) [Decidable isOpen] (c : Block) :
    Finished last isOpen c.bare (if isOpen then { c with endLine := last } else c) := by
  by_cases h : isOpen
  · rw [if_pos h]
    exact ⟨rfl, rfl, rfl, rfl, rfl, fun _ => rfl, fun hnot => absurd h hnot⟩
  · rw [if_neg h]
    exact ⟨rfl, rfl, rfl, rfl, rfl, fun hopen => absurd hopen h, fun _ => rfl⟩

section

variable {limits : Limits} {doc : Document} {k : Nat}

theorem exists_found {b : Block} (h : (doc.blockStructure limits).blocks[k]? = some b) :
    ∃ a, (doc.lastState limits).arena[k]? = some a ∧
      Finished (doc.lines.length - 1) (k ∈ (doc.lastState limits).stack) a b := by
  rw [getElem?_blocks] at h
  obtain ⟨c, hc, rfl⟩ := Option.map_eq_some_iff.mp h
  refine ⟨c.bare, ?_, finished_bare _ _ c⟩
  rw [arena, Array.getElem?_map, hc, Option.map_some]

theorem exists_finished {a : Block} (h : (doc.lastState limits).arena[k]? = some a) :
    ∃ b, (doc.blockStructure limits).blocks[k]? = some b ∧
      Finished (doc.lines.length - 1) (k ∈ (doc.lastState limits).stack) a b := by
  rw [arena, Array.getElem?_map] at h
  obtain ⟨c, hc, rfl⟩ := Option.map_eq_some_iff.mp h
  exact ⟨_, by rw [getElem?_blocks, hc, Option.map_some], finished_bare _ _ c⟩

end

theorem size_blocks (limits : Limits) (doc : Document) :
    (doc.blockStructure limits).blocks.size = (doc.lastState limits).blocks.size := by
  apply Nat.le_antisymm
  · rw [← Array.getElem?_eq_none_iff, getElem?_blocks, Option.map_eq_none_iff]
    exact Array.getElem?_eq_none (Nat.le_refl _)
  · rw [← Array.getElem?_eq_none_iff]
    have h : (doc.blockStructure limits).blocks[(doc.blockStructure limits).blocks.size]? = none :=
      Array.getElem?_eq_none (Nat.le_refl _)
    rwa [getElem?_blocks, Option.map_eq_none_iff] at h

theorem parentOf?_blocks (limits : Limits) (doc : Document) (k : Nat) :
    parentOf? (doc.blockStructure limits).blocks k = parentOf? (doc.lastState limits).blocks k := by
  rw [parentOf?, parentOf?, getElem?_blocks, Option.bind_map]
  refine congrArg ((doc.lastState limits).blocks[k]?.bind ·) (funext fun b => ?_)
  simp only [Function.comp]
  split <;> rfl

theorem map_closed_blocks (limits : Limits) (doc : Document) :
    (doc.blockStructure limits).blocks.map (·.closed) =
      (doc.lastState limits).arena.map (·.closed) := by
  apply Array.ext_getElem?
  intro k
  rw [arena, Array.map_map, Array.getElem?_map, Array.getElem?_map, getElem?_blocks,
    Option.map_map]
  refine congrArg ((doc.lastState limits).blocks[k]?.map ·) (funext fun b => ?_)
  simp only [Function.comp]
  split <;> rfl

/-! ## The forest -/

/-- Blocks as a forest over the lines up to `last`, less than `limit` deep. Blocks are numbered in
the order in which they start. -/
structure Block.Forest (limit last : Nat) (blocks : Array Block) : Prop where
  root : ∀ (k : Nat) (b : Block), blocks[k]? = some b → b.parent = none → b.depth = 0
  parent : ∀ (k : Nat) (b : Block) (p : Nat), blocks[k]? = some b → b.parent = some p →
    p < k ∧ ∃ q, blocks[p]? = some q ∧ b.depth = q.depth + 1 ∧
      q.startLine ≤ b.startLine ∧ b.endLine ≤ q.endLine
  children : ∀ (k : Nat) (b : Block), blocks[k]? = some b →
    b.children.toList = childrenOf blocks k
  lines : ∀ (k : Nat) (b : Block), blocks[k]? = some b →
    b.startLine ≤ b.endLine ∧ b.endLine ≤ last
  siblings : ∀ (j k : Nat) (b c : Block), j < k → blocks[j]? = some b → blocks[k]? = some c →
    b.parent = c.parent → b.closed = true ∧ b.endLine ≤ c.startLine
  unclosed : ∀ (k : Nat) (b : Block), blocks[k]? = some b → b.closed = false → b.endLine = last
  ancestors : ∀ (k a : Nat) (b : Block), blocks[k]? = some b → b.closed = false →
    Relation.TransGen (fun k p => parentOf? blocks k = some p) k a →
    ∃ c, blocks[a]? = some c ∧ c.closed = false
  depth_lt : ∀ (k : Nat) (b : Block), blocks[k]? = some b → b.depth < limit

/-- If the parents of open blocks are open, so is all that encloses them. -/
theorem exists_open_ancestor {blocks : Array Block}
    (hparent : ∀ (k : Nat) (b : Block) (p : Nat), blocks[k]? = some b → b.closed = false →
      b.parent = some p → ∃ q, blocks[p]? = some q ∧ q.closed = false)
    {k a : Nat} (h : Relation.TransGen (fun k p => parentOf? blocks k = some p) k a) {b : Block}
    (hb : blocks[k]? = some b) (hopen : b.closed = false) :
    ∃ c, blocks[a]? = some c ∧ c.closed = false := by
  induction h with
  | single hlink =>
      rw [parentOf?, hb, Option.bind_some] at hlink
      exact hparent k b _ hb hopen hlink
  | @tail p a _ hlink ih =>
      obtain ⟨c, hc, hclosed⟩ := ih
      rw [parentOf?, hc, Option.bind_some] at hlink
      exact hparent p c a hc hclosed hlink

/-- The blocks of a document whose lines are numbered from zero. -/
theorem forest_blocks (limits : Limits) {doc : Document} (hlines : Numbered 0 doc.lines) :
    Forest limits.maxNestingDepth (doc.lines.length - 1) (doc.blockStructure limits).blocks := by
  have hsound : Sound limits.maxNestingDepth doc.lines.length (doc.lastState limits).arena
      (doc.lastState limits).stack := (sound_passages hlines).2
  have hopen : ∀ (k : Nat) (a : Block), (doc.lastState limits).arena[k]? = some a →
      a.closed = false → k ∈ (doc.lastState limits).stack := by
    intro k a ha hclosed
    by_contra hk
    rw [hsound.closed k a ha hk] at hclosed
    cases hclosed
  have hclosed : ∀ (k : Nat) (a : Block), (doc.lastState limits).arena[k]? = some a →
      a.closed = true → k ∉ (doc.lastState limits).stack := by
    intro k a ha hclosed hk
    rw [hsound.opened.closed_eq_false hk ha] at hclosed
    cases hclosed
  -- a block is open only inside open blocks
  have hparent : ∀ (k : Nat) (b : Block) (p : Nat),
      (doc.blockStructure limits).blocks[k]? = some b → b.closed = false → b.parent = some p →
      ∃ q, (doc.blockStructure limits).blocks[p]? = some q ∧ q.closed = false := by
    intro k b p hb hb' hp
    obtain ⟨a, ha, hab⟩ := exists_found hb
    obtain ⟨c, hc, hwithin⟩ := hsound.child k a p ha (hab.parent_eq ▸ hp)
    obtain ⟨q, hq, hcq⟩ := exists_finished hc
    refine ⟨q, hq, ?_⟩
    rw [hcq.closed_eq]
    by_contra htrue
    have := (hwithin.closed_first (by simpa using htrue)).1
    rw [← hab.closed_eq, hb'] at this
    cases this
  constructor
  case root =>
    intro k b hb hnone
    obtain ⟨a, ha, hab⟩ := exists_found hb
    rw [hab.depth_eq]
    exact hsound.root k a ha (hab.parent_eq ▸ hnone)
  case parent =>
    intro k b p hb hp
    obtain ⟨a, ha, hab⟩ := exists_found hb
    obtain ⟨c, hc, hwithin⟩ := hsound.child k a p ha (hab.parent_eq ▸ hp)
    obtain ⟨q, hq, hcq⟩ := exists_finished hc
    refine ⟨hwithin.parent_lt, q, hq, ?_, ?_, ?_⟩
    · rw [hab.depth_eq, hcq.depth_eq, hwithin.depth_eq]
    · rw [hab.startLine_eq, hcq.startLine_eq]
      exact hwithin.start_le
    · by_cases hpo : p ∈ (doc.lastState limits).stack
      · rw [hcq.endLine_open hpo]
        by_cases hko : k ∈ (doc.lastState limits).stack
        · rw [hab.endLine_open hko]
        · rw [hab.endLine_closed hko]
          exact Nat.le_sub_one_of_lt (hsound.lines k a ha).2
      · obtain ⟨hka, hle⟩ := hwithin.closed_first (hsound.closed p c hc hpo)
        rw [hcq.endLine_closed hpo, hab.endLine_closed (hclosed k a ha hka)]
        exact hle
  case children =>
    intro k b hb
    rw [getElem?_blocks] at hb
    obtain ⟨c, hc, rfl⟩ := Option.map_eq_some_iff.mp hb
    have hlisted : c.children.toList = childrenOf (doc.lastState limits).arena k :=
      listsChildren_stateAfter hlines k c hc
    have hchildren : childrenOf (doc.blockStructure limits).blocks k =
        childrenOf (doc.lastState limits).arena k := by
      rw [arena, childrenOf_map_bare]
      simp only [childrenOf, parentOf?_blocks, size_blocks]
    rw [hchildren, ← hlisted]
    split <;> rfl
  case lines =>
    intro k b hb
    obtain ⟨a, ha, hab⟩ := exists_found hb
    have hlast := hsound.lines k a ha
    rw [hab.startLine_eq]
    by_cases hk : k ∈ (doc.lastState limits).stack
    · rw [hab.endLine_open hk]
      omega
    · rw [hab.endLine_closed hk]
      omega
  case siblings =>
    intro j k b c hjk hb hc hsame
    obtain ⟨a, ha, hab⟩ := exists_found hb
    obtain ⟨a', ha', hac⟩ := exists_found hc
    obtain ⟨htrue, hle⟩ := hsound.siblings j k a a' hjk ha ha'
      (by rw [← hab.parent_eq, ← hac.parent_eq, hsame])
    rw [hab.closed_eq, hab.endLine_closed (hclosed j a ha htrue), hac.startLine_eq]
    exact ⟨htrue, hle⟩
  case unclosed =>
    intro k b hb hfalse
    obtain ⟨a, ha, hab⟩ := exists_found hb
    exact hab.endLine_open (hopen k a ha (hab.closed_eq ▸ hfalse))
  case ancestors =>
    intro k a b hb hfalse hlinks
    exact exists_open_ancestor hparent hlinks hb hfalse
  case depth_lt =>
    intro k b hb
    obtain ⟨a, ha, hab⟩ := exists_found hb
    rw [hab.depth_eq]
    exact hsound.depth_lt k a ha

/-! ## Counts -/

/-- Does the event open a block? -/
def BlockEvent.isOpening : BlockEvent → Bool
  | .opened _ => true
  | .closed => false

@[simp] theorem BlockEvent.isOpening_opened (kind : BlockKind) :
    (opened kind).isOpening = true := rfl

@[simp] theorem BlockEvent.isOpening_closed : closed.isOpening = false := rfl

/-- The number of blocks that lines open. -/
def openings (os : List Outline) : Nat :=
  (os.flatMap (·.events.toList)).countP BlockEvent.isOpening

/-- The number of blocks that lines close. -/
def closings (os : List Outline) : Nat :=
  (os.flatMap (·.events.toList)).countP (!·.isOpening)

/-- Every opening adds a block, and every closing takes one off the open blocks. -/
theorem count_moves {limits : Limits} {n : Nat} {x y : BlockScan × Array BlockEvent}
    (h : Moves limits n x y) :
    y.1.blocks.size + x.2.countP BlockEvent.isOpening =
        x.1.blocks.size + y.2.countP BlockEvent.isOpening ∧
      y.1.stack.length + y.2.countP (!·.isOpening) + x.2.countP BlockEvent.isOpening =
        x.1.stack.length + x.2.countP (!·.isOpening) + y.2.countP BlockEvent.isOpening := by
  induction h with
  | refl => exact ⟨rfl, rfl⟩
  | tail _ hmove ih =>
      obtain ⟨hsize, hdepth⟩ := ih
      cases hmove with
      | stay hblocks hstack =>
          rw [hblocks, hstack]
          exact ⟨hsize, hdepth⟩
      | enter construct hroom hblocks hstack =>
          simp only [hblocks, hstack, Array.size_push, size_adopt, Array.countP_push,
            BlockEvent.isOpening_opened, Bool.not_true, List.length_cons, if_true,
            Bool.false_eq_true, if_false] at hsize hdepth ⊢
          omega
      | leave hstack hblocks =>
          simp only [hblocks, hstack, Array.size_modify, Array.countP_push,
            BlockEvent.isOpening_closed, Bool.not_false, List.length_cons, if_true,
            Bool.false_eq_true, if_false] at hsize hdepth ⊢
          omega

theorem count_stateAfter (limits : Limits) (pending head : Nat) (s : BlockScan)
    (lines : List OwnedLine) :
    (stateAfter limits pending head s lines).blocks.size =
        s.blocks.size + openings (outlines limits pending head s lines) ∧
      (stateAfter limits pending head s lines).stack.length +
          closings (outlines limits pending head s lines) =
        s.stack.length + openings (outlines limits pending head s lines) := by
  induction lines generalizing pending head s with
  | nil => exact ⟨rfl, rfl⟩
  | cons line rest ih =>
      have hmoves := count_moves (moves_step limits pending head s line rest)
      have hrest := ih (step limits pending head s line rest).pending
        (step limits pending head s line rest).head (step limits pending head s line rest).state
      simp only [Array.countP_empty, Nat.add_zero] at hmoves
      simp only [stateAfter, outlines, openings, closings, List.flatMap_cons, List.countP_append,
        Array.countP_toList] at hrest ⊢
      omega

theorem filterMap_range_getElem? {α : Type} (xs : List α) :
    (List.range xs.length).filterMap (xs[·]?) = xs := by
  induction xs with
  | nil => rfl
  | cons x xs ih =>
      rw [List.length_cons, List.range_succ_eq_map, List.filterMap_cons, List.filterMap_map]
      exact congrArg (x :: ·) ih

/-- The blocks with a property, picked from all blocks by index. -/
theorem filter_eq_filterMap {blocks : Array Block} {p : Block → Bool} {numbers : List Nat}
    (hsorted : numbers.Pairwise (· > ·))
    (hmem : ∀ k, k ∈ numbers ↔ ∃ b, blocks[k]? = some b ∧ p b = true) :
    blocks.toList.filter p = numbers.reverse.filterMap (blocks[·]?) := by
  have hpicked : (List.range blocks.size).filter (fun k => blocks[k]?.any p) = numbers.reverse := by
    refine List.Pairwise.eq_of_mem_iff (List.pairwise_lt_range.filter _)
      (List.pairwise_reverse.mpr hsorted) fun k => ?_
    rw [List.mem_filter, List.mem_range, Option.any_eq_true, List.mem_reverse, hmem]
    constructor
    · exact fun h => h.2
    · rintro ⟨b, hb, hp⟩
      exact ⟨(Array.getElem?_eq_some_iff.mp hb).1, b, hb, hp⟩
  have hall : blocks.toList = (List.range blocks.size).filterMap (blocks[·]?) := by
    simpa using (filterMap_range_getElem? blocks.toList).symm
  rw [← hpicked, List.filterMap_filter]
  conv_lhs => rw [hall, List.filter_filterMap]
  refine List.filterMap_congr fun k _ => ?_
  cases blocks[k]? with
  | none => rfl
  | some b => simp [Option.filter]

theorem countP_not_closed {limit n : Nat} {blocks : Array Block} {stack : List Nat}
    (h : Sound limit n blocks stack) : blocks.countP (!·.closed) = stack.length := by
  have hmem : ∀ k, k ∈ stack ↔ ∃ b, blocks[k]? = some b ∧ (!b.closed) = true := by
    intro k
    constructor
    · intro hk
      obtain ⟨b, hb, hclosed⟩ := h.opened.exists_block hk
      exact ⟨b, hb, by rw [hclosed]; rfl⟩
    · rintro ⟨b, hb, hclosed⟩
      by_contra hk
      rw [h.closed k b hb hk] at hclosed
      cases hclosed
  rw [← Array.countP_toList, List.countP_eq_length_filter,
    filter_eq_filterMap h.opened.pairwise hmem, List.length_filterMap_eq_countP,
    List.countP_eq_length.mpr, List.length_reverse]
  intro k hk
  obtain ⟨b, hb, -⟩ := h.opened.exists_block (List.mem_reverse.mp hk)
  rw [hb]
  rfl

theorem sum_countP_kind (blocks : List Block) :
    (BlockKind.all.map fun k => blocks.countP (·.kind == k)).sum = blocks.length := by
  induction blocks with
  | nil => rfl
  | cons b blocks ih =>
      simp only [BlockKind.all, List.map_cons, List.map_nil, List.sum_cons, List.sum_nil,
        List.countP_cons, List.length_cons] at ih ⊢
      cases b.kind <;> simp <;> omega

theorem sum_filter_pos {α : Type} (entries : List (α × Nat)) :
    ((entries.filter (0 < ·.2)).map (·.2)).sum = (entries.map (·.2)).sum := by
  induction entries with
  | nil => rfl
  | cons entry entries ih =>
      by_cases hpos : 0 < entry.2
      · rw [List.filter_cons_of_pos (by simpa using hpos), List.map_cons, List.sum_cons, ih,
          List.map_cons, List.sum_cons]
      · rw [List.filter_cons_of_neg (by simpa using hpos), ih, List.map_cons, List.sum_cons]
        omega

/-- The largest of the values that a scan meets, and the one that it starts with. -/
theorem foldl_max_depth (blocks : List Block) (start : Nat) :
    start ≤ blocks.foldl (fun n b => max n (b.depth + 1)) start ∧
      (∀ b ∈ blocks, b.depth + 1 ≤ blocks.foldl (fun n b => max n (b.depth + 1)) start) ∧
      (blocks.foldl (fun n b => max n (b.depth + 1)) start = start ∨
        ∃ b ∈ blocks, b.depth + 1 = blocks.foldl (fun n b => max n (b.depth + 1)) start) := by
  induction blocks generalizing start with
  | nil => simp
  | cons b blocks ih =>
      obtain ⟨hstart, hle, hmem⟩ := ih (max start (b.depth + 1))
      rw [List.foldl_cons]
      refine ⟨by omega, ?_, ?_⟩
      · intro c hc
        rcases List.mem_cons.mp hc with rfl | hc
        · omega
        · exact hle c hc
      · rcases hmem with heq | ⟨c, hc, heq⟩
        · rw [heq]
          by_cases hb : start ≤ b.depth + 1
          · exact .inr ⟨b, by simp, by omega⟩
          · exact .inl (by omega)
        · exact .inr ⟨c, by simp [hc], heq⟩

/-- The counts of a block structure agree with its blocks and with the events of its lines. -/
structure BlockStructure.Counted (found : BlockStructure) : Prop where
  total_eq_size : found.statistics.totalBlocks = found.blocks.size
  total_eq_openings : found.statistics.totalBlocks = openings found.outlines
  total_eq_sum : found.statistics.totalBlocks = (found.statistics.byKind.map (·.2)).sum
  closings_le : closings found.outlines ≤ found.statistics.totalBlocks
  unclosed_eq : found.statistics.unclosed =
    found.statistics.totalBlocks - closings found.outlines
  depth_le : ∀ b ∈ found.blocks, b.depth + 1 ≤ found.statistics.maxDepth
  maxDepth_mem : found.blocks = #[] ∧ found.statistics.maxDepth = 0 ∨
    ∃ b ∈ found.blocks, b.depth + 1 = found.statistics.maxDepth

theorem counted_blockStructure (limits : Limits) {doc : Document}
    (hlines : Numbered 0 doc.lines) : (doc.blockStructure limits).Counted := by
  have hsound : Sound limits.maxNestingDepth doc.lines.length (doc.lastState limits).arena
      (doc.lastState limits).stack := (sound_passages hlines).2
  have hcounts := count_stateAfter limits 0 0 {} doc.lines
  rw [← outlines_blockStructure] at hcounts
  obtain ⟨hsize, hdepth⟩ := hcounts
  have htotal : (doc.blockStructure limits).blocks.size =
      openings (doc.blockStructure limits).outlines := by
    rw [size_blocks, Document.lastState, hsize]
    exact Nat.zero_add _
  have hunclosed : (doc.blockStructure limits).blocks.countP (!·.closed) =
      (doc.lastState limits).stack.length := by
    rw [← countP_not_closed hsound]
    have h := congrArg (Array.countP (!·)) (map_closed_blocks limits doc)
    rwa [Array.countP_map, Array.countP_map] at h
  have hopened : (doc.lastState limits).stack.length +
      closings (doc.blockStructure limits).outlines =
      openings (doc.blockStructure limits).outlines :=
    hdepth.trans (Nat.zero_add _)
  obtain ⟨-, hle, hmem⟩ := foldl_max_depth (doc.blockStructure limits).blocks.toList 0
  rw [Array.foldl_toList] at hle hmem
  constructor
  case total_eq_size => rfl
  case total_eq_openings => exact htotal
  case total_eq_sum =>
    have hsum := sum_filter_pos (BlockKind.all.map fun k =>
      (k, (doc.blockStructure limits).blocks.countP (·.kind == k)))
    rw [List.map_map] at hsum
    have hkinds := sum_countP_kind (doc.blockStructure limits).blocks.toList
    simp only [Array.countP_toList, Array.length_toList] at hkinds
    exact (hsum.trans hkinds).symm
  case closings_le =>
    show _ ≤ (doc.blockStructure limits).blocks.size
    omega
  case unclosed_eq =>
    show (doc.blockStructure limits).blocks.countP (!·.closed) =
      (doc.blockStructure limits).blocks.size - _
    omega
  case depth_le =>
    intro b hb
    exact hle b (Array.mem_toList_iff.mpr hb)
  case maxDepth_mem =>
    rcases hmem with hzero | ⟨b, hb, heq⟩
    · refine .inl ⟨?_, hzero⟩
      rw [← Array.toList_eq_nil_iff, List.eq_nil_iff_forall_not_mem]
      intro b hb
      have := hle b hb
      omega
    · exact .inr ⟨b, Array.mem_toList_iff.mp hb, heq⟩

/-- The blocks of a text are a forest, and the counts agree with it, whatever the ceilings are and
wherever the frozen lines start. -/
theorem blocks_form_forest (limits : Limits) (text : List Char) (frozenFrom : Nat) :
    let doc := (Document.ofText text).freezeFrom frozenFrom
    Forest limits.maxNestingDepth (doc.lines.length - 1) (doc.blockStructure limits).blocks ∧
      (doc.blockStructure limits).Counted :=
  ⟨forest_blocks limits (Document.numbered_frozen text frozenFrom),
    counted_blockStructure limits (Document.numbered_frozen text frozenFrom)⟩

end ClassicAsp
