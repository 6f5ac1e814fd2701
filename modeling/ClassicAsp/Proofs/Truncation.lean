import ClassicAsp.Proofs.OpenBlocks

/-! # Blocks below a ceiling

The blocks less deep than a ceiling, numbered anew. A block that is added or changed below the
ceiling is added or changed among them, and one that is too deep leaves them as they are. -/

namespace ClassicAsp

/-! ## Blocks below a ceiling -/

theorem getElem?_filter_countP {α : Type} {p : α → Bool} {xs : List α} {k : Nat} {x : α}
    (hx : xs[k]? = some x) (hp : p x = true) :
    (xs.filter p)[(xs.take k).countP p]? = some x := by
  induction xs generalizing k with
  | nil => cases hx
  | cons y xs ih =>
      cases k with
      | zero =>
          obtain rfl : y = x := Option.some.inj hx
          simp [hp]
      | succ k =>
          rw [List.getElem?_cons_succ] at hx
          rw [List.take_succ_cons]
          by_cases hy : p y = true
          · rw [List.filter_cons_of_pos hy, List.countP_cons_of_pos hy, List.getElem?_cons_succ]
            exact ih hx
          · rw [List.filter_cons_of_neg hy, List.countP_cons_of_neg hy]
            exact ih hx

theorem filter_modify {α : Type} {p : α → Bool} {f : α → α} (hf : ∀ x, p (f x) = p x)
    (xs : List α) (k : Nat) :
    (xs.modify k f).filter p =
      if xs[k]?.any p then (xs.filter p).modify ((xs.take k).countP p) f else xs.filter p := by
  induction xs generalizing k with
  | nil => simp
  | cons x xs ih =>
      cases k with
      | zero =>
          by_cases hx : p x = true
          · simp [hx, hf]
          · simp [hx, hf]
      | succ k =>
          rw [List.modify_succ_cons, List.getElem?_cons_succ, List.take_succ_cons]
          by_cases hx : p x = true
          · rw [List.filter_cons_of_pos hx, List.filter_cons_of_pos hx, ih,
              List.countP_cons_of_pos hx, List.modify_succ_cons]
            split <;> rfl
          · rw [List.filter_cons_of_neg hx, List.filter_cons_of_neg hx, ih,
              List.countP_cons_of_neg hx]

namespace Block

/-- Is there a block with this index, less deep than the ceiling? -/
def isBelow (ceiling : Nat) (blocks : Array Block) (k : Nat) : Bool :=
  blocks[k]?.any (·.depth < ceiling)

/-- The index that a block has among those less deep than the ceiling: the number of these before
it. -/
def rank (ceiling : Nat) (blocks : Array Block) (k : Nat) : Nat :=
  (blocks.toList.take k).countP (·.depth < ceiling)

/-- A block without its children, its parent under another index. -/
def renumber (f : Nat → Nat) (b : Block) : Block := { b.bare with parent := b.parent.map f }

/-- The blocks less deep than the ceiling, numbered anew. -/
def below (ceiling : Nat) (blocks : Array Block) : Array Block :=
  (blocks.filter (·.depth < ceiling)).map (renumber (rank ceiling blocks))

variable {ceiling : Nat} {blocks : Array Block}

theorem getElem?_below {k : Nat} {b : Block} (hb : blocks[k]? = some b)
    (hdepth : b.depth < ceiling) :
    (below ceiling blocks)[rank ceiling blocks k]? = some (renumber (rank ceiling blocks) b) := by
  rw [below, Array.getElem?_map, ← Array.getElem?_toList, Array.toList_filter, rank,
    getElem?_filter_countP (by rwa [Array.getElem?_toList]) (by simpa using hdepth)]
  rfl

theorem size_below : (below ceiling blocks).size = rank ceiling blocks blocks.size := by
  have hfilter : (blocks.filter (·.depth < ceiling)).toList =
      blocks.toList.filter (·.depth < ceiling) := Array.toList_filter
  have hlength := congrArg List.length hfilter
  rw [Array.length_toList] at hlength
  rw [below, Array.size_map, hlength, rank, ← Array.length_toList, List.take_length,
    List.countP_eq_length_filter]

theorem rank_push {k : Nat} (hk : k ≤ blocks.size) (b : Block) :
    rank ceiling (blocks.push b) k = rank ceiling blocks k := by
  rw [rank, Array.toList_push, List.take_append_of_le_length (by simpa using hk), rank]

theorem isBelow_push {k : Nat} (hk : k < blocks.size) (b : Block) :
    isBelow ceiling (blocks.push b) k = isBelow ceiling blocks k := by
  rw [isBelow, Array.getElem?_push, if_neg (Nat.ne_of_lt hk), isBelow]

theorem isBelow_push_size (b : Block) :
    isBelow ceiling (blocks.push b) blocks.size = decide (b.depth < ceiling) := by
  rw [isBelow, Array.getElem?_push_size, Option.any_some]

/-- A block that is added below the ceiling is added to those below it. -/
theorem below_push (hparents : ∀ b ∈ blocks, ∀ p, b.parent = some p → p < blocks.size)
    {b : Block} (hb : ∀ p, b.parent = some p → p < blocks.size) :
    below ceiling (blocks.push b) =
      if b.depth < ceiling then (below ceiling blocks).push (renumber (rank ceiling blocks) b)
      else below ceiling blocks := by
  -- parents come before the new block, so that their ranks stay
  have hrenumber : ∀ c : Block, (∀ p, c.parent = some p → p < blocks.size) →
      renumber (rank ceiling (blocks.push b)) c = renumber (rank ceiling blocks) c := by
    intro c hc
    have hparent : c.parent.map (rank ceiling (blocks.push b)) =
        c.parent.map (rank ceiling blocks) := by
      cases hp : c.parent with
      | none => rfl
      | some p => rw [Option.map_some, Option.map_some, rank_push (Nat.le_of_lt (hc p hp))]
    rw [renumber, hparent, renumber]
  have hold : (blocks.filter (·.depth < ceiling)).map (renumber (rank ceiling (blocks.push b))) =
      below ceiling blocks := by
    refine Array.map_congr_left fun c hc => ?_
    exact hrenumber c (hparents c (Array.mem_filter.mp hc).1)
  rw [below, Array.filter_push]
  by_cases hdepth : b.depth < ceiling
  · rw [if_pos (by simpa using hdepth), if_pos hdepth, Array.map_push, hold, hrenumber b hb]
  · rw [if_neg (by simpa using hdepth), if_neg hdepth, hold]

/-- A change of a block that leaves it where it is among the others. -/
structure KeepsPlace (f : Block → Block) : Prop where
  depth_eq : ∀ b, (f b).depth = b.depth
  renumber_eq : ∀ g b, renumber g (f b) = f (renumber g b)

section

variable {f : Block → Block} (hf : KeepsPlace f)

include hf

theorem map_depth_modify (i : Nat) :
    (blocks.modify i f).map (·.depth) = blocks.map (·.depth) := by
  apply Array.ext_getElem?
  intro k
  rw [Array.getElem?_map, Array.getElem?_modify, Array.getElem?_map]
  split
  · rw [Option.map_map]
    exact congrArg (blocks[k]?.map ·) (funext hf.depth_eq)
  · rfl

theorem rank_modify (i : Nat) : rank ceiling (blocks.modify i f) = rank ceiling blocks := by
  have hrank : ∀ (bs : Array Block) (k : Nat),
      rank ceiling bs k = ((bs.map (·.depth)).toList.take k).countP (· < ceiling) := by
    intro bs k
    rw [Array.toList_map, ← List.map_take, List.countP_map]
    rfl
  funext k
  rw [hrank, hrank, map_depth_modify hf]

theorem isBelow_modify (i : Nat) :
    isBelow ceiling (blocks.modify i f) = isBelow ceiling blocks := by
  funext k
  rw [isBelow, Array.getElem?_modify, isBelow]
  split
  · rw [Option.any_map]
    simp only [hf.depth_eq]
  · rfl

/-- A change of a block is one of those below the ceiling if the block is. -/
theorem below_modify (k : Nat) :
    below ceiling (blocks.modify k f) =
      if isBelow ceiling blocks k then
        (below ceiling blocks).modify (rank ceiling blocks k) f
      else below ceiling blocks := by
  have hfilter : (blocks.modify k f).filter (·.depth < ceiling) =
      if isBelow ceiling blocks k then
        (blocks.filter (·.depth < ceiling)).modify (rank ceiling blocks k) f
      else blocks.filter (·.depth < ceiling) := by
    have hany : blocks.toList[k]?.any (·.depth < ceiling) = isBelow ceiling blocks k := by
      rw [Array.getElem?_toList, isBelow]
    apply Array.ext'
    rw [Array.toList_filter, Array.toList_modify, filter_modify fun b => by rw [hf.depth_eq],
      hany]
    by_cases hk : isBelow ceiling blocks k = true
    · rw [if_pos hk, if_pos hk, Array.toList_modify, Array.toList_filter, rank]
    · rw [if_neg hk, if_neg hk, Array.toList_filter]
  rw [below, rank_modify hf, hfilter]
  split
  · exact BlockScan.map_modify (hf.renumber_eq _) _ _
  · rfl

end

end Block

namespace BlockScan

open Block

/-- An open block is as deep as there are blocks around it, so that the inner ones are not below
the ceiling. -/
theorem OpenStack.length_below {ceiling : Nat} {blocks : Array Block} {stack : List Nat}
    (h : OpenStack blocks stack) :
    (stack.filter (isBelow ceiling blocks)).length = min ceiling stack.length := by
  induction h with
  | nil => simp
  | @cons number block rest hblock _ hdepth _ _ _ ih =>
      have hnumber : isBelow ceiling blocks number = decide (rest.length < ceiling) := by
        rw [isBelow, hblock, Option.any_some, hdepth]
      by_cases hlt : rest.length < ceiling
      · rw [List.filter_cons_of_pos (by simpa [hnumber] using hlt), List.length_cons, ih,
          List.length_cons]
        omega
      · rw [List.filter_cons_of_neg (by simpa [hnumber] using hlt), ih, List.length_cons]
        omega

theorem OpenStack.filter_below {ceiling : Nat} {blocks : Array Block} {stack : List Nat}
    (h : OpenStack blocks stack) (hle : stack.length ≤ ceiling) :
    stack.filter (isBelow ceiling blocks) = stack := by
  apply List.filter_sublist.eq_of_length
  rw [h.length_below, Nat.min_eq_right hle]

/-! ## Open blocks below the ceiling -/

theorem keepsPlace_closedAt (index : Nat) : KeepsPlace (closedAt index) :=
  ⟨fun _ => rfl, fun _ _ => rfl⟩

/-- The blocks below the ceiling, with the open ones among them. -/
structure CutOff (ceiling : Nat) (blocks : Array Block) (stack : List Nat)
    (blocks' : Array Block) (stack' : List Nat) : Prop where
  blocks_eq : blocks' = below ceiling blocks
  stack_eq : stack' = (stack.filter (isBelow ceiling blocks)).map (rank ceiling blocks)

namespace CutOff

variable {ceiling limit n : Nat} {blocks blocks' : Array Block} {stack stack' : List Nat}

theorem length_eq (h : CutOff ceiling blocks stack blocks' stack')
    (hopened : OpenStack blocks stack) : stack'.length = min ceiling stack.length := by
  rw [h.stack_eq, List.length_map, hopened.length_below]

theorem stack_eq_map (h : CutOff ceiling blocks stack blocks' stack')
    (hopened : OpenStack blocks stack) (hle : stack.length ≤ ceiling) :
    stack' = stack.map (rank ceiling blocks) := by
  rw [h.stack_eq, hopened.filter_below hle]

/-- The open blocks keep their numbers when a block is added. -/
theorem stack_eq_push (h : CutOff ceiling blocks stack blocks' stack')
    (hopened : OpenStack blocks stack) (b : Block) :
    stack' = (stack.filter (isBelow ceiling (blocks.push b))).map
      (rank ceiling (blocks.push b)) := by
  have hfilter : stack.filter (isBelow ceiling (blocks.push b)) =
      stack.filter (isBelow ceiling blocks) :=
    List.filter_congr fun k hk => isBelow_push (hopened.lt_size hk) b
  rw [h.stack_eq, hfilter]
  refine List.map_congr_left fun k hk => ?_
  rw [rank_push (Nat.le_of_lt (hopened.lt_size (List.mem_filter.mp hk).1)) b]

theorem below_enter (hsound : Sound limit n blocks stack) {b : Block}
    (hparent : b.parent = stack.head?) :
    below ceiling (blocks.push b) =
      if b.depth < ceiling then (below ceiling blocks).push (renumber (rank ceiling blocks) b)
      else below ceiling blocks := by
  apply below_push
  · intro c hc p hp
    obtain ⟨k, hk⟩ := Array.getElem?_of_mem hc
    obtain ⟨q, hq, -⟩ := hsound.child k c p hk hp
    exact (Array.getElem?_eq_some_iff.mp hq).1
  · intro p hp
    rw [hparent] at hp
    exact hsound.opened.lt_size (List.mem_of_mem_head? hp)

/-- A block that is entered below the ceiling. -/
theorem enter (h : CutOff ceiling blocks stack blocks' stack')
    (hsound : Sound limit n blocks stack) (hlt : stack.length < ceiling)
    (index : Nat) (construct : Construct) :
    CutOff ceiling
      (blocks.push ⟨construct, index, index, stack.length, stack.head?, #[], false⟩)
      (blocks.size :: stack)
      (blocks'.push ⟨construct, index, index, stack'.length, stack'.head?, #[], false⟩)
      (blocks'.size :: stack') := by
  constructor
  · have hlength : stack'.length = stack.length := by
      rw [h.length_eq hsound.opened, Nat.min_eq_right (Nat.le_of_lt hlt)]
    have hhead : stack'.head? = stack.head?.map (rank ceiling blocks) := by
      rw [h.stack_eq_map hsound.opened (Nat.le_of_lt hlt), List.head?_map]
    rw [below_enter hsound rfl, if_pos hlt, hlength, hhead, h.blocks_eq]
    rfl
  · have hnew : isBelow ceiling
        (blocks.push ⟨construct, index, index, stack.length, stack.head?, #[], false⟩)
        blocks.size = true := by
      rw [isBelow_push_size, decide_eq_true_eq]
      exact hlt
    rw [List.filter_cons_of_pos hnew, List.map_cons, ← h.stack_eq_push hsound.opened,
      rank_push (Nat.le_refl _), h.blocks_eq, size_below]

/-- A block that is entered at the ceiling or above is left out. -/
theorem enter_above (h : CutOff ceiling blocks stack blocks' stack')
    (hsound : Sound limit n blocks stack) (hle : ceiling ≤ stack.length)
    (index : Nat) (construct : Construct) :
    CutOff ceiling
      (blocks.push ⟨construct, index, index, stack.length, stack.head?, #[], false⟩)
      (blocks.size :: stack) blocks' stack' := by
  constructor
  · rw [below_enter hsound rfl, if_neg (Nat.not_lt.mpr hle), h.blocks_eq]
  · have hnew : ¬isBelow ceiling
        (blocks.push ⟨construct, index, index, stack.length, stack.head?, #[], false⟩)
        blocks.size = true := by
      rw [isBelow_push_size, decide_eq_true_eq]
      exact Nat.not_lt.mpr hle
    rw [List.filter_cons_of_neg hnew, ← h.stack_eq_push hsound.opened]

variable {number number' : Nat}

theorem isBelow_head (hopened : OpenStack blocks (number :: stack)) :
    isBelow ceiling blocks number = decide (stack.length < ceiling) := by
  cases hopened with
  | cons hblock _ hdepth => rw [isBelow, hblock, Option.any_some, hdepth]

/-- The innermost block is left, below the ceiling. -/
theorem leave (h : CutOff ceiling blocks (number :: stack) blocks' (number' :: stack'))
    (hopened : OpenStack blocks (number :: stack)) (hlt : stack.length < ceiling) (index : Nat) :
    CutOff ceiling (blocks.modify number (closedAt index)) stack
      (blocks'.modify number' (closedAt index)) stack' := by
  have hbelow : isBelow ceiling blocks number = true := by
    rw [isBelow_head hopened, decide_eq_true_eq]
    exact hlt
  have hstack := h.stack_eq
  rw [List.filter_cons_of_pos hbelow, List.map_cons, List.cons.injEq] at hstack
  constructor
  · rw [below_modify (keepsPlace_closedAt index), if_pos hbelow, ← hstack.1, h.blocks_eq]
  · rw [isBelow_modify (keepsPlace_closedAt index),
      rank_modify (keepsPlace_closedAt index)]
    exact hstack.2

/-- A block that was left out is left. -/
theorem leave_above (h : CutOff ceiling blocks (number :: stack) blocks' stack')
    (hopened : OpenStack blocks (number :: stack)) (hle : ceiling ≤ stack.length) (index : Nat) :
    CutOff ceiling (blocks.modify number (closedAt index)) stack blocks' stack' := by
  have habove : ¬isBelow ceiling blocks number = true := by
    rw [isBelow_head hopened, decide_eq_true_eq]
    exact Nat.not_lt.mpr hle
  constructor
  · rw [below_modify (keepsPlace_closedAt index), if_neg habove, h.blocks_eq]
  · rw [isBelow_modify (keepsPlace_closedAt index),
      rank_modify (keepsPlace_closedAt index), h.stack_eq,
      List.filter_cons_of_neg habove]

/-- Below the ceiling, the innermost block is the same. -/
theorem kind_head (h : CutOff ceiling blocks stack blocks' stack')
    (hopened : OpenStack blocks stack) (hle : stack.length ≤ ceiling) :
    (stack'.head?.bind (blocks'[·]?)).map Block.kind =
      (stack.head?.bind (blocks[·]?)).map Block.kind := by
  rw [h.stack_eq_map hopened hle, h.blocks_eq]
  cases hopened with
  | nil => rfl
  | @cons number block rest hblock _ hdepth =>
      have hlt : block.depth < ceiling := by
        rw [hdepth]
        exact hle
      have hget := getElem?_below hblock hlt
      rw [List.map_cons, List.head?_cons, List.head?_cons, Option.bind_some, Option.bind_some, hget,
        hblock]
      rfl

end CutOff

end BlockScan

end ClassicAsp
