import ClassicAsp.Proofs.OwnedBytes
import ClassicAsp.Proofs.StatementLevels

/-! # Innermost blocks

The innermost block of a line is taken to be the last one that covers it. A line without markers
changes the open blocks once at most, so the blocks that cover it are one in the other, and the last
of them is the deepest: the others are its parent, the parent of that, and so on. -/

namespace ClassicAsp

open Text Block BlockScan

/-! ## The last block that covers a line -/

namespace Analysis

theorem find?_dropWhile_endLine {line i : Nat} (h : line ≤ i) (around : List (Block × Nat)) :
    (around.dropWhile (·.1.endLine < line)).find? (i ≤ ·.1.endLine) =
      around.find? (i ≤ ·.1.endLine) := by
  induction around with
  | nil => rfl
  | cons b around ih =>
      by_cases hend : b.1.endLine < line
      · rw [List.dropWhile_cons_of_pos (by simpa using hend), ih, List.find?_cons_of_neg]
        simpa using Nat.lt_of_lt_of_le hend h
      · rw [List.dropWhile_cons_of_neg (by simpa using hend)]

theorem takeWhile_startLine_append {line i : Nat} (h : line ≤ i) (later : List (Block × Nat)) :
    later.takeWhile (·.1.startLine ≤ line) ++
        (later.drop (later.takeWhile (·.1.startLine ≤ line)).length).takeWhile (·.1.startLine ≤ i) =
      later.takeWhile (·.1.startLine ≤ i) := by
  induction later with
  | nil => rfl
  | cons b later ih =>
      by_cases hstart : b.1.startLine ≤ line
      · rw [List.takeWhile_cons_of_pos (by simpa using hstart),
          List.takeWhile_cons_of_pos (by simpa using Nat.le_trans hstart h), List.length_cons,
          List.drop_succ_cons, List.cons_append, ih]
      · rw [List.takeWhile_cons_of_neg (by simpa using hstart)]
        rfl

/-- The walk over the lines finds the last of the blocks that start no later and do not end
earlier. -/
theorem innermostFrom_eq (done : List (Option Nat)) (line : Nat) (around later : List (Block × Nat))
    (count : Nat) :
    innermostFrom done line around later count =
      done.reverse ++ (List.range' line count).map fun i =>
        (((later.takeWhile (·.1.startLine ≤ i)).reverse ++ around).find?
          (i ≤ ·.1.endLine)).map (·.2) := by
  induction count generalizing done line around later with
  | zero => simp [innermostFrom]
  | succ count ih =>
      rw [innermostFrom, ih, List.range'_succ, List.map_cons, List.reverse_cons, List.append_assoc,
        List.singleton_append]
      refine congrArg (done.reverse ++ ·) (congr_arg₂ List.cons ?_ (List.map_congr_left ?_))
      · have hnot : (fun b : Block × Nat => !decide (line ≤ b.1.endLine)) =
            fun b => decide (b.1.endLine < line) := by
          funext b
          rw [← decide_not, decide_eq_decide, Nat.not_le]
        rw [List.find?_eq_head?_dropWhile_not, hnot]
      · intro i hi
        have hle : line ≤ i := Nat.le_of_succ_le (List.mem_range'_1.mp hi).1
        rw [← takeWhile_startLine_append hle later, List.reverse_append, List.append_assoc,
          List.find?_append, List.find?_append, find?_dropWhile_endLine hle]

/-- The last block that starts no later than a line and does not end earlier. -/
def lastCovering (blocks : Array Block) (i : Nat) : Option Nat :=
  ((blocks.toList.zipIdx.takeWhile (·.1.startLine ≤ i)).reverse.find? (i ≤ ·.1.endLine)).map (·.2)

theorem getElem?_innermost (blocks : Array Block) {count i : Nat} (hi : i < count) :
    (innermost blocks count)[i]? = some (lastCovering blocks i) := by
  rw [innermost, innermostFrom_eq, List.reverse_nil, List.nil_append, List.getElem?_map,
    List.getElem?_range' hi]
  simp only [List.append_nil, Nat.zero_add, Nat.one_mul, Option.map_some, Array.toList_zipIdx]
  rfl

theorem length_innermost (blocks : Array Block) (count : Nat) :
    (innermost blocks count).length = count := by
  rw [innermost, innermostFrom_eq]
  simp

end Analysis

namespace Block

/-- The block with this index covers the line. -/
def Covers (blocks : Array Block) (k i : Nat) : Prop :=
  ∃ b, blocks[k]? = some b ∧ b.startLine ≤ i ∧ i ≤ b.endLine

theorem takeWhile_startLine {entries : List (Block × Nat)}
    (h : entries.Pairwise fun x y => x.1.startLine ≤ y.1.startLine) (i : Nat) :
    entries.takeWhile (·.1.startLine ≤ i) = entries.filter (·.1.startLine ≤ i) := by
  induction entries with
  | nil => rfl
  | cons x entries ih =>
      obtain ⟨hlater, hrest⟩ := List.pairwise_cons.mp h
      by_cases hle : x.1.startLine ≤ i
      · rw [List.takeWhile_cons_of_pos (by simpa using hle),
          List.filter_cons_of_pos (by simpa using hle), ih hrest]
      · have hnone : ∀ y ∈ x :: entries, ¬y.1.startLine ≤ i := by
          intro y hy hyle
          rcases List.mem_cons.mp hy with rfl | hy
          · exact hle hyle
          · exact hle (Nat.le_trans (hlater y hy) hyle)
        rw [List.takeWhile_cons_of_neg (by simpa using hle),
          List.filter_eq_nil_iff.mpr (by simpa using hnone)]

/-- Blocks in the order of their first lines, with their numbers. -/
theorem pairwise_startLine_zipIdx {blocks : Array Block}
    (hsorted : blocks.toList.Pairwise (·.startLine ≤ ·.startLine)) :
    blocks.toList.zipIdx.Pairwise fun x y => x.1.startLine ≤ y.1.startLine := by
  rwa [← List.zipIdx_map_fst 0 blocks.toList, List.pairwise_map] at hsorted

theorem covers_lastCovering {blocks : Array Block} {i k : Nat}
    (h : Analysis.lastCovering blocks i = some k) : Covers blocks k i := by
  obtain ⟨⟨b, k⟩, hfind, rfl⟩ := Option.map_eq_some_iff.mp h
  have hmem := List.mem_reverse.mp (List.mem_of_find?_eq_some hfind)
  have hstart := List.mem_takeWhile_imp hmem
  have hend := List.find?_some hfind
  have hblock := List.mem_zipIdx_iff_getElem?.mp ((List.takeWhile_sublist _).mem hmem)
  rw [Array.getElem?_toList] at hblock
  exact ⟨b, hblock, by simpa using hstart, by simpa using hend⟩

theorem exists_lastCovering {blocks : Array Block}
    (hsorted : blocks.toList.Pairwise (·.startLine ≤ ·.startLine)) {i k : Nat}
    (h : Covers blocks k i) : ∃ last, Analysis.lastCovering blocks i = some last ∧ k ≤ last := by
  obtain ⟨b, hb, hstart, hend⟩ := h
  have hnumbers : blocks.toList.zipIdx.Pairwise fun x y => x.2 < y.2 := by
    have := List.pairwise_lt_range' (s := 0) (n := blocks.toList.length)
    rwa [← List.zipIdx_map_snd 0 blocks.toList, List.pairwise_map] at this
  have hmem : (b, k) ∈ blocks.toList.zipIdx := by
    rw [List.mem_zipIdx_iff_getElem?, Array.getElem?_toList]
    exact hb
  have hfront : (b, k) ∈ blocks.toList.zipIdx.takeWhile (·.1.startLine ≤ i) := by
    rw [takeWhile_startLine (pairwise_startLine_zipIdx hsorted)]
    exact List.mem_filter.mpr ⟨hmem, by simpa using hstart⟩
  cases hfind : (blocks.toList.zipIdx.takeWhile (·.1.startLine ≤ i)).reverse.find?
      (i ≤ ·.1.endLine) with
  | none =>
      have := List.find?_eq_none.mp hfind (b, k) (List.mem_reverse.mpr hfront)
      exact absurd hend (by simpa using this)
  | some x =>
      refine ⟨x.2, by rw [Analysis.lastCovering, hfind, Option.map_some], ?_⟩
      obtain ⟨-, later, earlier, hsplit, hlater⟩ := List.find?_eq_some_iff_append.mp hfind
      have hreverse : (blocks.toList.zipIdx.takeWhile (·.1.startLine ≤ i)).reverse.Pairwise
          fun x y => y.2 < x.2 :=
        List.pairwise_reverse.mpr (hnumbers.sublist (List.takeWhile_sublist _))
      rw [← List.mem_reverse, hsplit] at hfront
      rw [hsplit] at hreverse
      rcases List.mem_append.mp hfront with hfront | hfront
      · exact absurd hend (by simpa using hlater (b, k) hfront)
      · rcases List.mem_cons.mp hfront with rfl | hfront
        · exact Nat.le_refl k
        · have hbehind := (List.pairwise_append.mp hreverse).2.1
          exact Nat.le_of_lt ((List.pairwise_cons.mp hbehind).1 _ hfront)

end Block

/-! ## The blocks that cover a line -/

section

variable {limits : Limits} {doc : Document} {p : Passage}

theorem exists_passage_of_index (limits : Limits) (hlines : Numbered 0 doc.lines) {i : Nat}
    (hi : i < doc.lines.length) :
    ∃ p ∈ passages limits 0 0 {} doc.lines, p.line.index = i := by
  obtain ⟨p, hp, hline, -⟩ := getElem?_passages limits (List.getElem?_eq_getElem hi)
  refine ⟨p, List.mem_of_getElem? hp, ?_⟩
  rw [hline]
  simpa using hlines.index_eq (List.getElem?_eq_getElem hi)

/-- The blocks that start above a line are those that are found before it. -/
theorem startLine_lt_iff {limit n k : Nat} {s : BlockScan} {b : Block}
    (hlater : Later n s (doc.lastState limits)) (hsound : Sound limit n s.arena s.stack)
    (hb : (doc.blockStructure limits).blocks[k]? = some b) :
    b.startLine < n ↔ k < s.blocks.size := by
  obtain ⟨a, ha, hfinished⟩ := exists_found hb
  rw [hfinished.startLine_eq, ← size_arena]
  constructor
  · intro hlt
    by_contra hk
    have := hlater.added k a ha (Array.getElem?_eq_none (Nat.not_lt.mp hk))
    omega
  · intro hk
    obtain ⟨a', ha', horigin⟩ := hlater.kept k _ (Array.getElem?_eq_getElem hk)
    rw [ha] at ha'
    obtain rfl := Option.some.inj ha'
    have := hsound.lines k _ (Array.getElem?_eq_getElem hk)
    rw [horigin.startLine_eq]
    omega

/-- Blocks are found in the order of the lines that they start at. -/
theorem pairwise_startLine (limits : Limits) (hlines : Numbered 0 doc.lines) :
    (doc.blockStructure limits).blocks.toList.Pairwise (·.startLine ≤ ·.startLine) := by
  rw [List.pairwise_iff_getElem]
  intro j k hj hk hjk
  have hb := Array.getElem?_eq_getElem hj
  have hc := Array.getElem?_eq_getElem hk
  by_contra hlt
  rw [Nat.not_le, Array.getElem_toList, Array.getElem_toList] at hlt
  obtain ⟨a, ha, hfinished⟩ := exists_found hb
  have hsound : Sound limits.maxNestingDepth doc.lines.length (doc.lastState limits).arena
      (doc.lastState limits).stack := (sound_passages hlines).2
  have hlast := hsound.lines j a ha
  rw [← hfinished.startLine_eq] at hlast
  -- before the line that the one block starts at, the other is found, and so all before it
  obtain ⟨p, hp, hindex⟩ := exists_passage_of_index limits hlines
    (Nat.lt_of_le_of_lt hlast.1 hlast.2)
  have hiff := fun k b => startLine_lt_iff (k := k) (b := b) (later_before hlines hp)
    ((sound_passages hlines).1 p hp)
  rw [hindex] at hiff
  have := (hiff k _ hc).mp hlt
  exact absurd ((hiff j _ hb).mpr (by omega)) (Nat.lt_irrefl _)

theorem sound_after (hlines : Numbered 0 doc.lines) (hp : p ∈ passages limits 0 0 {} doc.lines) :
    Sound limits.maxNestingDepth (p.line.index + 1) (p.step limits).state.arena
      (p.step limits).state.stack :=
  sound_step p.pending p.head p.rest rfl ((sound_passages hlines).1 p hp)

theorem nested_after (hlines : Numbered 0 doc.lines) (hp : p ∈ passages limits 0 0 {} doc.lines) :
    Nested (doc.blockStructure limits).blocks (p.step limits).state.stack := by
  refine .of_openStack (sound_after hlines hp).opened fun k a ha => ?_
  obtain ⟨a', ha', horigin⟩ := (later_after hlines hp).kept k a ha
  obtain ⟨b, hb, hfinished⟩ := exists_finished ha'
  exact ⟨b, hb, horigin.trans hfinished.sameOrigin⟩

/-- A line without markers changes the open blocks as one statement does, or not at all. -/
theorem exists_acts (limits : Limits) (p : Passage) (hmarker : p.line.isMarker = false) :
    ∃ role, Acts p.line.index role p.before (p.step limits).state (p.step limits).outline := by
  by_cases hcode : p.pending = 0 ∧ p.line.isCode = true
  · rw [Passage.step, hcode.1]
    exact ⟨_, acts_step limits p.head p.before hcode.2 p.rest⟩
  · refine ⟨.plain, ?_⟩
    rw [Passage.step]
    cases hpending : p.pending with
    | succ n => exact .stay rfl rfl rfl rfl
    | zero =>
        have hnot : p.line.isCode = false := by simpa [hpending] using hcode
        simp only [step, hmarker, hnot, Bool.false_eq_true, if_false]
        split <;> exact .stay rfl rfl rfl rfl

/-- If no block starts at a line, the open blocks are those that cover it. -/
theorem mem_stack_before_iff_covers (hlines : Numbered 0 doc.lines)
    (hp : p ∈ passages limits 0 0 {} doc.lines)
    (hsize : (p.step limits).state.blocks.size = p.before.blocks.size) (k : Nat) :
    k ∈ p.before.stack ↔ Covers (doc.blockStructure limits).blocks k p.line.index := by
  rw [mem_stack_before_iff hlines hp]
  refine exists_congr fun b => and_congr_right fun hb => ?_
  have hbefore := startLine_lt_iff (later_before hlines hp) ((sound_passages hlines).1 p hp) hb
  have hafter := startLine_lt_iff (later_after hlines hp) (sound_after hlines hp) hb
  rw [Bool.and_eq_true, decide_eq_true_eq, decide_eq_true_eq]
  omega

/-- If a block starts at a line, the open blocks after the line are those that cover it. -/
theorem mem_stack_after_iff_covers (hlines : Numbered 0 doc.lines)
    (hp : p ∈ passages limits 0 0 {} doc.lines)
    (hsize : (p.step limits).state.blocks.size = p.before.blocks.size + 1)
    (hstack : (p.step limits).state.stack = p.before.blocks.size :: p.before.stack) (k : Nat) :
    k ∈ (p.step limits).state.stack ↔
      Covers (doc.blockStructure limits).blocks k p.line.index := by
  have hbefore := fun b => startLine_lt_iff (k := k) (b := b) (later_before hlines hp)
    ((sound_passages hlines).1 p hp)
  have hafter := fun b => startLine_lt_iff (k := k) (b := b) (later_after hlines hp)
    (sound_after hlines hp)
  rw [hstack, List.mem_cons]
  constructor
  · rintro (rfl | hk)
    · -- the block that the line opens starts there
      obtain ⟨a, ha, -⟩ := (later_after hlines hp).kept p.before.blocks.size _
        (Array.getElem?_eq_getElem (by rw [size_arena]; omega))
      obtain ⟨b, hb, -⟩ := exists_finished ha
      have hends := ((forest_blocks limits hlines).lines _ b hb).1
      have hbefore := hbefore b hb
      have hafter := hafter b hb
      exact ⟨b, hb, by omega, by omega⟩
    · obtain ⟨b, hb, hopen⟩ := (mem_stack_before_iff hlines hp k).mp hk
      rw [Bool.and_eq_true, decide_eq_true_eq, decide_eq_true_eq] at hopen
      exact ⟨b, hb, by omega, hopen.2⟩
  · rintro ⟨b, hb, hstart, hend⟩
    have hbefore := hbefore b hb
    have hafter := hafter b hb
    by_cases hk : k = p.before.blocks.size
    · exact .inl hk
    · refine .inr ((mem_stack_before_iff hlines hp k).mpr ⟨b, hb, ?_⟩)
      rw [Bool.and_eq_true, decide_eq_true_eq, decide_eq_true_eq]
      omega

/-- The blocks that cover a line without markers are one in the other. -/
theorem exists_covering (hlines : Numbered 0 doc.lines)
    (hp : p ∈ passages limits 0 0 {} doc.lines) (hmarker : p.line.isMarker = false) :
    ∃ numbers, Nested (doc.blockStructure limits).blocks numbers ∧ numbers.Pairwise (· > ·) ∧
      ∀ k, k ∈ numbers ↔ Covers (doc.blockStructure limits).blocks k p.line.index := by
  have hopened := ((sound_passages hlines).1 p hp).opened
  obtain ⟨role, hacts⟩ := exists_acts limits p hmarker
  cases hacts with
  | stay harena hstack =>
      have hsize := congrArg Array.size harena
      rw [size_arena, size_arena] at hsize
      exact ⟨_, nested_before hlines hp, hopened.pairwise,
        mem_stack_before_iff_covers hlines hp hsize⟩
  | leave construct hrole number hstack harena =>
      have hsize := congrArg Array.size harena
      rw [Array.size_modify, size_arena, size_arena] at hsize
      exact ⟨_, nested_before hlines hp, hopened.pairwise,
        mem_stack_before_iff_covers hlines hp hsize⟩
  | enter construct hrole harena hstack =>
      have hsize := congrArg Array.size harena
      rw [Array.size_push, size_arena, size_arena] at hsize
      exact ⟨_, nested_after hlines hp, (sound_after hlines hp).opened.pairwise,
        mem_stack_after_iff_covers hlines hp hsize hstack⟩

end

/-! ## The deepest block -/

namespace Block

/-- The second block is the first one or one of those around it. -/
def Encloses (blocks : Array Block) : Nat → Nat → Prop :=
  Relation.ReflTransGen fun child parent => parentOf? blocks child = some parent

/-- The innermost block of a line: there is one if any block covers the line, it is deeper than all
others that do, and these are the blocks around it. -/
structure IsInnermost (blocks : Array Block) (i : Nat) (found : Option Nat) : Prop where
  none_iff : found = none ↔ ∀ k, ¬Covers blocks k i
  deepest : ∀ k, found = some k → ∃ b, blocks[k]? = some b ∧
    ∀ (j : Nat) (c : Block), Covers blocks j i → j ≠ k → blocks[j]? = some c → c.depth < b.depth
  enclosing : ∀ k, found = some k → ∀ j, Covers blocks j i ↔ Encloses blocks k j

namespace Nested

variable {blocks : Array Block} {numbers rest : List Nat} {k j : Nat}

theorem depth_lt (h : Nested blocks numbers) (hk : k ∈ numbers) {b : Block}
    (hb : blocks[k]? = some b) : b.depth < numbers.length := by
  induction h with
  | nil => cases hk
  | @cons number block rest hblock _ hdepth _ ih =>
      rw [List.length_cons]
      rcases List.mem_cons.mp hk with rfl | hk
      · rw [hblock] at hb
        obtain rfl := Option.some.inj hb
        omega
      · have := ih hk
        omega

theorem parent_mem (h : Nested blocks numbers) (hk : k ∈ numbers)
    (hparent : parentOf? blocks k = some j) : j ∈ numbers := by
  induction h with
  | nil => cases hk
  | @cons number block rest hblock hfirst _ _ ih =>
      rcases List.mem_cons.mp hk with rfl | hk
      · rw [parentOf?, hblock, Option.bind_some, hfirst] at hparent
        exact List.mem_cons_of_mem _ (List.mem_of_mem_head? hparent)
      · exact List.mem_cons_of_mem _ (ih hk)

/-- The blocks around the innermost one are its parent, the parent of that, and so on. -/
theorem mem_iff_encloses (h : Nested blocks (k :: rest)) :
    j ∈ k :: rest ↔ Encloses blocks k j := by
  constructor
  · intro hj
    generalize hnumbers : k :: rest = numbers at h hj
    induction h generalizing k rest with
    | nil => cases hnumbers
    | @cons number block rest' hblock hparent _ hrest ih =>
        obtain ⟨rfl, rfl⟩ := List.cons.inj hnumbers
        rcases List.mem_cons.mp hj with rfl | hj
        · exact .refl
        · cases rest with
          | nil => cases hj
          | cons number' rest =>
              refine .head ?_ (ih rfl hj)
              rw [parentOf?, hblock, Option.bind_some, hparent, List.head?_cons]
  · intro hj
    induction hj with
    | refl => exact List.mem_cons_self
    | tail _ hparent ih => exact h.parent_mem ih hparent

end Nested

/-- The last block that covers a line is the innermost, if those that do are one in the other. -/
theorem isInnermost_lastCovering {blocks : Array Block}
    (hsorted : blocks.toList.Pairwise (·.startLine ≤ ·.startLine)) {numbers : List Nat}
    (hnested : Nested blocks numbers) (horder : numbers.Pairwise (· > ·)) {i : Nat}
    (hcovers : ∀ k, k ∈ numbers ↔ Covers blocks k i) :
    IsInnermost blocks i (Analysis.lastCovering blocks i) := by
  cases numbers with
  | nil =>
      have hnone : ∀ k, ¬Covers blocks k i := fun k hk => by simpa using (hcovers k).mpr hk
      have hlast : Analysis.lastCovering blocks i = none := by
        cases hlast : Analysis.lastCovering blocks i with
        | none => rfl
        | some k => exact absurd (covers_lastCovering hlast) (hnone k)
      rw [hlast]
      exact ⟨by simpa using hnone, by simp, by simp⟩
  | cons k rest =>
      have hk : Covers blocks k i := (hcovers k).mp List.mem_cons_self
      have hlast : Analysis.lastCovering blocks i = some k := by
        obtain ⟨last, hlast, hle⟩ := exists_lastCovering hsorted hk
        rcases List.mem_cons.mp ((hcovers last).mpr (covers_lastCovering hlast)) with rfl | hmem
        · exact hlast
        · have := (List.pairwise_cons.mp horder).1 last hmem
          omega
      rw [hlast]
      refine ⟨by simpa using ⟨k, hk⟩, ?_, ?_⟩
      · rintro _ ⟨rfl⟩
        cases hnested with
        | @cons _ b _ hb _ hdepth hrest =>
            refine ⟨b, hb, fun j c hj hne hc => ?_⟩
            rw [hdepth]
            exact hrest.depth_lt (((List.mem_cons.mp ((hcovers j).mpr hj)).resolve_left hne)) hc
      · rintro _ ⟨rfl⟩ j
        rw [← hcovers, hnested.mem_iff_encloses]

end Block

theorem isInnermost_of_not_marker {limits : Limits} {doc : Document}
    (hlines : Numbered 0 doc.lines) {i : Nat} {line : OwnedLine} (hline : doc.lines[i]? = some line)
    (hmarker : line.isMarker = false) :
    IsInnermost (doc.blockStructure limits).blocks i
      (Analysis.lastCovering (doc.blockStructure limits).blocks i) := by
  obtain ⟨p, hp, rfl, -⟩ := getElem?_passages limits hline
  have hindex : p.line.index = i := by simpa using hlines.index_eq hline
  obtain ⟨numbers, hnested, horder, hcovers⟩ :=
    exists_covering hlines (List.mem_of_getElem? hp) hmarker
  rw [hindex] at hcovers
  exact isInnermost_lastCovering (pairwise_startLine limits hlines) hnested horder hcovers

/-! ## The analysis of a text -/

theorem Document.numbered_limited (limits : Limits) (text : List Char) :
    Numbered 0 ((ofText text).limited limits).lines := by
  have h : Numbered 0 (ofText text).lines := by
    rw [lines_ofText]
    exact numbered_linesFrom false 0 0 _
  rw [limited]
  split
  · exact numbered_freezeFrom h limits.maxLines
  · exact h

namespace Analysis

variable {limits : Limits} {text : List Char}

theorem blocks_ofText (h : byteLength text ≤ limits.maxTextLength) :
    (ofText limits text).blocks =
      (((Document.ofText text).limited limits).blockStructure limits).blocks := by
  rw [ofText, Limits.exceeds_textLength h, if_neg Bool.false_ne_true, Layout.ofText,
    Document.limited]

theorem lines_ofText (h : byteLength text ≤ limits.maxTextLength) :
    (ofText limits text).lines =
      ((Layout.ofText limits text).lines.zip
        (innermost (ofText limits text).blocks (Layout.ofText limits text).lines.length)).map
        fun row => ⟨row.1.2, row.1.1.2.nesting, row.2⟩ := by
  rw [ofText, Limits.exceeds_textLength h, if_neg Bool.false_ne_true]

theorem ofText_of_tooLong (h : ¬byteLength text ≤ limits.maxTextLength) :
    ofText limits text = { diagnostics := [tooLong (byteLength text)] } :=
  if_pos (decide_eq_true (Nat.lt_of_not_le h))

theorem length_layout (limits : Limits) (text : List Char) :
    (Layout.ofText limits text).lines.length =
      ((Document.ofText text).limited limits).lines.length := by
  rw [Layout.lines_ofText, List.length_zip, length_indentLevels, Nat.min_self,
    ← Layout.map_fst_outlined, List.length_map]

theorem getElem?_places (rows : List ((OwnedLine × Outline) × Nat)) (blocks : Array Block) {i : Nat}
    (hi : i < rows.length) :
    ∃ place : Hierarchy, ((rows.zip (innermost blocks rows.length)).map fun row =>
        (⟨row.1.2, row.1.1.2.nesting, row.2⟩ : Hierarchy))[i]? = some place ∧
      place.block = lastCovering blocks i := by
  obtain ⟨row, hrow⟩ : ∃ row, rows[i]? = some row := ⟨_, List.getElem?_eq_getElem hi⟩
  have hzip : (rows.zip (innermost blocks rows.length))[i]? = some (row, lastCovering blocks i) :=
    List.getElem?_zip_eq_some.mpr ⟨hrow, getElem?_innermost blocks hi⟩
  rw [List.getElem?_map, hzip, Option.map_some]
  exact ⟨_, rfl, rfl⟩

/-- The block of a line is the last one that covers it. -/
theorem getElem?_lines (h : byteLength text ≤ limits.maxTextLength) {i : Nat}
    (hi : i < ((Document.ofText text).limited limits).lines.length) :
    ∃ place, (ofText limits text).lines[i]? = some place ∧
      place.block = lastCovering (ofText limits text).blocks i := by
  rw [← length_layout] at hi
  rw [lines_ofText h]
  exact getElem?_places _ _ hi

/-- The index of a block that is found is in range. -/
theorem block_lt_size {place : Hierarchy} {k : Nat} (hplace : place ∈ (ofText limits text).lines)
    (hk : place.block = some k) : k < (ofText limits text).blocks.size := by
  by_cases h : byteLength text ≤ limits.maxTextLength
  · obtain ⟨i, hi⟩ := List.getElem?_of_mem hplace
    have hlt : i < ((Document.ofText text).limited limits).lines.length := by
      have hle := (List.getElem?_eq_some_iff.mp hi).1
      rw [lines_ofText h, List.length_map, List.length_zip, length_layout] at hle
      omega
    obtain ⟨place', hplace', hblock⟩ := getElem?_lines h hlt
    rw [hi] at hplace'
    obtain rfl := Option.some.inj hplace'
    obtain ⟨b, hb, -⟩ := covers_lastCovering (hblock.symm.trans hk)
    exact (Array.getElem?_eq_some_iff.mp hb).1
  · rw [ofText_of_tooLong h] at hplace
    cases hplace

/-! ## Blocks written over one another

The blocks can also be gone through in their order, each writing its number over what is there on
its lines. For blocks in the order of their first lines, as an analysis has them, this finds the
same blocks. -/

/-- Writes the number of a block on its lines. -/
def overwrite (count : Nat) (slots : List (Option Nat)) (b : Block × Nat) : List (Option Nat) :=
  slots.mapIdx fun i slot =>
    if b.1.startLine ≤ i ∧ i < min b.1.endLine (count - 1) + 1 then some b.2 else slot

/-- The number that is on each line in the end. -/
def overwritten (blocks : Array Block) (count : Nat) : List (Option Nat) :=
  blocks.zipIdx.toList.foldl (overwrite count) (List.replicate count none)

theorem getElem?_foldl_overwrite {count i : Nat} (hi : i < count) (entries : List (Block × Nat))
    (slots : List (Option Nat)) :
    (entries.foldl (overwrite count) slots)[i]? = slots[i]?.map fun slot =>
      ((entries.reverse.find? fun b => b.1.startLine ≤ i ∧ i ≤ b.1.endLine).map (·.2)).or slot := by
  induction entries generalizing slots with
  | nil => simp
  | cons b entries ih =>
      have hmin : i < min b.1.endLine (count - 1) + 1 ↔ i ≤ b.1.endLine := by omega
      rw [List.foldl_cons, ih, overwrite, List.getElem?_mapIdx, Option.map_map, List.reverse_cons]
      congr 1
      funext slot
      simp only [Function.comp_apply, List.find?_append, Option.map_or, Option.or_assoc, hmin]
      by_cases hcovers : b.1.startLine ≤ i ∧ i ≤ b.1.endLine
      · rw [if_pos hcovers, List.find?_cons_of_pos (by simpa using hcovers)]
        rfl
      · rw [if_neg hcovers, List.find?_cons_of_neg (by simpa using hcovers)]
        rfl

theorem length_foldl_overwrite (count : Nat) (entries : List (Block × Nat))
    (slots : List (Option Nat)) :
    (entries.foldl (overwrite count) slots).length = slots.length := by
  induction entries generalizing slots with
  | nil => rfl
  | cons b entries ih => rw [List.foldl_cons, ih, overwrite, List.length_mapIdx]

/-- The walk over the lines finds the number that is on each in the end. -/
theorem innermost_eq_overwritten {blocks : Array Block}
    (hsorted : blocks.toList.Pairwise (·.startLine ≤ ·.startLine)) (count : Nat) :
    innermost blocks count = overwritten blocks count := by
  refine List.ext_getElem? fun i => ?_
  rcases Nat.lt_or_ge i count with hi | hi
  · rw [getElem?_innermost blocks hi, lastCovering,
      takeWhile_startLine (pairwise_startLine_zipIdx hsorted), ← List.filter_reverse,
      List.find?_filter, overwritten, getElem?_foldl_overwrite hi, List.getElem?_replicate,
      if_pos hi, Option.map_some, Option.or_none, Array.toList_zipIdx]
    simp only [decide_eq_true_eq]
  · have hlength := length_innermost blocks count
    have hloop : (overwritten blocks count).length = count := by
      rw [overwritten, length_foldl_overwrite, List.length_replicate]
    rw [List.getElem?_eq_none (by rwa [hlength]), List.getElem?_eq_none (by rwa [hloop])]

/-- The innermost blocks of the lines are what is written on them in the end. -/
theorem map_block_lines (limits : Limits) (text : List Char) :
    (ofText limits text).lines.map (·.block) =
      overwritten (ofText limits text).blocks (ofText limits text).lines.length := by
  by_cases h : byteLength text ≤ limits.maxTextLength
  · have hsorted : (ofText limits text).blocks.toList.Pairwise (·.startLine ≤ ·.startLine) := by
      rw [blocks_ofText h]
      exact pairwise_startLine limits (Document.numbered_limited limits text)
    have hrows := length_innermost (ofText limits text).blocks
      (Layout.ofText limits text).lines.length
    rw [← innermost_eq_overwritten hsorted, lines_ofText h, List.map_map, List.length_map,
      List.length_zip, hrows, Nat.min_self]
    exact List.map_snd_zip (Nat.le_of_eq hrows)
  · rw [ofText_of_tooLong h]
    rfl

end Analysis

/-- The block of a line without markers is the innermost one that covers it, and the index of a
block is in range for every line. -/
theorem Analysis.block_is_innermost (limits : Limits) (text : List Char) :
    (byteLength text ≤ limits.maxTextLength → ∀ (i : Nat) (line : OwnedLine),
      (Document.ofText text).lines[i]? = some line → line.isMarker = false →
      ∃ place, (ofText limits text).hierarchyAt? i = some place ∧
        IsInnermost (ofText limits text).blocks i place.block) ∧
    ∀ (i k : Nat) (place : Hierarchy), (ofText limits text).hierarchyAt? i = some place →
      place.block = some k →
      ∃ b, (ofText limits text).blocks[k]? = some b ∧ (ofText limits text).blockAt? i = some b := by
  constructor
  · intro h i line hline hmarker
    have hmarkers : ((Document.ofText text).limited limits).lines.map (·.isMarker) =
        (Document.ofText text).lines.map (·.isMarker) :=
      Document.map_limited (fun _ => rfl) limits _
    obtain ⟨line', hline', hmarker'⟩ :
        ∃ line', ((Document.ofText text).limited limits).lines[i]? = some line' ∧
          line'.isMarker = false := by
      have hrow := congrArg (·[i]?) hmarkers
      simp only [List.getElem?_map, hline, Option.map_some, hmarker] at hrow
      exact Option.map_eq_some_iff.mp hrow
    obtain ⟨place, hplace, hblock⟩ := getElem?_lines h (List.getElem?_eq_some_iff.mp hline').1
    refine ⟨place, hplace, ?_⟩
    rw [hblock, blocks_ofText h]
    exact isInnermost_of_not_marker (Document.numbered_limited limits text) hline' hmarker'
  · intro i k place hplace hk
    have hlt := block_lt_size (List.mem_of_getElem? hplace) hk
    refine ⟨_, Array.getElem?_eq_getElem hlt, ?_⟩
    rw [blockAt?, hplace, Option.bind_some, hk, Option.bind_some, Array.getElem?_eq_getElem hlt]

/-- The theorem at the line of an `If` in a procedure, in a text whose last line is frozen. -/
theorem Analysis.block_is_innermost_nested :
    let text := "<%\nsub f\nif a then\nend if\nend sub\n%>".toList
    let analysis := ofText { maxLines := 5 } text
    byteLength text ≤ ({} : Limits).maxTextLength ∧
      analysis.hierarchyAt? 2 = some ⟨1, 1, some 1⟩ ∧ Covers analysis.blocks 0 2 ∧
      Encloses analysis.blocks 1 0 ∧ (analysis.blockAt? 2).isSome = true := by
  intro text analysis
  have hlength : byteLength text ≤ ({} : Limits).maxTextLength := by decide +kernel
  have hplace : analysis.hierarchyAt? 2 = some ⟨1, 1, some 1⟩ := by decide +kernel
  have hcovers : Covers analysis.blocks 0 2 :=
    ⟨⟨.sub, 1, 4, 0, none, #[1], true⟩, by decide +kernel, by decide, by decide⟩
  obtain ⟨hinnermost, hrange⟩ := block_is_innermost { maxLines := 5 } text
  obtain ⟨place, hplace', h⟩ := hinnermost hlength 2
    ⟨⟨2, "if a then".toList, .lf, 9⟩, .body false, false⟩ (by decide +kernel) rfl
  obtain rfl := Option.some.inj (hplace.symm.trans hplace')
  refine ⟨hlength, hplace, hcovers, (h.enclosing 1 rfl 0).mp hcovers, ?_⟩
  obtain ⟨b, -, hb⟩ := hrange 2 1 _ hplace rfl
  exact Option.isSome_iff_exists.mpr ⟨b, hb⟩

end ClassicAsp
