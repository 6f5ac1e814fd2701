import ClassicAsp.Proofs.Replay

/-! # Appending text

What is found out about the lines of a text does not depend on what stands below them, with two
exceptions: a statement whose last line is open takes lines from below, and a comment looks for the
statement under it. So text that is appended to whole lines leaves the analysis of them alone. -/

namespace ClassicAsp

/-! ## Lines -/

theorem Line.pieces_append {text : List Char} (h : text.getLast? = some '\n') (more : List Char) :
    pieces (text ++ more) = pieces text ++ pieces more := by
  induction text using text_induction with
  | nil => cases h
  | last cs _ hfeed => exact absurd (List.mem_of_getLast? h) hfeed
  | feed front rest hfeed ih =>
      rw [List.append_assoc, List.cons_append, pieces_append_feed hfeed, pieces_append_feed hfeed,
        List.cons_append]
      cases rest with
      | nil => rfl
      | cons c rest =>
          rw [List.getLast?_append_cons, List.getLast?_cons_cons] at h
          rw [ih h]

theorem Document.isPrefix_linesFrom (inside : Bool) (index offset : Nat)
    (pieces more : List (List Char × Ending)) :
    linesFrom inside index offset pieces <+: linesFrom inside index offset (pieces ++ more) := by
  induction pieces generalizing inside index offset with
  | nil => exact List.nil_prefix
  | cons piece pieces ih => exact List.prefix_cons_inj _ |>.mpr (ih _ _ _)

theorem Document.isPrefix_lines {text : List Char} (h : text.getLast? = some '\n')
    (more : List Char) : (ofText text).lines <+: (ofText (text ++ more)).lines := by
  rw [lines_ofText, lines_ofText, Line.pieces_append h]
  exact isPrefix_linesFrom false 0 0 _ _

/-! ## Statements -/

namespace BlockScan

open Statement

/-- Is the last line one of code that ends with a continuation mark? -/
def endsOpen (lines : List OwnedLine) : Bool :=
  lines.getLast?.any fun line =>
    line.isCode && Form.continuation.holds (classificationCode line.content)

theorem endsOpen_cons_cons (line next : OwnedLine) (rest : List OwnedLine) :
    endsOpen (line :: next :: rest) = endsOpen (next :: rest) := by
  rw [endsOpen, List.getLast?_cons_cons, endsOpen]

theorem endsOpen_tail {line : OwnedLine} {rest : List OwnedLine}
    (h : endsOpen (line :: rest) = false) : endsOpen rest = false := by
  cases rest with
  | nil => rfl
  | cons next rest => rwa [endsOpen_cons_cons] at h

theorem exists_of_continuation {reversed : List Char}
    (h : Form.continuation.holds reversed.reverse = true) :
    ∃ before, reversed = '_' :: before ∧ before.head?.all Text.isBlank = true := by
  simp only [Form.holds, List.reverse_reverse] at h
  split at h
  · next before => exact ⟨before, rfl, h⟩
  · cases h

/-- Code that goes on with the code of another line is open only if that line is. -/
theorem continuation_joined {code : List Char} (h : Form.continuation.holds code = false)
    (before : List Char) :
    Form.continuation.holds (code.reverse ++ ' ' :: before).reverse = false := by
  by_contra hopen
  rw [Bool.not_eq_false] at hopen
  obtain ⟨front, hfront, hblank⟩ := exists_of_continuation hopen
  cases hcode : code.reverse with
  | nil =>
      rw [hcode] at hfront
      exact absurd (List.cons.inj hfront).1 (by decide)
  | cons c cs =>
      rw [hcode, List.cons_append, List.cons.injEq] at hfront
      simp only [Form.holds, hcode, hfront.1] at h
      cases cs with
      | nil => cases h
      | cons d ds =>
          rw [← hfront.2] at hblank
          exact absurd (hblank.symm.trans h) (by decide)

/-- A statement that is not open takes no line from below. -/
theorem gather_of_not_open {reversed : List Char}
    (h : Form.continuation.holds reversed.reverse = false) (budget : Budget) (joined : Nat)
    (lines : List OwnedLine) :
    gather budget reversed joined lines = ⟨reversed.reverse, joined, none⟩ := by
  cases lines with
  | nil => rfl
  | cons next rest =>
      simp only [Form.holds, List.reverse_reverse] at h
      simp only [gather]
      split
      · next before =>
          have hnot : before.head?.all Text.isBlank = false := h
          rw [hnot]
          rfl
      · rfl

/-- The statement of a line is gathered from the lines above those that are appended. -/
theorem gather_append {lines : List OwnedLine} (hlines : endsOpen lines = false)
    {reversed : List Char} (h : lines = [] → Form.continuation.holds reversed.reverse = false)
    (budget : Budget) (joined : Nat) (more : List OwnedLine) :
    gather budget reversed joined (lines ++ more) = gather budget reversed joined lines := by
  induction lines generalizing budget reversed joined with
  | nil => rw [gather_of_not_open (h rfl), gather_of_not_open (h rfl)]
  | cons next rest ih =>
      by_cases hopen : Form.continuation.holds reversed.reverse = true
      · obtain ⟨before, rfl, hblank⟩ := exists_of_continuation hopen
        by_cases hcode : next.isCode = true
        · simp only [List.cons_append, gather, hblank, hcode, Bool.and_self, if_true]
          split
          · rfl
          · -- the statement goes on with this line, and is open below it only if the line is
            apply ih (endsOpen_tail hlines)
            intro hrest
            apply continuation_joined
            simpa [endsOpen, hrest, hcode] using hlines
        · rw [Bool.not_eq_true] at hcode
          rw [List.cons_append, gather_of_not_isCode _ _ _ hcode, gather_of_not_isCode _ _ _ hcode]
      · rw [Bool.not_eq_true] at hopen
        rw [gather_of_not_open hopen, gather_of_not_open hopen]

theorem statementAt_append (limits : Limits) {line : OwnedLine} (hcode : line.isCode = true)
    {rest : List OwnedLine} (h : endsOpen (line :: rest) = false) (more : List OwnedLine) :
    statementAt limits line (rest ++ more) = statementAt limits line rest := by
  apply gather_append (endsOpen_tail h)
  intro hrest
  simpa [endsOpen, hrest, hcode] using h

/-! ## The walk -/

theorem step_append (limits : Limits) (pending head : Nat) (s : BlockScan) {line : OwnedLine}
    {rest : List OwnedLine} (h : endsOpen (line :: rest) = false) (more : List OwnedLine) :
    step limits pending head s line (rest ++ more) = step limits pending head s line rest := by
  cases pending with
  | succ pending => rfl
  | zero =>
      by_cases hcode : line.isCode = true
      · simp only [step, statementAt_append limits hcode h]
      · simp only [step, hcode, Bool.false_eq_true, if_false]

theorem isPrefix_outlines (limits : Limits) (pending head : Nat) (s : BlockScan)
    {lines : List OwnedLine} (h : endsOpen lines = false) (more : List OwnedLine) :
    outlines limits pending head s lines <+: outlines limits pending head s (lines ++ more) := by
  induction lines generalizing pending head s with
  | nil => exact List.nil_prefix
  | cons line rest ih =>
      rw [List.cons_append, outlines, outlines, step_append limits pending head s h]
      exact List.prefix_cons_inj _ |>.mpr (ih _ _ _ (endsOpen_tail h))

/-- The walk over more lines comes past the state after the first of them. -/
theorem exists_stateAfter_append (limits : Limits) (pending head : Nat) (s : BlockScan)
    {lines : List OwnedLine} (h : endsOpen lines = false) (more : List OwnedLine) :
    ∃ pending' head', stateAfter limits pending head s (lines ++ more) =
      stateAfter limits pending' head' (stateAfter limits pending head s lines) more := by
  induction lines generalizing pending head s with
  | nil => exact ⟨pending, head, rfl⟩
  | cons line rest ih =>
      rw [List.cons_append, stateAfter, stateAfter, step_append limits pending head s h]
      exact ih _ _ _ (endsOpen_tail h)

end BlockScan

/-! ## Levels and blank lines -/

theorem Indentation.isPrefix_levelsAfter (head : Nat) (levels : LevelStack)
    {rows rows' : List (OwnedLine × Outline)} (h : rows <+: rows') :
    levelsAfter [] head levels rows <+: levelsAfter [] head levels rows' := by
  obtain ⟨more, rfl⟩ := h
  induction rows generalizing head levels with
  | nil => exact List.nil_prefix
  | cons row rows ih =>
      rw [List.cons_append, levelsAfter_cons, levelsAfter_cons]
      exact List.prefix_cons_inj _ |>.mpr (ih _ _)

theorem BlankLine.isPrefix_planAfter (above : Option OwnedLine)
    {rows rows' : List (OwnedLine × Outline)} (h : rows <+: rows') :
    planAfter [] above rows <+: planAfter [] above rows' := by
  obtain ⟨more, rfl⟩ := h
  induction rows generalizing above with
  | nil => exact List.nil_prefix
  | cons row rows ih =>
      rw [List.cons_append, planAfter_cons, planAfter_cons]
      exact List.prefix_cons_inj _ |>.mpr (ih _)

open BlockScan

section

variable (limits : Limits) {doc doc' : Document}

theorem isPrefix_outlines_of_lines (hlines : doc.lines <+: doc'.lines)
    (hopen : endsOpen doc.lines = false) :
    (doc.blockStructure limits).outlines <+: (doc'.blockStructure limits).outlines := by
  obtain ⟨more, hmore⟩ := hlines
  rw [outlines_blockStructure, outlines_blockStructure, ← hmore]
  exact isPrefix_outlines limits 0 0 {} hopen more

theorem isPrefix_outlined (hlines : doc.lines <+: doc'.lines)
    (hopen : endsOpen doc.lines = false) : doc.outlined limits <+: doc'.outlined limits := by
  obtain ⟨outlines, houtlines⟩ := isPrefix_outlines_of_lines limits hlines hopen
  obtain ⟨lines, hlines⟩ := hlines
  have hlength : doc.lines.length = (doc.blockStructure limits).outlines.length := by
    rw [outlines_blockStructure, length_outlines]
  rw [Document.outlined, Document.outlined, ← hlines, ← houtlines, List.zip_append hlength]
  exact List.prefix_append _ _

/-- A line that is no comment has the level that the lines above it give. -/
theorem exists_level (hlines : doc.lines <+: doc'.lines) (hopen : endsOpen doc.lines = false)
    {i : Nat} {line : OwnedLine} (hline : doc.lines[i]? = some line)
    (hcomment : line.isComment = false) :
    ∃ level, (doc.levels limits)[i]? = some level ∧ (doc'.levels limits)[i]? = some level := by
  have hfst : (Indentation.levelsAfter [] 0 [] (doc.outlined limits)).map (·.1) = doc.lines := by
    rw [Indentation.map_fst_levelsAfter, Document.outlined, List.map_fst_zip]
    rw [outlines_blockStructure, length_outlines]
  rw [← hfst, List.getElem?_map] at hline
  obtain ⟨⟨_, level⟩, hrow, rfl⟩ := Option.map_eq_some_iff.mp hline
  refine ⟨level, Indentation.getElem?_settled limits hrow hcomment, ?_⟩
  apply Indentation.getElem?_settled limits _ hcomment
  obtain ⟨more, hmore⟩ :=
    Indentation.isPrefix_levelsAfter 0 [] (isPrefix_outlined limits hlines hopen)
  rw [← hmore, List.getElem?_append_left (List.getElem?_eq_some_iff.mp hrow).1]
  exact hrow

/-! ## Blocks -/

/-- Only the ends of blocks depend on the lines below. -/
theorem exists_sameOrigin (hnumbered : Numbered 0 doc'.lines) (hlines : doc.lines <+: doc'.lines)
    (hopen : endsOpen doc.lines = false) {k : Nat} {b : Block}
    (hb : (doc.blockStructure limits).blocks[k]? = some b) :
    ∃ b', (doc'.blockStructure limits).blocks[k]? = some b' ∧ b.SameOrigin b' := by
  obtain ⟨more, hmore⟩ := hlines
  rw [← hmore] at hnumbered
  obtain ⟨hfront, hback⟩ := hnumbered.of_append
  rw [Nat.zero_add] at hback
  obtain ⟨pending, head, hstate⟩ := exists_stateAfter_append limits 0 0 {} hopen more
  rw [hmore] at hstate
  have hlater : Later doc.lines.length (doc.lastState limits) (doc'.lastState limits) := by
    rw [Document.lastState, Document.lastState, hstate]
    exact later_stateAfter pending head hback (sound_passages hfront).2
  obtain ⟨a, ha, hfinished⟩ := exists_found hb
  obtain ⟨a', ha', horigin⟩ := hlater.kept k a ha
  obtain ⟨b', hb', hfinished'⟩ := exists_finished ha'
  exact ⟨b', hb', (hfinished.sameOrigin.symm.trans horigin).trans hfinished'.sameOrigin⟩

end

/-- Text that is appended to whole lines changes nothing that was found out about them, unless the
last of them is open: the lines, their outlines and the blank lines above them stay the same, so do
the levels of all but comments, and of the blocks at most the ends change. -/
theorem appended_text_keeps_analysis (limits : Limits) (text more : List Char)
    (hfeed : text.getLast? = some '\n') (hopen : endsOpen (Document.ofText text).lines = false) :
    let doc := Document.ofText text
    let doc' := Document.ofText (text ++ more)
    doc.lines <+: doc'.lines ∧
    (doc.blockStructure limits).outlines <+: (doc'.blockStructure limits).outlines ∧
    (∀ (i : Nat) (line : OwnedLine), doc.lines[i]? = some line → line.isComment = false →
      ∃ level, (doc.levels limits)[i]? = some level ∧ (doc'.levels limits)[i]? = some level) ∧
    (∀ (k : Nat) (b : Block), (doc.blockStructure limits).blocks[k]? = some b →
      ∃ b', (doc'.blockStructure limits).blocks[k]? = some b' ∧ b.SameOrigin b') ∧
    BlankLine.plan (doc.outlined limits) <+: BlankLine.plan (doc'.outlined limits) := by
  intro doc doc'
  have hlines : doc.lines <+: doc'.lines := Document.isPrefix_lines hfeed more
  have hnumbered : Numbered 0 doc'.lines := by
    rw [Document.lines_ofText]
    exact Document.numbered_linesFrom false 0 0 _
  refine ⟨hlines, isPrefix_outlines_of_lines limits hlines hopen, ?_, ?_, ?_⟩
  · intro i line hline hcomment
    exact exists_level limits hlines hopen hline hcomment
  · intro k b hb
    exact exists_sameOrigin limits hnumbered hlines hopen hb
  · exact BlankLine.isPrefix_planAfter none (isPrefix_outlined limits hlines hopen)

/-- The theorem at a page whose statement on two lines is followed by a comment, and a text that
closes its block. The comment moves to the level of the `Else` below it. -/
theorem appended_text_keeps_analysis_page :
    ∃ doc doc', doc = Document.ofText "<%\nif a _\nthen\n' b\n".toList ∧
      doc' = Document.ofText ("<%\nif a _\nthen\n' b\n".toList ++ "else\nend if\n%>".toList) ∧
      doc.levels {} = [0, 0, 1, 1] ∧ doc'.levels {} = [0, 0, 1, 0, 0, 0, 0] ∧
      doc.lines <+: doc'.lines ∧
      (doc.blockStructure {}).outlines <+: (doc'.blockStructure {}).outlines ∧
      (∃ level, (doc.levels {})[2]? = some level ∧ (doc'.levels {})[2]? = some level) ∧
      (∃ b', (doc'.blockStructure {}).blocks[0]? = some b' ∧
        Block.SameOrigin ⟨.ifThen, 1, 3, 0, none, #[], false⟩ b') ∧
      BlankLine.plan (doc.outlined {}) <+: BlankLine.plan (doc'.outlined {}) := by
  obtain ⟨hlines, houtlines, hlevels, hblocks, hplan⟩ := appended_text_keeps_analysis {}
    "<%\nif a _\nthen\n' b\n".toList "else\nend if\n%>".toList (by decide +kernel)
    (by decide +kernel)
  refine ⟨_, _, rfl, rfl, by decide +kernel, by decide +kernel, hlines, houtlines, ?_, ?_, hplan⟩
  · exact hlevels 2 ⟨⟨2, "then".toList, .lf, 10⟩, .body false, false⟩ (by decide +kernel) rfl
  · exact hblocks 0 ⟨.ifThen, 1, 3, 0, none, #[], false⟩ (by decide +kernel)

end ClassicAsp
