import ClassicAsp.Proofs.Appending
import ClassicAsp.Proofs.StatementLevels

/-! # Statements on several lines

A line of code goes on with the next one if it ends with a continuation mark. The walk looks at the
code that it has joined so far and not at the lines, and has a budget of steps; still it joins the
lines of a run, all of them if the budget lasts. The lines that continue a statement do nothing to
the blocks, stand one level below its first line, and are not torn apart by blank lines. -/

namespace ClassicAsp

open Statement

namespace BlockScan

/-! ## Runs of lines -/

/-- Does the first of two lines of code go on with the second? -/
def joins (line next : OwnedLine) : Bool :=
  line.isCode && next.isCode && Form.continuation.holds (classificationCode line.content)

/-- How many lines continue the first one. -/
def runLength : List OwnedLine → Nat
  | line :: next :: rest => if joins line next then runLength (next :: rest) + 1 else 0
  | _ => 0

/-- Does line `i` go on with the next one? -/
def joinsAt (lines : List OwnedLine) (i : Nat) : Bool :=
  lines[i]?.any fun line => lines[i + 1]?.any (joins line)

variable {lines : List OwnedLine}

theorem runLength_drop (lines : List OwnedLine) (i : Nat) :
    runLength (lines.drop i) =
      if joinsAt lines i then runLength (lines.drop (i + 1)) + 1 else 0 := by
  induction lines generalizing i with
  | nil => simp [runLength, joinsAt]
  | cons line rest ih =>
      cases i with
      | succ i => exact ih i
      | zero =>
          cases rest with
          | nil => rfl
          | cons next rest => rfl

theorem exists_of_joinsAt {i : Nat} (h : joinsAt lines i = true) :
    ∃ line next, lines[i]? = some line ∧ lines[i + 1]? = some next ∧ line.isCode = true ∧
      next.isCode = true := by
  obtain ⟨line, hline, h⟩ := Option.any_eq_true _ _ |>.mp h
  obtain ⟨next, hnext, h⟩ := Option.any_eq_true _ _ |>.mp h
  simp only [joins, Bool.and_eq_true] at h
  exact ⟨line, next, hline, hnext, h.1.1, h.1.2⟩

/-- Code that goes on with the code of another line is open if and only if that line is. -/
theorem continuation_joined_eq (code before : List Char) :
    Form.continuation.holds (code.reverse ++ ' ' :: before).reverse =
      Form.continuation.holds code := by
  cases hopen : Form.continuation.holds code with
  | false => exact continuation_joined hopen before
  | true =>
      rw [← List.reverse_reverse code] at hopen
      obtain ⟨front, hfront, hblank⟩ := exists_of_continuation hopen
      simp only [Form.holds, List.reverse_reverse, hfront, List.cons_append]
      cases front with
      | nil => rfl
      | cons c front => exact hblank

/-- What is joined to a statement that is open if its last line is: the lines of the run, as many as
the budget allows. -/
theorem joined_gather {line : OwnedLine} (hcode : line.isCode = true) {reversed : List Char}
    (hopen : Form.continuation.holds reversed.reverse =
      Form.continuation.holds (classificationCode line.content))
    (budget : Budget) (joined : Nat) (rest : List OwnedLine) :
    (gather budget reversed joined rest).joined =
      joined + min budget.remaining (runLength (line :: rest)) := by
  induction rest generalizing line reversed budget joined with
  | nil => simp [gather, runLength]
  | cons next rest ih =>
      rw [runLength, joins, hcode, ← hopen, Bool.true_and]
      cases hnext : next.isCode with
      | false => simp [gather_of_not_isCode _ _ _ hnext]
      | true =>
          cases hholds : Form.continuation.holds reversed.reverse with
          | false => simp [gather_of_not_open hholds]
          | true =>
              obtain ⟨before, rfl, hblank⟩ := exists_of_continuation hholds
              simp only [gather, hblank, hnext, Bool.and_self, if_true, Budget.tick?]
              by_cases hspent : budget.remaining = 0
              · simp [hspent]
              · simp only [hspent, if_false]
                rw [ih hnext (continuation_joined_eq _ _)]
                simp only
                omega

theorem joined_statementAt (limits : Limits) {line : OwnedLine} (hcode : line.isCode = true)
    (rest : List OwnedLine) :
    (statementAt limits line rest).joined =
      min limits.maxLoopIterations (runLength (line :: rest)) := by
  rw [statementAt, joined_gather hcode (by rw [List.reverse_reverse]), Nat.zero_add]

/-! ## The walk over runs -/

variable {limits : Limits} {pending head i : Nat} {s : BlockScan} {p q : Passage}

theorem step_of_isCode (limits : Limits) (head : Nat) (s : BlockScan) {line : OwnedLine}
    (hcode : line.isCode = true) (rest : List OwnedLine) :
    (step limits 0 head s line rest).pending =
        min limits.maxLoopIterations (runLength (line :: rest)) ∧
      (step limits 0 head s line rest).head = line.index := by
  obtain ⟨howner, hfrozen, -⟩ := OwnedLine.of_isCode hcode
  have hmarker : line.isMarker = false := by rw [OwnedLine.isMarker, howner]
  simp only [step, hfrozen, hmarker, hcode, Bool.false_eq_true, if_false, if_true]
  exact ⟨joined_statementAt limits hcode rest, trivial⟩

theorem pending_step_le (limits : Limits) (head : Nat) (s : BlockScan) {line : OwnedLine}
    {rest : List OwnedLine} (h : pending ≤ runLength (line :: rest) + 1) :
    (step limits pending head s line rest).pending ≤ runLength (line :: rest) := by
  cases pending with
  | succ pending => exact Nat.le_of_succ_le_succ h
  | zero =>
      by_cases hcode : line.isCode = true
      · rw [(step_of_isCode limits head s hcode rest).1]
        exact Nat.min_le_right _ _
      · simp only [step, hcode, Bool.false_eq_true, if_false]
        split
        · exact Nat.zero_le _
        · split <;> exact Nat.zero_le _

theorem drop_of_getElem?_passages (hp : (passages limits pending head s lines)[i]? = some p) :
    lines.drop i = p.line :: p.rest := by
  induction lines generalizing pending head s i with
  | nil => simp [passages] at hp
  | cons line rest ih =>
      cases i with
      | zero =>
          obtain rfl := Option.some.inj hp
          rfl
      | succ i => exact ih hp

theorem getElem?_line_of_passages (hp : (passages limits pending head s lines)[i]? = some p) :
    lines[i]? = some p.line := by
  have h := congrArg List.head? (drop_of_getElem?_passages hp)
  rwa [List.head?_drop, List.head?_cons] at h

/-- The walk carries over to a line what the step at the line above gives. -/
theorem step_of_next (hp : (passages limits pending head s lines)[i]? = some p)
    (hq : (passages limits pending head s lines)[i + 1]? = some q) :
    q.pending = (p.step limits).pending ∧ q.head = (p.step limits).head := by
  induction lines generalizing pending head s i with
  | nil => simp [passages] at hp
  | cons line rest ih =>
      cases i with
      | succ i => exact ih hp hq
      | zero =>
          obtain rfl := Option.some.inj hp
          cases rest with
          | nil => simp [passages] at hq
          | cons next rest =>
              obtain rfl := Option.some.inj hq
              exact ⟨rfl, rfl⟩

theorem exists_passage_above (hq : (passages limits pending head s lines)[i + 1]? = some q) :
    ∃ p, (passages limits pending head s lines)[i]? = some p :=
  ⟨_, List.getElem?_eq_getElem (Nat.lt_of_succ_lt (List.getElem?_eq_some_iff.mp hq).1)⟩

/-- What the walk has joined does not reach beyond the run of the line above. -/
theorem pending_le (hq : (passages limits 0 0 {} lines)[i + 1]? = some q) :
    q.pending ≤ runLength (lines.drop i) := by
  induction i generalizing q with
  | zero =>
      cases lines with
      | nil => simp [passages] at hq
      | cons line rest =>
          rw [(step_of_next (i := 0) rfl hq).1]
          exact pending_step_le limits 0 {} (Nat.zero_le _)
  | succ i ih =>
      obtain ⟨p, hp⟩ := exists_passage_above hq
      have hle := ih hp
      rw [(step_of_next hp hq).1, Passage.step, drop_of_getElem?_passages hp]
      apply pending_step_le
      rw [runLength_drop, drop_of_getElem?_passages hp] at hle
      split at hle <;> omega

theorem pending_eq_zero (hp : (passages limits 0 0 {} lines)[i]? = some p)
    (habove : ∀ j, i = j + 1 → joinsAt lines j = false) : p.pending = 0 := by
  cases i with
  | zero =>
      cases lines with
      | nil => simp [passages] at hp
      | cons line rest =>
          obtain rfl := Option.some.inj hp
          rfl
  | succ i =>
      have hle := pending_le hp
      rw [runLength_drop, habove i rfl] at hle
      exact Nat.eq_zero_of_le_zero hle

/-! ## Whole runs -/

/-- The lines from `first` on, `count` of which continue the first one: the line above does not go
on with it, and the last line does not go on with the next one. -/
structure IsRun (lines : List OwnedLine) (first count : Nat) : Prop where
  isLine : first < lines.length
  starts : ∀ j, first = j + 1 → joinsAt lines j = false
  joined : ∀ k < count, joinsAt lines (first + k) = true
  stops : joinsAt lines (first + count) = false

namespace IsRun

variable {first count k : Nat}

theorem runLength_eq (h : IsRun lines first count) (hk : k ≤ count) :
    runLength (lines.drop (first + k)) = count - k := by
  induction hn : count - k generalizing k with
  | zero =>
      obtain rfl : k = count := by omega
      rw [runLength_drop, h.stops]
      rfl
  | succ n ih =>
      rw [runLength_drop, h.joined k (by omega), if_pos rfl, Nat.add_assoc,
        ih (by omega) (by omega)]

/-- At the lines below the first one the walk is in the statement of the first one. -/
theorem pending_eq (h : IsRun lines first count) (hnumbered : Numbered 0 lines)
    (hcount : count ≤ limits.maxLoopIterations) (hk : k < count)
    (hq : (passages limits 0 0 {} lines)[first + k + 1]? = some q) :
    q.pending = count - k ∧ q.head = first := by
  induction k generalizing q with
  | zero =>
      obtain ⟨p, hp⟩ := exists_passage_above hq
      obtain ⟨hpending, hhead⟩ := step_of_next hp hq
      have hline := getElem?_line_of_passages hp
      obtain ⟨line, next, hline', -, hcode, -⟩ := exists_of_joinsAt (h.joined 0 hk)
      obtain rfl := Option.some.inj (hline.symm.trans hline')
      obtain ⟨hjoined, hindex⟩ := step_of_isCode limits p.head p.before hcode p.rest
      have hrun : runLength (lines.drop first) = count := h.runLength_eq (Nat.zero_le count)
      rw [hpending, hhead, Passage.step, pending_eq_zero hp h.starts, hjoined, hindex,
        ← drop_of_getElem?_passages hp, hrun, Nat.min_eq_right hcount]
      exact ⟨rfl, by simpa using hnumbered.index_eq hline⟩
  | succ k ih =>
      obtain ⟨p, hp⟩ := exists_passage_above hq
      obtain ⟨hpending, hhead⟩ := step_of_next hp hq
      obtain ⟨hpending', hhead'⟩ := ih (by omega) hp
      obtain ⟨n, hn⟩ : ∃ n, count - k = n + 1 := ⟨count - k - 1, by omega⟩
      rw [hpending, hhead, Passage.step, hpending', hn]
      exact ⟨by simp only [step]; omega, hhead'⟩

theorem outline_eq (h : IsRun lines first count) (hnumbered : Numbered 0 lines)
    (hcount : count ≤ limits.maxLoopIterations) (hk : k < count) :
    ∃ nesting, (outlines limits 0 0 {} lines)[first + k + 1]? =
      some { continues := some first, nesting } := by
  obtain ⟨line, next, -, hnext, -, -⟩ := exists_of_joinsAt (h.joined k hk)
  obtain ⟨q, hq⟩ : ∃ q, (passages limits 0 0 {} lines)[first + k + 1]? = some q := by
    rw [← map_line_passages limits 0 0 {} lines, List.getElem?_map, Option.map_eq_some_iff] at hnext
    obtain ⟨q, hq, -⟩ := hnext
    exact ⟨q, hq⟩
  obtain ⟨hpending, hhead⟩ := h.pending_eq hnumbered hcount hk hq
  obtain ⟨n, hn⟩ : ∃ n, count - k = n + 1 := ⟨count - k - 1, by omega⟩
  refine ⟨q.before.depth, ?_⟩
  rw [outlines_eq_map_passages, List.getElem?_map, hq, Option.map_some, Passage.step, hpending,
    hhead, hn]
  rfl

end IsRun

end BlockScan

/-! ## Levels and blank lines of runs -/

namespace Indentation

/-- A line of code that continues a statement stands one level below its first line. -/
theorem level_of_continues {line : OwnedLine} (hcode : line.isCode = true) {o : Outline}
    (h : o.continues.isSome = true) (head : Nat) (levels : LevelStack) :
    line.level o head levels = (head + 1, levels) := by
  obtain ⟨howner, hfrozen, -⟩ := OwnedLine.of_isCode hcode
  simp [OwnedLine.level, OwnedLine.isScript, howner, hfrozen, h]

/-- The row is a line of code that continues a statement. -/
def Continues (row : OwnedLine × Outline) : Prop :=
  row.1.isCode = true ∧ row.2.continues.isSome = true

theorem getElem?_levelsAfter_of_continues {rows : List (OwnedLine × Outline)} {k : Nat}
    (h : ∀ j ≤ k, ∃ row, rows[j]? = some row ∧ Continues row) (head : Nat) (levels : LevelStack) :
    (levelsAfter [] head levels rows)[k]? = rows[k]?.map fun row => (row.1, head + 1) := by
  induction rows generalizing k with
  | nil => rfl
  | cons row rows ih =>
      obtain ⟨line, o⟩ := row
      obtain ⟨row, hrow, hcode, hcontinues⟩ := h 0 (Nat.zero_le k)
      obtain rfl := Option.some.inj hrow
      rw [levelsAfter_cons, level_of_continues hcode hcontinues, if_pos hcontinues]
      cases k with
      | zero => rfl
      | succ k => exact ih fun j hj => h (j + 1) (Nat.succ_le_succ hj)

/-- The lines that continue a statement stand one level below its first line. -/
theorem getElem?_levelsAfter_below {rows : List (OwnedLine × Outline)} {first : Nat}
    {row : OwnedLine × Outline} (hrow : rows[first]? = some row)
    (hstarts : row.2.continues.isSome = false) (head : Nat) (levels : LevelStack) :
    ∃ level, (levelsAfter [] head levels rows)[first]? = some (row.1, level) ∧
      ∀ k, (∀ j ≤ k, ∃ row, rows[first + j + 1]? = some row ∧ Continues row) →
        (levelsAfter [] head levels rows)[first + k + 1]? =
          rows[first + k + 1]?.map fun row => (row.1, level + 1) := by
  induction rows generalizing first head levels with
  | nil => simp at hrow
  | cons row' rows ih =>
      obtain ⟨line, o⟩ := row'
      rw [levelsAfter_cons]
      cases first with
      | zero =>
          obtain rfl := Option.some.inj hrow
          rw [if_neg (by simp [hstarts])]
          refine ⟨_, rfl, fun k h => ?_⟩
          simp only [Nat.zero_add, List.getElem?_cons_succ] at h ⊢
          exact getElem?_levelsAfter_of_continues h _ _
      | succ first =>
          simp only [Nat.succ_add, List.getElem?_cons_succ] at hrow ⊢
          exact ih hrow _ _

end Indentation

theorem BlankLine.getElem?_planAfter {rows : List (OwnedLine × Outline)} {i : Nat}
    {line : OwnedLine} {o : Outline} (hrow : rows[i]? = some (line, o)) (hopens : o.opens = false)
    (above : Option OwnedLine) : (planAfter [] above rows)[i]? = some false := by
  induction rows generalizing above i with
  | nil => simp at hrow
  | cons row rows ih =>
      obtain ⟨line', o'⟩ := row
      rw [planAfter_cons]
      cases i with
      | succ i => exact ih hrow _
      | zero =>
          obtain ⟨rfl, rfl⟩ := Prod.mk.inj (Option.some.inj hrow)
          simp [isDeclaration, hopens]

/-! ## The statements of a text -/

open BlockScan

/-- The lines of a run are kept together: those below the first one only continue its statement,
stand one level below it, and get no blank lines above them. -/
structure Document.Grouped (limits : Limits) (doc : Document) (first count : Nat) : Prop where
  starts : ∃ o, (doc.blockStructure limits).outlines[first]? = some o ∧ o.continues = none
  continues : ∀ k, 1 ≤ k → k ≤ count → ∃ nesting,
    (doc.blockStructure limits).outlines[first + k]? = some { continues := some first, nesting }
  levels : ∃ level, (doc.levels limits)[first]? = some level ∧
    ∀ k, 1 ≤ k → k ≤ count → (doc.levels limits)[first + k]? = some (level + 1)
  unspaced : ∀ k, 1 ≤ k → k ≤ count →
    (BlankLine.plan (doc.outlined limits))[first + k]? = some false

section

variable {limits : Limits} {doc : Document} {first count : Nat}

/-- A line starts a statement of its own if the line above does not go on with it. -/
theorem continues_eq_none {i : Nat} {o : Outline}
    (ho : (doc.blockStructure limits).outlines[i]? = some o)
    (habove : ∀ j, i = j + 1 → joinsAt doc.lines j = false) : o.continues = none := by
  rw [outlines_blockStructure, outlines_eq_map_passages, List.getElem?_map] at ho
  obtain ⟨p, hp, rfl⟩ := Option.map_eq_some_iff.mp ho
  rw [Passage.step, pending_eq_zero hp habove, ← Option.not_isSome_iff_eq_none,
    continues_step_zero]
  exact Bool.false_ne_true

theorem BlockScan.IsRun.getElem?_outlined (h : IsRun doc.lines first count)
    (hnumbered : Numbered 0 doc.lines) (hcount : count ≤ limits.maxLoopIterations) {k : Nat}
    (hk : k < count) :
    ∃ line nesting, line.isCode = true ∧ (doc.outlined limits)[first + k + 1]? =
      some (line, { continues := some first, nesting }) := by
  obtain ⟨-, line, -, hline, -, hcode⟩ := exists_of_joinsAt (h.joined k hk)
  obtain ⟨nesting, ho⟩ := h.outline_eq hnumbered hcount hk
  refine ⟨line, nesting, hcode, ?_⟩
  rw [Document.outlined, outlines_blockStructure, List.getElem?_zip_eq_some]
  exact ⟨hline, ho⟩

theorem Document.getElem?_levels {i level : Nat} {line : OwnedLine}
    (hrow : (Indentation.levelsAfter [] 0 [] (doc.outlined limits))[i]? = some (line, level))
    (hcode : line.isCode = true) : (doc.levels limits)[i]? = some level := by
  have hcomment : line.isComment = false := by
    rw [OwnedLine.isComment, (OwnedLine.of_isCode hcode).1]
  exact Indentation.getElem?_settled limits hrow hcomment

theorem Document.length_levels (limits : Limits) (doc : Document) :
    (doc.levels limits).length = doc.lines.length := by
  rw [levels, length_indentLevels, outlined, List.length_zip, outlines_blockStructure,
    length_outlines, Nat.min_self]

theorem BlockScan.IsRun.levels_eq (h : IsRun doc.lines first count)
    (hnumbered : Numbered 0 doc.lines) (hcount : count ≤ limits.maxLoopIterations) :
    ∃ level, (doc.levels limits)[first]? = some level ∧
      ∀ k < count, (doc.levels limits)[first + k + 1]? = some (level + 1) := by
  cases count with
  | zero =>
      have hlt : first < (doc.levels limits).length := by
        rw [Document.length_levels]
        exact h.isLine
      exact ⟨_, List.getElem?_eq_getElem hlt, fun k hk => absurd hk (Nat.not_lt_zero k)⟩
  | succ count =>
      obtain ⟨line, -, hline, -, hcode, -⟩ := exists_of_joinsAt (h.joined 0 (Nat.zero_lt_succ _))
      obtain ⟨p, hp, -, ho⟩ := getElem?_passages limits hline
      have hrow : (doc.outlined limits)[first]? = some (line, (p.step limits).outline) :=
        List.getElem?_zip_eq_some.mpr ⟨hline, ho⟩
      have hstarts : (p.step limits).outline.continues.isSome = false := by
        rw [continues_eq_none ho h.starts]
        rfl
      obtain ⟨level, hlevel, hbelow⟩ :=
        Indentation.getElem?_levelsAfter_below hrow hstarts 0 []
      refine ⟨level, Document.getElem?_levels hlevel hcode, fun k hk => ?_⟩
      obtain ⟨next, nesting, hnext, hrow'⟩ := h.getElem?_outlined hnumbered hcount hk
      have hlevel' := hbelow k fun j hj => by
        obtain ⟨next, nesting, hnext, hrow⟩ :=
          h.getElem?_outlined hnumbered hcount (Nat.lt_of_le_of_lt hj hk)
        exact ⟨_, hrow, hnext, rfl⟩
      rw [hrow'] at hlevel'
      exact Document.getElem?_levels hlevel' hnext

theorem BlockScan.IsRun.grouped (h : IsRun doc.lines first count)
    (hnumbered : Numbered 0 doc.lines) (hcount : count ≤ limits.maxLoopIterations) :
    doc.Grouped limits first count where
  starts := by
    obtain ⟨p, hp, -, ho⟩ := getElem?_passages limits (List.getElem?_eq_getElem h.isLine)
    exact ⟨_, ho, continues_eq_none ho h.starts⟩
  continues := by
    intro k hpos hk
    obtain ⟨k, rfl⟩ := Nat.exists_eq_add_of_le' hpos
    rw [outlines_blockStructure]
    exact h.outline_eq hnumbered hcount hk
  levels := by
    obtain ⟨level, hlevel, hbelow⟩ := h.levels_eq hnumbered hcount
    refine ⟨level, hlevel, fun k hpos hk => ?_⟩
    obtain ⟨k, rfl⟩ := Nat.exists_eq_add_of_le' hpos
    exact hbelow k hk
  unspaced := by
    intro k hpos hk
    obtain ⟨k, rfl⟩ := Nat.exists_eq_add_of_le' hpos
    obtain ⟨line, nesting, -, hrow⟩ := h.getElem?_outlined hnumbered hcount hk
    exact BlankLine.getElem?_planAfter hrow rfl none

end

/-- The lines of a statement are found exactly and kept together, and a line starts a statement of
its own if the line above does not go on with it. -/
theorem Document.statements_grouped (limits : Limits) (text : List Char) (frozenFrom : Nat) :
    let doc := (ofText text).freezeFrom frozenFrom
    (∀ first count, IsRun doc.lines first count → count ≤ limits.maxLoopIterations →
      doc.Grouped limits first count) ∧
    ∀ (i : Nat) (o : Outline), (doc.blockStructure limits).outlines[i]? = some o →
      (∀ j, i = j + 1 → joinsAt doc.lines j = false) → o.continues = none := by
  intro doc
  refine ⟨fun first count h hcount => ?_, fun i o ho habove => continues_eq_none ho habove⟩
  exact h.grouped (numbered_frozen text frozenFrom) hcount

/-- The theorem at a statement on three lines, the first with a comment behind its mark, where the
budget just lasts. -/
theorem Document.statements_grouped_condition :
    ∃ doc, doc = (ofText "<%\nif a _ ' b\n  and c _\nthen\nd\n%>".toList).freezeFrom 5 ∧
      IsRun doc.lines 1 2 ∧ doc.Grouped { maxLoopIterations := 2 } 1 2 ∧
      (doc.levels { maxLoopIterations := 2 })[3]? = some 1 := by
  obtain ⟨hgrouped, -⟩ := statements_grouped { maxLoopIterations := 2 }
    "<%\nif a _ ' b\n  and c _\nthen\nd\n%>".toList 5
  have hrun : IsRun ((ofText "<%\nif a _ ' b\n  and c _\nthen\nd\n%>".toList).freezeFrom 5).lines
      1 2 := by
    refine ⟨by decide +kernel, fun j hj => ?_, by decide +kernel, by decide +kernel⟩
    obtain rfl : j = 0 := by omega
    decide +kernel
  have hkept := hgrouped 1 2 hrun (Nat.le_refl 2)
  refine ⟨_, rfl, hrun, hkept, ?_⟩
  obtain ⟨level, hlevel, hbelow⟩ := hkept.levels
  obtain rfl : 0 = level := Option.some.inj (Eq.trans (by decide +kernel) hlevel)
  exact hbelow 2 (by decide) (Nat.le_refl 2)

end ClassicAsp
